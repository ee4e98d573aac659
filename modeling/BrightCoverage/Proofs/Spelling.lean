import Mathlib.Tactic.Common
import BrightCoverage.Grammar.Program

/-! The grammar of files. A phrase is a part of a tree, or of what stands between the parts, and a
form of it is a list of tokens, skipped tokens, looks ahead and shorter phrases. `Spells` says that a
phrase is what the tokens up to a rest spell in one of its forms. Operators bind as `Grouped` says,
which speaks of the tree alone. -/

namespace BrightCoverage

variable {α : Type}

/-- The precedences of the operators that stand open at the right end of an expression. -/
def Expr.edge : Expr α → List Precedence
  | .binary _ op _ right => op.precedence :: right.edge
  | .unary _ op operand => op.precedence :: operand.edge
  | _ => []

def Expr.isOperand : Expr α → Bool
  | .binary .. | .unary .. => false
  | _ => true

theorem Expr.edge_of_isOperand {e : Expr α} (h : e.isOperand = true) : e.edge = [] := by
  cases e <;> first | rfl | cases h

/-- Whether an expression that is a binary operation has an operator above the precedence. -/
def Expr.Above (p : Precedence) : Expr α → Prop
  | .binary _ op _ _ => p.rank < op.precedence.rank
  | _ => True

theorem Expr.above_of_isOperand {e : Expr α} (h : e.isOperand = true) (min : Precedence) :
    e.Above min := by
  cases e <;> trivial

/-- The operands of an operation are those that its precedence allows, and calls, members, indices
and attributes belong to operands. -/
def Expr.Grouped : Expr α → Prop
  | .binary _ op left right =>
    (∀ p ∈ left.edge, op.precedence.rank ≤ p.rank) ∧ right.Above op.precedence
  | .unary _ op operand => operand.Above op.precedence
  | .call _ object _ | .member _ object _ | .index _ object _ | .attribute _ object _ =>
    object.isOperand = true
  | _ => True

def kindOf (ts : List Token) : Option TokenKind :=
  ts.head?.map Token.kind

def attachments : List (Option TokenKind) :=
  [some (.symbol .leftParen), some (.symbol .dot), some (.symbol .leftBracket),
    some (.symbol .atSign)]

def Unattached (ts : List Token) : Prop :=
  kindOf ts ∉ attachments

/-- Nothing that could go on with an expression. -/
def Inert (ts : List Token) : Prop :=
  Unattached ts ∧ (kindOf ts).bind BinaryOp.ofKind? = none

/-- No operator comes next that binds tighter than one of the precedences. -/
def Yields (ts : List Token) (ps : List Precedence) : Prop :=
  ∀ op, (kindOf ts).bind BinaryOp.ofKind? = some op → ∀ p ∈ ps, op.precedence.rank ≤ p.rank

/-- Where the statements of a block end. -/
inductive Stop where
  | never
  | block (b : Block)
  | branch
  | directive

def Stop.atEnd : Stop → Cursor → Bool
  | never, _ => false
  | block b, c => b.atEnd c
  | branch, c => c.atBranchEnd
  | directive, c => Directive.atBranchEnd c

def ProcedureKind.word : ProcedureKind → Keyword
  | function => .functionKw
  | sub => .subKw

/-- What tokens spell: a part of a tree, or what holds its parts together. -/
inductive Phrase (α : Type) where
  | expression (e : Expr α)
  /-- A whole expression, behind which nothing goes on with it. -/
  | value (e : Expr α)
  | argument (e : Expr α)
  | entry (entry : Entry α)
  | parameter (param : Parameter α)
  | word (name : String)
  /-- Phrases with commas between them, up to a closing symbol. -/
  | list (closing : Symbol) (items : List (Phrase α))
  /-- Phrases that each follow a comma. -/
  | more (items : List (Phrase α))
  /-- The items of a collection, up to its closing symbol. -/
  | items (closing : Symbol) (items : List (Phrase α))
  /-- A phrase that follows a token of its own, if it is there. -/
  | maybe (kind : TokenKind) (phrase : Option (Phrase α))
  /-- A token that may be left out. -/
  | accepted (kind : TokenKind)
  | procedure (decl : Procedure α)
  | statement (s : Statement α)
  /-- An `if` that an `elseif` starts on the line of another one. -/
  | chained (s : Statement α)
  | block (stop : Stop) (body : List (Statement α))
  | inline (body : List (Statement α))
  | inlineMore (body : List (Statement α))
  | inlineElse (body : Option (List (Statement α)))
  | elseIfs (clauses : List (ElseIf α))
  | close (b : Block)
  /-- Separators of printed values, of which the last one counts. -/
  | separators (last : Option PrintSeparator)
  | printed (items : List (PrintItem α))
  | compileElseIfs (clauses : List (CompileElseIf α))
  | compileElse (body : Option (List (Statement α)))

/-- A part of a form. -/
inductive Part (α : Type) where
  /-- A token of a kind. -/
  | token (kind : TokenKind) (text : String → Prop)
  /-- A word, which may be a keyword. -/
  | word (name : String)
  /-- A directive. -/
  | line (directive : Directive → Prop)
  /-- All tokens of some kinds that come next. -/
  | skip (kinds : List TokenKind)
  | ahead (rest : List Token → Prop)
  | phrase (phrase : Phrase α)

namespace Part

abbrev kind (k : TokenKind) : Part α :=
  .token k fun _ => True

abbrev keyword (k : Keyword) : Part α :=
  .kind (.keyword k)

abbrev symbol (s : Symbol) : Part α :=
  .kind (.symbol s)

abbrev name (n : String) : Part α :=
  .token .identifier (· = n)

abbrev newlines : Part α :=
  .skip [.newline]

abbrev separators : Part α :=
  .skip [.newline, .symbol .colon]

abbrev next (kind : Option TokenKind → Prop) : Part α :=
  .ahead fun ts => kind (kindOf ts)

abbrev value (e : Expr α) : Part α :=
  .phrase (.value e)

end Part

open BrightCoverage.Part in
/-- The forms of phrases. -/
inductive Form : Phrase α → List (Part α) → Prop
  | integer {here : α} {value : Nat} : value ≤ maxInteger →
    Form (.expression (.integer here value))
      [token .integer fun text => integerValue 10 text.toList = value]
  | hexInteger {here : α} {value : Nat} : value ≤ maxInteger →
    Form (.expression (.integer here value))
      [token .hexInteger fun text => integerValue 16 (text.toList.drop 2) = value]
  | float {here : α} {bits : Nat} :
    Form (.expression (.float here bits)) [token .float fun text => floatBits text.toList = bits]
  | string {here : α} {value : String} :
    Form (.expression (.string here value)) [token .string fun text => unquoteText text = value]
  | isTrue {here : α} : Form (.expression (.boolean here true)) [keyword .trueKw]
  | isFalse {here : α} : Form (.expression (.boolean here false)) [keyword .falseKw]
  | invalid {here : α} : Form (.expression (.invalid here)) [keyword .invalidKw]
  | identifier {here : α} {n : String} : Form (.expression (.identifier here n)) [name n]
  | binary {here : α} {op : BinaryOp} {left right : Expr α} {k : TokenKind} :
    BinaryOp.ofKind? k = some op → (Expr.binary here op left right).Grouped →
    Form (.expression (.binary here op left right))
      [phrase (.expression left), kind k, phrase (.expression right)]
  | unary {here : α} {op : UnaryOp} {operand : Expr α} {k : TokenKind} :
    UnaryOp.ofKind? k = some op → (Expr.unary here op operand).Grouped →
    Form (.expression (.unary here op operand)) [kind k, phrase (.expression operand)]
  | grouped {here : α} {inner : Expr α} : Form (.expression (.grouped here inner))
      [symbol .leftParen, newlines, value inner, newlines, symbol .rightParen]
  | call {here : α} {callee : Expr α} {args : List (Expr α)} :
    (Expr.call here callee args).Grouped → Form (.expression (.call here callee args))
      [phrase (.expression callee), symbol .leftParen, newlines,
        phrase (.list .rightParen (args.map .argument)), symbol .rightParen]
  | member {here : α} {object : Expr α} {n : String} : (Expr.member here object n).Grouped →
    Form (.expression (.member here object n))
      [phrase (.expression object), symbol .dot, word n]
  | index {here : α} {object index : Expr α} : (Expr.index here object index).Grouped →
    Form (.expression (.index here object index))
      [phrase (.expression object), symbol .leftBracket, newlines, value index, newlines,
        symbol .rightBracket]
  | attr {here : α} {object : Expr α} {n : String} : (Expr.attribute here object n).Grouped →
    Form (.expression (.attribute here object n))
      [phrase (.expression object), symbol .atSign, word n]
  | array {here : α} {items : List (Expr α)} : Form (.expression (.array here items))
      [symbol .leftBracket, phrase (.items .rightBracket (items.map .value)),
        symbol .rightBracket]
  | assoc {here : α} {entries : List (Entry α)} : Form (.expression (.assoc here entries))
      [symbol .leftBrace, phrase (.items .rightBrace (entries.map .entry)), symbol .rightBrace]
  | anonymous {here : α} {decl : Procedure α} : Form (.expression (.procedure here decl))
      [keyword decl.keyword.word, phrase (.procedure decl)]
  | value {e : Expr α} : Form (.value e) [phrase (.expression e), ahead Inert]
  | argument {e : Expr α} : Form (.argument e) [newlines, value e, newlines]
  | stringKey {key : String} {e : Expr α} : Form (.entry (.mk key e))
      [token .string fun text => unquoteText text = key, symbol .colon, value e]
  | wordKey {key : String} {e : Expr α} : Form (.entry (.mk key e))
      [next (· ≠ some .string), word key, symbol .colon, value e]
  | parameter {n : String} {default : Option (Expr α)} {type : Option String} :
    Form (.parameter (.mk n default type))
      [word n, phrase (.maybe (.symbol .equals) (default.map .value)),
        phrase (.maybe (.keyword .asKw) (type.map .word))]
  | word {n : String} : Form (.word n) [word n]
  | listNil {closing : Symbol} :
    Form (.list closing []) [next (· = some (.symbol closing))]
  | listCons {closing : Symbol} {item : Phrase α} {items : List (Phrase α)} :
    Form (.list closing (item :: items))
      [next (· ≠ some (.symbol closing)), phrase item, phrase (.more items)]
  | moreNil : Form (.more []) [next (· ≠ some (.symbol .comma))]
  | moreCons {item : Phrase α} {items : List (Phrase α)} :
    Form (.more (item :: items)) [symbol .comma, phrase item, phrase (.more items)]
  | itemsNil {closing : Symbol} :
    Form (.items closing []) [newlines, next (· = some (.symbol closing))]
  | itemsLast {closing : Symbol} {item : Phrase α} :
    Form (.items closing [item]) [newlines, next (· ≠ some (.symbol closing)), phrase item,
      next fun k => k ≠ some (.symbol .comma) ∧ k ≠ some .newline]
  | itemsComma {closing : Symbol} {item : Phrase α} {items : List (Phrase α)} :
    Form (.items closing (item :: items)) [newlines, next (· ≠ some (.symbol closing)),
      phrase item, symbol .comma, phrase (.items closing items)]
  | itemsNewline {closing : Symbol} {item : Phrase α} {items : List (Phrase α)} :
    Form (.items closing (item :: items)) [newlines, next (· ≠ some (.symbol closing)),
      phrase item, next (· = some .newline), phrase (.items closing items)]
  | maybeNone {k : TokenKind} : Form (.maybe k none) [next (· ≠ some k)]
  | maybeSome {k : TokenKind} {p : Phrase α} : Form (.maybe k (some p)) [kind k, phrase p]
  | accepted {k : TokenKind} : Form (.accepted k) [kind k]
  | omitted {k : TokenKind} : Form (.accepted k) [next (· ≠ some k)]
  | procedure {keyword : ProcedureKind} {params : List (Parameter α)} {returns : Option String}
      {body : List (Statement α)} : Form (.procedure (.mk keyword params returns body))
      [symbol .leftParen, phrase (.list .rightParen (params.map .parameter)), symbol .rightParen,
        phrase (.maybe (.keyword .asKw) (returns.map .word)),
        phrase (.block (.block (.procedure keyword)) body), phrase (.close (.procedure keyword))]
  | blockNil {stop : Stop} : Form (.block stop [])
      [separators, ahead fun ts => ts = [] ∨ stop.atEnd (.ofTokens ts) = true]
  | blockCons {stop : Stop} {s : Statement α} {body : List (Statement α)} :
    Form (.block stop (s :: body))
      [separators, ahead fun ts => ts ≠ [] ∧ stop.atEnd (.ofTokens ts) = false,
        phrase (.statement s), ahead fun ts => (Cursor.ofTokens ts).atStatementEnd = true,
        phrase (.block stop body)]
  | closer {b : Block} {k : Keyword} : b.closer? = some k → Form (.close b) [keyword k]
  | nextWord : Form (.close .forLoop) [keyword .nextKw, phrase (.accepted .identifier)]
  | pair {b : Block} {k : Keyword} : b.opener? = some k →
    Form (.close b) [keyword .endKw, keyword k]
  | namedProcedure {here : α} {n : String} {decl : Procedure α} :
    Form (.statement (.procedure here n decl))
      [keyword decl.keyword.word, name n, phrase (.procedure decl)]
  | blockBranch {here : α} {condition : Expr α} {thenBody : List (Statement α)}
      {elseIfs : List (ElseIf α)} {elseBody : Option (List (Statement α))} :
    Form (.statement (.branch here condition thenBody elseIfs elseBody))
      [keyword .ifKw, value condition, phrase (.accepted (.keyword .thenKw)),
        ahead fun ts => (Cursor.ofTokens ts).atBlockForm = true, phrase (.block .branch thenBody),
        phrase (.elseIfs elseIfs),
        phrase (.maybe (.keyword .elseKw) (elseBody.map (.block (.block .branch)))),
        phrase (.close .branch)]
  | inlineBranch {here : α} {condition : Expr α} {thenBody : List (Statement α)}
      {elseBody : Option (List (Statement α))} :
    Form (.statement (.branch here condition thenBody [] elseBody))
      [keyword .ifKw, value condition, keyword .thenKw,
        ahead fun ts => (Cursor.ofTokens ts).atBlockForm = false, phrase (.inline thenBody),
        phrase (.inlineElse elseBody)]
  | chained {here : α} {condition : Expr α} {thenBody : List (Statement α)}
      {elseBody : Option (List (Statement α))} :
    Form (.chained (.branch here condition thenBody [] elseBody))
      [keyword .elseIfKw, value condition, keyword .thenKw, phrase (.inline thenBody),
        phrase (.inlineElse elseBody)]
  | elseIfsNil : Form (.elseIfs [])
      [ahead fun ts => (Cursor.ofTokens ts).atElseIf = false]
  | elseIfsOne {here : α} {condition : Expr α} {body : List (Statement α)}
      {clauses : List (ElseIf α)} : Form (.elseIfs (.mk here condition body :: clauses))
      [keyword .elseIfKw, value condition, phrase (.accepted (.keyword .thenKw)),
        phrase (.block .branch body), phrase (.elseIfs clauses)]
  | elseIfsTwo {here : α} {condition : Expr α} {body : List (Statement α)}
      {clauses : List (ElseIf α)} : Form (.elseIfs (.mk here condition body :: clauses))
      [keyword .elseKw, keyword .ifKw, value condition, phrase (.accepted (.keyword .thenKw)),
        phrase (.block .branch body), phrase (.elseIfs clauses)]
  | inline {s : Statement α} {body : List (Statement α)} :
    Form (.inline (s :: body)) [phrase (.statement s), phrase (.inlineMore body)]
  | inlineNil : Form (.inlineMore []) [next (· ≠ some (.symbol .colon))]
  | inlineEnd : Form (.inlineMore [])
      [symbol .colon, ahead fun ts => (Cursor.ofTokens ts).atInlineEnd = true]
  | inlineCons {s : Statement α} {body : List (Statement α)} :
    Form (.inlineMore (s :: body))
      [symbol .colon, ahead fun ts => (Cursor.ofTokens ts).atInlineEnd = false,
        phrase (.statement s), phrase (.inlineMore body)]
  | noElse : Form (.inlineElse none)
      [next fun k => k ≠ some (.keyword .elseKw) ∧ k ≠ some (.keyword .elseIfKw)]
  | inlineElse {body : List (Statement α)} :
    Form (.inlineElse (some body)) [keyword .elseKw, phrase (.inline body)]
  | inlineElseIf {s : Statement α} : Form (.inlineElse (some [s]))
      [next (· = some (.keyword .elseIfKw)), phrase (.chained s)]
  | forLoop {here : α} {counter : String} {first last : Expr α} {step : Option (Expr α)}
      {body : List (Statement α)} : Form (.statement (.forLoop here counter first last step body))
      [keyword .forKw, name counter, symbol .equals, value first, keyword .toKw, value last,
        phrase (.maybe (.keyword .stepKw) (step.map .value)), phrase (.block (.block .forLoop) body),
        phrase (.close .forLoop)]
  | forEach {here : α} {item : String} {target : Expr α} {body : List (Statement α)} :
    Form (.statement (.forEach here item target body))
      [keyword .forKw, keyword .eachKw, name item, keyword .inKw, value target,
        phrase (.block (.block .forLoop) body), phrase (.close .forLoop)]
  | whileLoop {here : α} {condition : Expr α} {body : List (Statement α)} :
    Form (.statement (.whileLoop here condition body))
      [keyword .whileKw, value condition, phrase (.block (.block .whileLoop) body),
        phrase (.close .whileLoop)]
  | callStatement {here there : α} {callee : Expr α} {args : List (Expr α)} :
    Form (.statement (.call here (.call there callee args)))
      [next (· = some .identifier), phrase (.expression (.call there callee args)),
        ahead Unattached,
        next fun k => k.bind AssignOp.ofKind? = none ∧ k ≠ some (.symbol .plusPlus) ∧
          k ≠ some (.symbol .minusMinus)]
  | assign {here there : α} {n : String} {op : AssignOp} {e : Expr α} {k : TokenKind} :
    AssignOp.ofKind? k = some op → Form (.statement (.assign here n op e))
      [phrase (.expression (.identifier there n)), kind k, value e]
  | assignMember {here there : α} {object : Expr α} {n : String} {op : AssignOp} {e : Expr α}
      {k : TokenKind} : AssignOp.ofKind? k = some op →
    Form (.statement (.assignMember here object n op e))
      [next (· = some .identifier), phrase (.expression (.member there object n)), kind k, value e]
  | assignIndex {here there : α} {object index : Expr α} {op : AssignOp} {e : Expr α}
      {k : TokenKind} : AssignOp.ofKind? k = some op →
    Form (.statement (.assignIndex here object index op e))
      [next (· = some .identifier), phrase (.expression (.index there object index)), kind k,
        value e]
  | increment {here : α} {target : Expr α} : target.isOperand = true →
    Form (.statement (.increment here target false))
      [next (· = some .identifier), phrase (.expression target), symbol .plusPlus]
  | decrement {here : α} {target : Expr α} : target.isOperand = true →
    Form (.statement (.increment here target true))
      [next (· = some .identifier), phrase (.expression target), symbol .minusMinus]
  | print {here : α} {items : List (PrintItem α)} {lead : Option PrintSeparator} {k : TokenKind} :
    k ∈ [TokenKind.keyword .printKw, .symbol .question] →
    Form (.statement (.print here items))
      [kind k, phrase (.separators lead), phrase (.printed items)]
  | noSeparator : Form (.separators none)
      [next fun k => k.bind PrintSeparator.ofKind? = none]
  | lastSeparator {last : PrintSeparator} {k : TokenKind} : PrintSeparator.ofKind? k = some last →
    Form (.separators (some last)) [kind k, phrase (.separators none)]
  | separator {last other : PrintSeparator} {k : TokenKind} :
    PrintSeparator.ofKind? k = some other →
    Form (.separators (some last)) [kind k, phrase (.separators (some last))]
  | printedNil : Form (.printed [])
      [ahead fun ts => (Cursor.ofTokens ts).atStatementEnd = true]
  | printedCons {e : Expr α} {separator : Option PrintSeparator} {items : List (PrintItem α)} :
    Form (.printed (.mk e separator :: items))
      [ahead fun ts => (Cursor.ofTokens ts).atStatementEnd = false, value e,
        phrase (.separators separator), phrase (.printed items)]
  | giveNothing {here : α} : Form (.statement (.giveBack here none))
      [keyword .returnKw, ahead fun ts => (Cursor.ofTokens ts).atStatementEnd = true]
  | giveBack {here : α} {e : Expr α} : Form (.statement (.giveBack here (some e)))
      [keyword .returnKw, ahead fun ts => (Cursor.ofTokens ts).atStatementEnd = false, value e]
  | dim {here : α} {n : String} {size : Expr α} {sizes : List (Expr α)} :
    Form (.statement (.dim here n (size :: sizes)))
      [keyword .dimKw, name n, symbol .leftBracket, value size, phrase (.more (sizes.map .value)),
        symbol .rightBracket]
  | goto {here : α} {label : String} :
    Form (.statement (.goto here label)) [keyword .gotoKw, name label]
  | label {here : α} {n : String} : Form (.statement (.label here n))
      [name n, symbol .colon, next fun k => k = none ∨ k = some .newline]
  | exitWhile {here : α} : Form (.statement (.exit here .conditional)) [keyword .exitWhileKw]
  | exitConditional {here : α} :
    Form (.statement (.exit here .conditional)) [keyword .exitKw, keyword .whileKw]
  | exitCounted {here : α} :
    Form (.statement (.exit here .counted)) [keyword .exitKw, keyword .forKw]
  | endProgram {here : α} : Form (.statement (.endProgram here))
      [keyword .endKw, next fun k => k ∉ [some (TokenKind.keyword .ifKw), some (.keyword .forKw),
        some (.keyword .whileKw), some (.keyword .subKw), some (.keyword .functionKw)]]
  | stop {here : α} : Form (.statement (.stop here)) [keyword .stopKw]
  | library {here : α} {path : String} : Form (.statement (.library here path))
      [keyword .libraryKw, token .string fun text => unquoteText text = path]
  | compileIf {here : α} {condition : String} {thenBody : List (Statement α)}
      {elseIfs : List (CompileElseIf α)} {elseBody : Option (List (Statement α))} :
    Form (.statement (.compileIf here condition thenBody elseIfs elseBody))
      [line fun d => d.kind = some .ifDir ∧ String.ofList d.args = condition,
        phrase (.block .directive thenBody), phrase (.compileElseIfs elseIfs),
        phrase (.compileElse elseBody), line fun d => d.kind = some .endIfDir]
  | compileElseIfsNil : Form (.compileElseIfs [])
      [ahead fun ts => Directive.next? (.ofTokens ts) ≠ some .elseIfDir]
  | compileElseIfsCons {condition : String} {body : List (Statement α)}
      {clauses : List (CompileElseIf α)} : Form (.compileElseIfs (.mk condition body :: clauses))
      [line fun d => d.kind = some .elseIfDir ∧ String.ofList d.args = condition,
        phrase (.block .directive body), phrase (.compileElseIfs clauses)]
  | compileElseNone : Form (.compileElse none)
      [ahead fun ts => Directive.next? (.ofTokens ts) ≠ some .elseDir]
  | compileElse {body : List (Statement α)} : Form (.compileElse (some body))
      [line fun d => d.kind = some .elseDir, phrase (.block .directive body)]
  | directive {here : α} {n args : String} : Form (.statement (.directive here n args))
      [line fun d => (d.kind = some .constDir ∨ d.kind = some .errorDir) ∧
        String.ofList (Directive.lower d.name) = n ∧ String.ofList d.args = args]

/-- The tokens up to a rest fit the parts, where `P` says what the phrases among them spell. -/
inductive Fits (P : Phrase α → List Token → List Token → Prop) :
    List (Part α) → List Token → List Token → Prop
  | nil {ts : List Token} : Fits P [] ts ts
  | token {k : TokenKind} {p : String → Prop} {ps : List (Part α)} {t : Token}
      {ts rest : List Token} : t.kind = k → p t.text → Fits P ps ts rest →
    Fits P (.token k p :: ps) (t :: ts) rest
  | word {n : String} {ps : List (Part α)} {t : Token} {ts rest : List Token} :
    t.isWord = true → t.text = n → Fits P ps ts rest → Fits P (.word n :: ps) (t :: ts) rest
  | line {p : Directive → Prop} {ps : List (Part α)} {t : Token} {ts rest : List Token} :
    t.kind = .directive → p (.ofLine t.text.toList) → Fits P ps ts rest →
    Fits P (.line p :: ps) (t :: ts) rest
  | skip {ks : List TokenKind} {ps : List (Part α)} {ts rest : List Token} :
    Fits P ps (ts.dropWhile (·.kind ∈ ks)) rest → Fits P (.skip ks :: ps) ts rest
  | ahead {p : List Token → Prop} {ps : List (Part α)} {ts rest : List Token} :
    p ts → Fits P ps ts rest → Fits P (.ahead p :: ps) ts rest
  | phrase {ph : Phrase α} {ps : List (Part α)} {ts mid rest : List Token} :
    P ph ts mid → Fits P ps mid rest → Fits P (.phrase ph :: ps) ts rest

/-- The tokens up to a rest spell the phrase; `N` says what is known about the notes in the tree. -/
inductive Spells (N : Phrase α → List Token → List Token → Prop) :
    Phrase α → List Token → List Token → Prop
  | mk {ph : Phrase α} {ps : List (Part α)} {ts rest : List Token} :
    Form ph ps → Fits (Spells N) ps ts rest → N ph ts rest → Spells N ph ts rest

section Fits

variable {P Q : Phrase α → List Token → List Token → Prop} {ps qs : List (Part α)}
  {ts rest : List Token}

@[simp] theorem fits_nil : Fits P [] ts rest ↔ ts = rest := by
  constructor
  · rintro ⟨⟩
    rfl
  · rintro rfl
    exact .nil

@[simp] theorem fits_token {k : TokenKind} {p : String → Prop} :
    Fits P (.token k p :: ps) ts rest ↔
      ∃ t us, ts = t :: us ∧ t.kind = k ∧ p t.text ∧ Fits P ps us rest := by
  constructor
  · rintro (_ | ⟨hk, hp, h⟩)
    exact ⟨_, _, rfl, hk, hp, h⟩
  · rintro ⟨t, us, rfl, hk, hp, h⟩
    exact .token hk hp h

@[simp] theorem fits_word {n : String} : Fits P (.word n :: ps) ts rest ↔
    ∃ t us, ts = t :: us ∧ t.isWord = true ∧ t.text = n ∧ Fits P ps us rest := by
  constructor
  · rintro (_ | _ | ⟨hw, hn, h⟩)
    exact ⟨_, _, rfl, hw, hn, h⟩
  · rintro ⟨t, us, rfl, hw, hn, h⟩
    exact .word hw hn h

@[simp] theorem fits_line {p : Directive → Prop} : Fits P (.line p :: ps) ts rest ↔
    ∃ t us, ts = t :: us ∧ t.kind = .directive ∧ p (.ofLine t.text.toList) ∧ Fits P ps us rest := by
  constructor
  · rintro (_ | _ | _ | ⟨hk, hp, h⟩)
    exact ⟨_, _, rfl, hk, hp, h⟩
  · rintro ⟨t, us, rfl, hk, hp, h⟩
    exact .line hk hp h

@[simp] theorem fits_skip {ks : List TokenKind} :
    Fits P (.skip ks :: ps) ts rest ↔ Fits P ps (ts.dropWhile (·.kind ∈ ks)) rest := by
  constructor
  · rintro (_ | _ | _ | _ | h)
    exact h
  · exact .skip

@[simp] theorem fits_ahead {p : List Token → Prop} :
    Fits P (.ahead p :: ps) ts rest ↔ p ts ∧ Fits P ps ts rest := by
  constructor
  · rintro (_ | _ | _ | _ | _ | ⟨hp, h⟩)
    exact ⟨hp, h⟩
  · rintro ⟨hp, h⟩
    exact .ahead hp h

@[simp] theorem fits_phrase {ph : Phrase α} :
    Fits P (.phrase ph :: ps) ts rest ↔ ∃ mid, P ph ts mid ∧ Fits P ps mid rest := by
  constructor
  · rintro (_ | _ | _ | _ | _ | _ | ⟨hp, h⟩)
    exact ⟨_, hp, h⟩
  · rintro ⟨mid, hp, h⟩
    exact .phrase hp h

theorem Fits.imp (h : Fits P ps ts rest) (hpq : ∀ ph us vs, P ph us vs → Q ph us vs) :
    Fits Q ps ts rest := by
  induction h with
  | nil => exact .nil
  | token hk hp _ ih => exact .token hk hp ih
  | word hw hn _ ih => exact .word hw hn ih
  | line hk hp _ ih => exact .line hk hp ih
  | skip _ ih => exact .skip ih
  | ahead hp _ ih => exact .ahead hp ih
  | phrase hp _ ih => exact .phrase (hpq _ _ _ hp) ih

end Fits

/-- What holds of every phrase whenever it holds of the phrases in one of its forms. -/
theorem Spells.induct {N Q : Phrase α → List Token → List Token → Prop}
    (h : ∀ ph ps ts rest, Form ph ps → N ph ts rest →
      Fits (fun ph us vs => Spells N ph us vs ∧ Q ph us vs) ps ts rest → Q ph ts rest)
    {ph : Phrase α} {ts rest : List Token} (hs : Spells N ph ts rest) : Q ph ts rest :=
  @Spells.rec α N (fun ph ts rest _ => Q ph ts rest)
    (fun ps ts rest _ => Fits (fun ph us vs => Spells N ph us vs ∧ Q ph us vs) ps ts rest)
    (fun form _ hn fits => h _ _ _ _ form hn fits)
    .nil (fun hk hp _ => .token hk hp) (fun hw hn _ => .word hw hn) (fun hk hp _ => .line hk hp)
    (fun _ => .skip) (fun hp _ => .ahead hp) (fun hs _ hq => .phrase ⟨hs, hq⟩) ph ts rest hs

theorem Spells.form {N : Phrase α → List Token → List Token → Prop} {ph : Phrase α}
    {ts rest : List Token} (h : Spells N ph ts rest) :
    ∃ ps, Form ph ps ∧ Fits (Spells N) ps ts rest := by
  cases h with
  | mk form fits _ => exact ⟨_, form, fits⟩

theorem Spells.note {N : Phrase α → List Token → List Token → Prop} {ph : Phrase α}
    {ts rest : List Token} (h : Spells N ph ts rest) : N ph ts rest := by
  cases h with
  | mk _ _ note => exact note

end BrightCoverage
