import BrightCoverage.Proofs.Grouping

/-! The canonical writing of a tree, as lexemes: one statement per line, every `if` a block with
`then`, ends of blocks in two words, the keys of associative arrays in quotes and commas between
items. `Printed` says that tokens are such lexemes, wherever they stand. A tree is `Fine` if it can
be written so that it is read as itself. -/

namespace BrightCoverage

variable {α : Type}

def AssignOp.kind : AssignOp → TokenKind
  | assign => .symbol .equals
  | add => .symbol .plusEquals
  | subtract => .symbol .minusEquals
  | multiply => .symbol .starEquals
  | divide => .symbol .slashEquals
  | intDivide => .symbol .backslashEquals
  | shiftLeft => .symbol .shiftLeftEquals
  | shiftRight => .symbol .shiftRightEquals

theorem AssignOp.ofKind?_kind (op : AssignOp) : ofKind? op.kind = some op := by
  cases op <;> rfl

def PrintSeparator.symbol : PrintSeparator → Symbol
  | semicolon => .semicolon
  | comma => .comma

def Keyword.ofWord? (name : String) : Option Keyword :=
  all.find? fun k => k.spelling.toList = name.toList.map Char.toLower

/-- How a token is written, without its place. -/
inductive Lexeme where
  | keyword (k : Keyword)
  | symbol (s : Symbol)
  | binary (op : BinaryOp)
  | unary (op : UnaryOp)
  | assign (op : AssignOp)
  | word (name : String)
  | integer (value : Nat)
  | string (value : String)
  | directive (line : String)
  | newline

namespace Lexeme

/-- A word is an identifier unless it is a keyword. -/
def kind : Lexeme → TokenKind
  | keyword k => .keyword k
  | symbol s => .symbol s
  | binary op => op.kind
  | unary op => op.kind
  | assign op => op.kind
  | word name => (Keyword.ofWord? name).elim .identifier .keyword
  | integer _ => .integer
  | string _ => .string
  | directive _ => .directive
  | newline => .newline

def text : Lexeme → String
  | keyword k => k.spelling
  | symbol s => s.spelling
  | binary op => op.spelling
  | unary op => op.spelling
  | assign op => op.spelling
  | word name => name
  | integer value => value.repr
  | string value => String.ofList (quote value.toList)
  | directive line => line
  | newline => "\n"

def face (l : Lexeme) : TokenKind × String :=
  (l.kind, l.text)

theorem kind_ne_unknown (l : Lexeme) : l.kind ≠ .unknown := by
  cases l with
  | word name => cases h : Keyword.ofWord? name <;> simp [kind, h]
  | binary op => cases op <;> simp [kind, BinaryOp.kind]
  | unary op => cases op <;> simp [kind, UnaryOp.kind]
  | assign op => cases op <;> simp [kind, AssignOp.kind]
  | keyword | symbol | integer | string | directive | newline => simp [kind]

end Lexeme

def commas : List (List Lexeme) → List Lexeme
  | [] => []
  | item :: items => item ++ items.flatMap (.symbol .comma :: ·)

def renderName? (lead : Lexeme) : Option String → List Lexeme
  | none => []
  | some name => [lead, .word name]

mutual

/-- How an expression is written. A float literal has no canonical writing. -/
def Expr.render : Expr α → List Lexeme
  | .integer _ value => [.integer value]
  | .float _ _ => []
  | .string _ value => [.string value]
  | .boolean _ value => [.keyword (if value then .trueKw else .falseKw)]
  | .invalid _ => [.keyword .invalidKw]
  | .identifier _ name => [.word name]
  | .binary _ op left right => left.render ++ .binary op :: right.render
  | .unary _ op operand => .unary op :: operand.render
  | .grouped _ inner => .symbol .leftParen :: (inner.render ++ [.symbol .rightParen])
  | .call _ callee args =>
    callee.render ++ .symbol .leftParen :: (commas (renderExprs args) ++ [.symbol .rightParen])
  | .member _ object name => object.render ++ [.symbol .dot, .word name]
  | .index _ object index =>
    object.render ++ .symbol .leftBracket :: (index.render ++ [.symbol .rightBracket])
  | .attribute _ object name => object.render ++ [.symbol .atSign, .word name]
  | .array _ items =>
    .symbol .leftBracket :: (commas (renderExprs items) ++ [.symbol .rightBracket])
  | .assoc _ entries =>
    .symbol .leftBrace :: (commas (renderEntries entries) ++ [.symbol .rightBrace])
  | .procedure _ decl => .keyword decl.keyword.word :: decl.render

def renderExprs : List (Expr α) → List (List Lexeme)
  | [] => []
  | e :: rest => e.render :: renderExprs rest

def renderExpr? (lead : List Lexeme) : Option (Expr α) → List Lexeme
  | none => []
  | some e => lead ++ e.render

def Entry.render : Entry α → List Lexeme
  | .mk key value => .string key :: .symbol .colon :: value.render

def renderEntries : List (Entry α) → List (List Lexeme)
  | [] => []
  | entry :: rest => entry.render :: renderEntries rest

def Procedure.render : Procedure α → List Lexeme
  | .mk keyword params returns body =>
    .symbol .leftParen :: (commas (renderParameters params) ++ .symbol .rightParen ::
      (renderName? (.keyword .asKw) returns ++ .newline ::
        (renderBody body ++ [.keyword .endKw, .keyword keyword.word])))

def Parameter.render : Parameter α → List Lexeme
  | .mk name default type =>
    .word name ::
      (renderExpr? [.symbol .equals] default ++ renderName? (.keyword .asKw) type)

def renderParameters : List (Parameter α) → List (List Lexeme)
  | [] => []
  | param :: rest => param.render :: renderParameters rest

def Statement.render : Statement α → List Lexeme
  | .procedure _ name decl => .keyword decl.keyword.word :: .word name :: decl.render
  | .branch _ condition thenBody elseIfs elseBody =>
    .keyword .ifKw :: (condition.render ++ .keyword .thenKw :: .newline :: (renderBody thenBody ++
      (renderElseIfs elseIfs ++ (renderBody? [.keyword .elseKw] elseBody ++
        [.keyword .endKw, .keyword .ifKw]))))
  | .forLoop _ counter first last step body =>
    .keyword .forKw :: .word counter :: .symbol .equals :: (first.render ++ .keyword .toKw ::
      (last.render ++ (renderExpr? [.keyword .stepKw] step ++ .newline :: (renderBody body ++
        [.keyword .endKw, .keyword .forKw]))))
  | .forEach _ item target body =>
    .keyword .forKw :: .keyword .eachKw :: .word item :: .keyword .inKw :: (target.render ++
      .newline :: (renderBody body ++ [.keyword .endKw, .keyword .forKw]))
  | .whileLoop _ condition body =>
    .keyword .whileKw :: (condition.render ++ .newline :: (renderBody body ++
      [.keyword .endKw, .keyword .whileKw]))
  | .call _ value => value.render
  | .assign _ name op value => .word name :: .assign op :: value.render
  | .assignMember _ object name op value =>
    object.render ++ .symbol .dot :: .word name :: .assign op :: value.render
  | .assignIndex _ object index op value =>
    object.render ++ .symbol .leftBracket :: (index.render ++ .symbol .rightBracket ::
      .assign op :: value.render)
  | .print _ items => .keyword .printKw :: renderPrintItems items
  | .giveBack _ value => .keyword .returnKw :: renderExpr? [] value
  | .increment _ target decrement =>
    target.render ++ [.symbol (if decrement then .minusMinus else .plusPlus)]
  | .dim _ name dimensions =>
    .keyword .dimKw :: .word name :: .symbol .leftBracket :: (commas (renderExprs dimensions) ++
      [.symbol .rightBracket])
  | .goto _ label => [.keyword .gotoKw, .word label]
  | .label _ name => [.word name, .symbol .colon]
  | .exit _ .counted => [.keyword .exitKw, .keyword .forKw]
  | .exit _ .conditional => [.keyword .exitKw, .keyword .whileKw]
  | .endProgram _ => [.keyword .endKw]
  | .stop _ => [.keyword .stopKw]
  | .library _ path => [.keyword .libraryKw, .string path]
  | .compileIf _ condition thenBody elseIfs elseBody =>
    .directive ("#if " ++ condition) :: .newline :: (renderBody thenBody ++
      (renderCompileElseIfs elseIfs ++ (renderBody? [.directive "#else"] elseBody ++
        [.directive "#end if"])))
  | .directive _ name args => [.directive ("#" ++ name ++ " " ++ args)]

def renderBody : List (Statement α) → List Lexeme
  | [] => []
  | s :: rest => s.render ++ .newline :: renderBody rest

def renderBody? (lead : List Lexeme) : Option (List (Statement α)) → List Lexeme
  | none => []
  | some body => lead ++ .newline :: renderBody body

def ElseIf.render : ElseIf α → List Lexeme
  | .mk _ condition body =>
    .keyword .elseKw :: .keyword .ifKw :: (condition.render ++ .keyword .thenKw :: .newline ::
      renderBody body)

def renderElseIfs : List (ElseIf α) → List Lexeme
  | [] => []
  | clause :: rest => clause.render ++ renderElseIfs rest

def CompileElseIf.render : CompileElseIf α → List Lexeme
  | .mk condition body => .directive ("#else if " ++ condition) :: .newline :: renderBody body

def renderCompileElseIfs : List (CompileElseIf α) → List Lexeme
  | [] => []
  | clause :: rest => clause.render ++ renderCompileElseIfs rest

def PrintItem.render : PrintItem α → List Lexeme
  | .mk value separator => value.render ++ separator.toList.map (Lexeme.symbol ·.symbol)

def renderPrintItems : List (PrintItem α) → List Lexeme
  | [] => []
  | item :: rest => item.render ++ renderPrintItems rest

end

theorem renderExprs_eq_map (es : List (Expr α)) : renderExprs es = es.map Expr.render := by
  induction es with
  | nil => rfl
  | cons e rest ih => simp only [renderExprs, List.map_cons, ih]

theorem renderEntries_eq_map (es : List (Entry α)) : renderEntries es = es.map Entry.render := by
  induction es with
  | nil => rfl
  | cons e rest ih => simp only [renderEntries, List.map_cons, ih]

theorem renderParameters_eq_map (ps : List (Parameter α)) :
    renderParameters ps = ps.map Parameter.render := by
  induction ps with
  | nil => rfl
  | cons p rest ih => simp only [renderParameters, List.map_cons, ih]

/-- The tokens up to a rest are the lexemes. -/
inductive Printed : List Lexeme → List Token → List Token → Prop
  | nil {ts : List Token} : Printed [] ts ts
  | cons {l : Lexeme} {ls : List Lexeme} {t : Token} {ts rest : List Token} :
    t.kind = l.kind → t.text = l.text → Printed ls ts rest → Printed (l :: ls) (t :: ts) rest

section Printed

variable {ls ms : List Lexeme} {ts rest : List Token}

@[simp] theorem printed_nil : Printed [] ts rest ↔ ts = rest := by
  constructor
  · rintro ⟨⟩
    rfl
  · rintro rfl
    exact .nil

@[simp] theorem printed_cons {l : Lexeme} : Printed (l :: ls) ts rest ↔
    ∃ t us, ts = t :: us ∧ t.kind = l.kind ∧ t.text = l.text ∧ Printed ls us rest := by
  constructor
  · rintro (_ | ⟨hk, ht, h⟩)
    exact ⟨_, _, rfl, hk, ht, h⟩
  · rintro ⟨t, us, rfl, hk, ht, h⟩
    exact .cons hk ht h

@[simp] theorem printed_append :
    Printed (ls ++ ms) ts rest ↔ ∃ mid, Printed ls ts mid ∧ Printed ms mid rest := by
  induction ls generalizing ts with
  | nil => simp
  | cons l ls ih =>
    simp only [List.cons_append, printed_cons, ih]
    constructor
    · rintro ⟨t, us, rfl, hk, ht, mid, h, h'⟩
      exact ⟨mid, ⟨t, us, rfl, hk, ht, h⟩, h'⟩
    · rintro ⟨mid, ⟨t, us, rfl, hk, ht, h⟩, h'⟩
      exact ⟨t, us, rfl, hk, ht, mid, h, h'⟩

theorem printed_of_map_eq
    (h : ts.map (fun t => (t.kind, t.text)) = ls.map fun l => (l.kind, l.text)) :
    Printed ls ts [] := by
  induction ls generalizing ts with
  | nil => simpa using h
  | cons l ls ih =>
    cases ts with
    | nil => cases h
    | cons t ts =>
      simp only [List.map_cons, List.cons.injEq, Prod.mk.injEq] at h
      exact .cons h.1.1 h.1.2 (ih h.2)

theorem Printed.kind_ne_unknown (h : Printed ls ts rest) :
    ∀ t ∈ ts, t ∈ rest ∨ t.kind ≠ .unknown := by
  induction h with
  | nil => exact fun t ht => .inl ht
  | @cons l ls t ts rest hk ht _ ih =>
    refine List.forall_mem_cons.2 ⟨.inr ?_, ih⟩
    rw [hk]
    exact l.kind_ne_unknown

end Printed

def Word (name : String) : Prop :=
  ∃ c rest, name.toList = c :: rest ∧ Token.isWordStart c = true ∧ Token.isWordPart c = true ∧
    rest.all Token.isWordPart = true

/-- A word that is no keyword. -/
def Name (name : String) : Prop :=
  Word name ∧ Keyword.ofWord? name = none

/-- A text without blanks at its ends. -/
def Trimmed (text : String) : Prop :=
  trim text.toList = text.toList

/-- An identifier, with calls, members, indices and attributes after it. -/
def Expr.Rooted : Expr α → Prop
  | .identifier .. => True
  | .call _ object _ | .member _ object _ | .index _ object _ | .attribute _ object _ =>
    object.Rooted
  | _ => False

def Parameter.Fine : Parameter α → Prop
  | .mk name _ type => Word name ∧ ∀ t ∈ type, Word t

def Procedure.Fine : Procedure α → Prop
  | .mk _ params returns _ => (∀ p ∈ params, p.Fine) ∧ ∀ t ∈ returns, Word t

/-- What an expression needs so that it can be written and read back, its parts apart. -/
def Expr.Fine (e : Expr α) : Prop :=
  e.Grouped ∧ match e with
    | .integer _ value => value ≤ maxInteger
    | .float .. => False
    | .identifier _ name => Name name
    | .member _ _ name | .attribute _ _ name => Word name
    | .procedure _ decl => decl.Fine
    | _ => True

def PrintItem.separator : PrintItem α → Option PrintSeparator
  | .mk _ separator => separator

def CompileElseIf.condition : CompileElseIf α → String
  | .mk condition _ => condition

/-- What a statement needs so that it can be written and read back, its parts apart. -/
def Statement.Fine : Statement α → Prop
  | .procedure _ name decl => Name name ∧ decl.Fine
  | .forLoop _ name .. | .forEach _ name .. | .assign _ name .. | .goto _ name | .label _ name =>
    Name name
  | .call _ value => value.Rooted ∧ ∃ here callee args, value = .call here callee args
  | .assignMember _ object name .. => object.Rooted ∧ Word name
  | .assignIndex _ object .. | .increment _ object _ => object.Rooted
  | .print _ items => ∀ item ∈ items.dropLast, item.separator ≠ none
  | .dim _ name dimensions => Name name ∧ dimensions ≠ []
  | .compileIf _ condition _ elseIfs _ =>
    Trimmed condition ∧ ∀ clause ∈ elseIfs, Trimmed clause.condition
  | .directive _ name args => (name = "const" ∨ name = "error") ∧ Trimmed args
  | _ => True

/-- A node that is fine with everything in it. -/
def Node.Fine (n : Node) : Prop :=
  ∀ m, n.Below m → match m with
    | .expression e => e.Fine
    | .statement s => s.Fine

theorem Node.Fine.expression {e : Expr Extent} (h : (Node.expression e).Fine) : e.Fine :=
  h _ .refl

theorem Node.Fine.statement {s : Statement Extent} (h : (Node.statement s).Fine) : s.Fine :=
  h _ .refl

theorem Node.Fine.of_mem {n m : Node} (h : n.Fine) (hm : m ∈ n.children) : m.Fine :=
  fun x hx => h x (.head hm hx)

theorem Node.fine_of_children {n : Node} (hself : match n with
      | .expression e => e.Fine
      | .statement s => s.Fine) (hc : ∀ m ∈ n.children, m.Fine) : n.Fine := by
  intro m hm
  rcases Relation.ReflTransGen.cases_head hm with rfl | ⟨x, hx, hxm⟩
  · exact hself
  · exact hc x hx m hxm

theorem Piece.sizeOf_le_of_mem {p : Piece} {m : Node} (h : m ∈ p.nodes) : sizeOf m ≤ sizeOf p := by
  cases p with
  | expression e | opening e | clause here e =>
    obtain rfl := List.mem_singleton.1 h
    simp
  | statements body =>
    obtain ⟨s, hs, rfl⟩ := List.mem_map.1 h
    have := List.sizeOf_lt_of_mem hs
    simp only [Node.statement.sizeOf_spec, Piece.statements.sizeOf_spec]
    omega

theorem Procedure.sizeOf_pieces_lt {decl : Procedure Extent} {p : Piece} (h : p ∈ decl.pieces) :
    sizeOf p < 1 + sizeOf decl := by
  obtain ⟨keyword, params, returns, body⟩ := decl
  rcases List.mem_append.1 h with h | h
  · obtain ⟨⟨name, default, type⟩, hparam, hp⟩ := List.mem_flatMap.1 h
    obtain ⟨e, he, rfl⟩ := List.mem_map.1 hp
    obtain rfl : default = some e := Option.mem_toList.1 he
    have := List.sizeOf_lt_of_mem hparam
    simp only [Piece.expression.sizeOf_spec, Procedure.mk.sizeOf_spec, Parameter.mk.sizeOf_spec,
      Option.some.sizeOf_spec, Procedure.params] at this ⊢
    omega
  · obtain rfl := List.mem_singleton.1 h
    simp only [Piece.statements.sizeOf_spec, Procedure.mk.sizeOf_spec, Procedure.body]
    omega

theorem ElseIf.sizeOf_pieces_le {clause : ElseIf Extent} {p : Piece} (h : p ∈ clause.pieces) :
    sizeOf p ≤ sizeOf clause := by
  obtain ⟨keyword, condition, body⟩ := clause
  rcases List.mem_cons.1 h with rfl | h
  · simp [ElseIf.keyword, ElseIf.condition]
  · obtain rfl := List.mem_singleton.1 h
    simp [ElseIf.body]
    omega

theorem Node.sizeOf_pieces_lt {n : Node} {p : Piece} (h : p ∈ n.pieces) : sizeOf p < sizeOf n := by
  cases n with
  | expression e =>
    cases e
    case procedure decl =>
      have := Procedure.sizeOf_pieces_lt h
      simp only [Node.expression.sizeOf_spec, Expr.procedure.sizeOf_spec]
      omega
    case call =>
      rcases List.mem_cons.1 h with rfl | h
      · simp only [Piece.expression.sizeOf_spec, Node.expression.sizeOf_spec, Expr.call.sizeOf_spec]
        omega
      · obtain ⟨a, ha, rfl⟩ := List.mem_map.1 h
        have := List.sizeOf_lt_of_mem ha
        simp only [Piece.expression.sizeOf_spec, Node.expression.sizeOf_spec, Expr.call.sizeOf_spec]
        omega
    case array =>
      obtain ⟨a, ha, rfl⟩ := List.mem_map.1 h
      have := List.sizeOf_lt_of_mem ha
      simp only [Piece.expression.sizeOf_spec, Node.expression.sizeOf_spec, Expr.array.sizeOf_spec]
      omega
    case assoc =>
      obtain ⟨⟨key, value⟩, he, rfl⟩ := List.mem_map.1 h
      have := List.sizeOf_lt_of_mem he
      simp only [Entry.value, Piece.expression.sizeOf_spec, Node.expression.sizeOf_spec,
        Expr.assoc.sizeOf_spec, Entry.mk.sizeOf_spec] at this ⊢
      omega
    all_goals
      simp only [pieces, List.mem_cons, List.not_mem_nil, or_false] at h
    all_goals rcases h with rfl | rfl <;> simp <;> omega
  | statement s =>
    cases s
    case procedure decl =>
      have := Procedure.sizeOf_pieces_lt h
      simp only [Node.statement.sizeOf_spec, Statement.procedure.sizeOf_spec]
      omega
    case branch condition thenBody elseIfs elseBody =>
      simp only [pieces, List.mem_cons, List.mem_append, List.mem_flatMap, List.mem_map,
        Option.mem_toList] at h
      rcases h with rfl | rfl | ⟨clause, hc, hp⟩ | ⟨body, rfl, rfl⟩
      · simp; omega
      · simp; omega
      · have := List.sizeOf_lt_of_mem hc
        have := ElseIf.sizeOf_pieces_le hp
        simp only [Node.statement.sizeOf_spec, Statement.branch.sizeOf_spec]
        omega
      · simp; omega
    case compileIf =>
      simp only [pieces, List.mem_cons, List.mem_append, List.mem_map, Option.mem_toList] at h
      rcases h with rfl | ⟨⟨condition, body⟩, hc, rfl⟩ | ⟨body, rfl, rfl⟩
      · simp; omega
      · have := List.sizeOf_lt_of_mem hc
        simp only [CompileElseIf.body, Piece.statements.sizeOf_spec, Node.statement.sizeOf_spec,
          Statement.compileIf.sizeOf_spec, CompileElseIf.mk.sizeOf_spec] at this ⊢
        omega
      · simp; omega
    case print =>
      obtain ⟨⟨value, separator⟩, hi, rfl⟩ := List.mem_map.1 h
      have := List.sizeOf_lt_of_mem hi
      simp only [PrintItem.value, Piece.expression.sizeOf_spec, Node.statement.sizeOf_spec,
        Statement.print.sizeOf_spec, PrintItem.mk.sizeOf_spec] at this ⊢
      omega
    case dim =>
      obtain ⟨a, ha, rfl⟩ := List.mem_map.1 h
      have := List.sizeOf_lt_of_mem ha
      simp only [Piece.expression.sizeOf_spec, Node.statement.sizeOf_spec, Statement.dim.sizeOf_spec]
      omega
    case forLoop =>
      simp only [pieces, List.mem_cons, List.mem_append, List.mem_map, Option.mem_toList,
        List.not_mem_nil, or_false] at h
      rcases h with rfl | rfl | ⟨e, rfl, rfl⟩ | rfl <;> simp <;> omega
    case giveBack =>
      obtain ⟨e, he, rfl⟩ := List.mem_map.1 h
      obtain rfl := Option.mem_toList.1 he
      simp; omega
    all_goals
      simp only [pieces, List.mem_cons, List.not_mem_nil, or_false] at h
    all_goals rcases h with rfl | rfl | rfl <;> simp <;> omega

theorem Node.induct {P : Node → Prop} (h : ∀ n, (∀ m ∈ n.children, P m) → P n) (n : Node) : P n :=
  h n fun m hm =>
    have : sizeOf m < sizeOf n := by
      obtain ⟨p, hp, hm⟩ := List.mem_flatMap.1 hm
      exact (Piece.sizeOf_le_of_mem hm).trans_lt (Node.sizeOf_pieces_lt hp)
    Node.induct h m
termination_by sizeOf n

end BrightCoverage
