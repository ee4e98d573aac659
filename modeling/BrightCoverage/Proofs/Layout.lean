import Mathlib.Logic.Relation
import Mathlib.Order.Nat
import BrightCoverage.Proofs.Reading

/-! Where a tree stands among the tokens. A node is cut into pieces in the order of the text, and
`Laid` says that it covers a range of tokens with its pieces in order inside that range. A list of
statements has nothing but separators between its statements, the condition of an `if` follows its
keyword directly, and no node ends with a line break. -/

namespace BrightCoverage

def Entry.value {α : Type} : Entry α → Expr α
  | .mk _ value => value

def Parameter.default {α : Type} : Parameter α → Option (Expr α)
  | .mk _ default _ => default

def Procedure.params {α : Type} : Procedure α → List (Parameter α)
  | .mk _ params _ _ => params

def ElseIf.condition {α : Type} : ElseIf α → Expr α
  | .mk _ condition _ => condition

def ElseIf.body {α : Type} : ElseIf α → List (Statement α)
  | .mk _ _ body => body

def CompileElseIf.body {α : Type} : CompileElseIf α → List (Statement α)
  | .mk _ body => body

def PrintItem.value {α : Type} : PrintItem α → Expr α
  | .mk value _ => value

/-- What a tree is made of. -/
inductive Node where
  | expression (e : Expr Extent)
  | statement (s : Statement Extent)

/-- The parts of a node. The condition of an `if` is set apart because it follows the keyword
directly, and so does the condition of an `else if` clause. -/
inductive Piece where
  | expression (e : Expr Extent)
  | opening (condition : Expr Extent)
  | clause (keyword : Extent) (condition : Expr Extent)
  | statements (body : List (Statement Extent))

namespace Piece

def nodes : Piece → List Node
  | expression e | opening e | clause _ e => [.expression e]
  | statements body => body.map .statement

def body? : Piece → Option (List (Statement Extent))
  | statements body => some body
  | _ => none

end Piece

def Procedure.pieces (decl : Procedure Extent) : List Piece :=
  decl.params.flatMap (fun param => param.default.toList.map .expression)
    ++ [.statements decl.body]

theorem Procedure.opening_notMem_pieces (decl : Procedure Extent) (e : Expr Extent) :
    .opening e ∉ decl.pieces := by
  simp [pieces]

def ElseIf.pieces (clause : ElseIf Extent) : List Piece :=
  [.clause clause.keyword clause.condition, .statements clause.body]

namespace Node

def here : Node → Extent
  | expression e => e.here
  | statement s => s.here

def pieces : Node → List Piece
  | expression (.binary _ _ left right) => [.expression left, .expression right]
  | expression (.unary _ _ operand) => [.expression operand]
  | expression (.grouped _ inner) => [.expression inner]
  | expression (.call _ callee args) => .expression callee :: args.map .expression
  | expression (.member _ object _) => [.expression object]
  | expression (.index _ object index) => [.expression object, .expression index]
  | expression (.attribute _ object _) => [.expression object]
  | expression (.array _ items) => items.map .expression
  | expression (.assoc _ entries) => entries.map fun entry => .expression entry.value
  | expression (.procedure _ decl) => decl.pieces
  | expression (.integer ..) | expression (.float ..) | expression (.string ..)
  | expression (.boolean ..) | expression (.invalid ..) | expression (.identifier ..) => []
  | statement (.procedure _ _ decl) => decl.pieces
  | statement (.branch _ condition thenBody elseIfs elseBody) =>
    .opening condition :: .statements thenBody
      :: (elseIfs.flatMap ElseIf.pieces ++ elseBody.toList.map .statements)
  | statement (.forLoop _ _ first last step body) =>
    .expression first :: .expression last :: (step.toList.map .expression ++ [.statements body])
  | statement (.forEach _ _ target body) => [.expression target, .statements body]
  | statement (.whileLoop _ condition body) => [.expression condition, .statements body]
  | statement (.call _ value) => [.expression value]
  | statement (.assign _ _ _ value) => [.expression value]
  | statement (.assignMember _ object _ _ value) => [.expression object, .expression value]
  | statement (.assignIndex _ object index _ value) =>
    [.expression object, .expression index, .expression value]
  | statement (.print _ items) => items.map fun item => .expression item.value
  | statement (.giveBack _ value) => value.toList.map .expression
  | statement (.increment _ target _) => [.expression target]
  | statement (.dim _ _ dimensions) => dimensions.map .expression
  | statement (.compileIf _ _ thenBody elseIfs elseBody) =>
    .statements thenBody
      :: (elseIfs.map (fun clause => .statements clause.body) ++ elseBody.toList.map .statements)
  | statement (.goto ..) | statement (.label ..) | statement (.exit ..)
  | statement (.endProgram ..) | statement (.stop ..) | statement (.library ..)
  | statement (.directive ..) => []

def children (n : Node) : List Node :=
  n.pieces.flatMap Piece.nodes

def bodies (n : Node) : List (List (Statement Extent)) :=
  n.pieces.filterMap Piece.body?

/-- A node and everything inside it, at any depth. -/
def Below : Node → Node → Prop :=
  Relation.ReflTransGen fun n m => m ∈ n.children

/-- An identifier is written as its token, and a statement that can own a line starts with the
token that such a statement starts with. -/
def Spelled (ts : List Token) (i : Nat) : Node → Prop
  | expression (.identifier _ name) => ts[i]?.map Token.text = some name
  | statement (.branch ..) =>
    kindAt ts i = some (.keyword .ifKw) ∨ kindAt ts i = some (.keyword .elseIfKw)
  | statement (.forLoop ..) | statement (.forEach ..) => kindAt ts i = some (.keyword .forKw)
  | statement (.whileLoop ..) => kindAt ts i = some (.keyword .whileKw)
  | statement (.print ..) =>
    kindAt ts i = some (.keyword .printKw) ∨ kindAt ts i = some (.symbol .question)
  | statement (.giveBack ..) => kindAt ts i = some (.keyword .returnKw)
  | statement (.call ..) | statement (.assign ..) | statement (.assignMember ..)
  | statement (.assignIndex ..) => kindAt ts i = some .identifier
  | _ => True

end Node

variable (ts : List Token)

/-- The statements of an `if` on one line end at the index. -/
def LineEnds (i : Nat) : Prop :=
  kindAt ts i ∈ [none, some .newline, some (.keyword .elseKw), some (.keyword .elseIfKw)]

/-- There is a token at the index, and it is no line break; a word never is one. A colon counts if
nothing follows on the line that it could separate from what stands before. -/
def Solid (i : Nat) : Prop :=
  ∃ t, ts[i]? = some t ∧ (t.isWord = true ∨
    (t.kind ≠ .newline ∧ (t.kind = .symbol .colon → LineEnds ts (i + 1))))

/-- Nothing but line breaks and colons stands between two indices. -/
structure Gap (i j : Nat) : Prop where
  le : i ≤ j
  separators : ∀ x, i ≤ x → x < j →
    kindAt ts x = some .newline ∨ kindAt ts x = some (.symbol .colon)

/-- Statements one after another over a range of tokens, with gaps around them. -/
inductive Lines (P : Node → Nat → Nat → Prop) : List (Statement Extent) → Nat → Nat → Prop
  | nil {i j : Nat} : Gap ts i j → Lines P [] i j
  | cons {s : Statement Extent} {rest : List (Statement Extent)} {i a b j : Nat} :
    Gap ts i a → P (.statement s) a b → Lines P rest b j → Lines P (s :: rest) i j

/-- Pieces one after another over a range of tokens. -/
inductive Row (P : Node → Nat → Nat → Prop) : List Piece → Nat → Nat → Prop
  | nil {i j : Nat} : i ≤ j → Row P [] i j
  | expression {e : Expr Extent} {rest : List Piece} {i a b j : Nat} :
    i ≤ a → P (.expression e) a b → Row P rest b j → Row P (.expression e :: rest) i j
  | opening {e : Expr Extent} {rest : List Piece} {i b j : Nat} :
    Solid ts i → P (.expression e) (i + 1) b → Row P rest b j → Row P (.opening e :: rest) i j
  | clause {here : Extent} {e : Expr Extent} {rest : List Piece} {i a b c j : Nat} :
    i ≤ a → a < b → (∀ x, a ≤ x → x < b → Solid ts x) → here = extentBetween ts a b →
    P (.expression e) b c → Row P rest c j → Row P (.clause here e :: rest) i j
  | statements {body : List (Statement Extent)} {rest : List Piece} {i a b j : Nat} :
    i ≤ a → Lines ts P body a b → Row P rest b j → Row P (.statements body :: rest) i j

/-- The node covers the tokens from one index up to another, and so do all nodes inside it. -/
inductive Laid : Node → Nat → Nat → Prop
  | mk {n : Node} {i j : Nat} : i < j → Solid ts (j - 1) → n.here = extentBetween ts i j →
    n.Spelled ts i → Row ts Laid n.pieces i j → Laid n i j

variable {ts}

theorem solid_of_kind {i : Nat} {k : TokenKind} (h : kindAt ts i = some k)
    (hk : k ≠ .newline ∧ k ≠ .symbol .colon) : Solid ts i := by
  obtain ⟨t, ht, rfl⟩ : ∃ t, ts[i]? = some t ∧ t.kind = k := by simpa [kindAt] using h
  exact ⟨t, ht, .inr ⟨hk.1, fun hc => absurd hc hk.2⟩⟩

theorem solid_of_colon {i : Nat} (h : kindAt ts i = some (.symbol .colon))
    (hend : LineEnds ts (i + 1)) : Solid ts i := by
  obtain ⟨t, ht, hk⟩ : ∃ t, ts[i]? = some t ∧ t.kind = .symbol .colon := by simpa [kindAt] using h
  exact ⟨t, ht, .inr ⟨by simp [hk], fun _ => hend⟩⟩

theorem Solid.lt {i : Nat} (h : Solid ts i) : i < ts.length := by
  obtain ⟨t, ht, -⟩ := h
  exact (List.getElem?_eq_some_iff.1 ht).1

theorem Gap.refl (i : Nat) : Gap ts i i :=
  ⟨Nat.le_refl i, fun x hx hx' => absurd hx (by omega)⟩

namespace Laid

variable {n : Node} {i j : Nat}

theorem lt (h : Laid ts n i j) : i < j := by
  cases h; assumption

theorem solid (h : Laid ts n i j) : Solid ts (j - 1) := by
  cases h; assumption

theorem here_eq (h : Laid ts n i j) : n.here = extentBetween ts i j := by
  cases h; assumption

theorem row (h : Laid ts n i j) : Row ts (Laid ts) n.pieces i j := by
  cases h; assumption

theorem spelled (h : Laid ts n i j) : n.Spelled ts i := by
  cases h; assumption

theorem le_length (h : Laid ts n i j) : j ≤ ts.length := by
  have := h.solid.lt
  omega

end Laid

theorem Lines.le {body : List (Statement Extent)} {i j : Nat} (h : Lines ts (Laid ts) body i j) :
    i ≤ j := by
  induction h with
  | nil gap => exact gap.le
  | cons gap laid _ ih => exact (gap.le.trans laid.lt.le).trans ih

namespace Row

variable {ps qs : List Piece} {i j k : Nat}

theorem le (h : Row ts (Laid ts) ps i j) : i ≤ j := by
  induction h with
  | nil h => exact h
  | expression h laid _ ih => exact (h.trans laid.lt.le).trans ih
  | opening _ laid _ ih => exact ((Nat.le_succ _).trans laid.lt.le).trans ih
  | clause h h' _ _ laid _ ih => exact ((h.trans h'.le).trans laid.lt.le).trans ih
  | statements h lines _ ih => exact (h.trans lines.le).trans ih

theorem widen_right (h : Row ts (Laid ts) ps i k) (hk : k ≤ j) : Row ts (Laid ts) ps i j := by
  induction h with
  | nil h => exact .nil (h.trans hk)
  | expression h laid _ ih => exact .expression h laid (ih hk)
  | opening h laid _ ih => exact .opening h laid (ih hk)
  | clause h h' hs he laid _ ih => exact .clause h h' hs he laid (ih hk)
  | statements h lines _ ih => exact .statements h lines (ih hk)

/-- Only the condition of an `if` is bound to the start of its row. -/
theorem widen_left (h : Row ts (Laid ts) ps i j) (hp : ∀ e, .opening e ∉ ps) (hk : k ≤ i) :
    Row ts (Laid ts) ps k j := by
  cases h with
  | nil h => exact .nil (hk.trans h)
  | expression h laid rest => exact .expression (hk.trans h) laid rest
  | opening h laid rest => exact absurd (List.mem_cons_self ..) (hp _)
  | clause h h' hs he laid rest => exact .clause (hk.trans h) h' hs he laid rest
  | statements h lines rest => exact .statements (hk.trans h) lines rest

theorem append (h : Row ts (Laid ts) ps i k) (h' : Row ts (Laid ts) qs k j)
    (hq : ∀ e, .opening e ∉ qs) : Row ts (Laid ts) (ps ++ qs) i j := by
  induction h with
  | nil h => exact h'.widen_left hq h
  | expression h laid _ ih => exact .expression h laid (ih h')
  | opening h laid _ ih => exact .opening h laid (ih h')
  | clause h lt hs he laid _ ih => exact .clause h lt hs he laid (ih h')
  | statements h lines _ ih => exact .statements h lines (ih h')

end Row

section Members

variable {i j : Nat}

theorem Lines.laid_of_mem {body : List (Statement Extent)} (h : Lines ts (Laid ts) body i j)
    {s : Statement Extent} (hs : s ∈ body) :
    ∃ a b, i ≤ a ∧ b ≤ j ∧ Laid ts (.statement s) a b := by
  induction h with
  | nil => cases hs
  | cons gap laid rest ih =>
    have hle := rest.le
    have hlt := laid.lt
    have hgap := gap.le
    rcases List.mem_cons.1 hs with rfl | hs
    · exact ⟨_, _, hgap, hle, laid⟩
    · obtain ⟨a, b, ha, hb, laid'⟩ := ih hs
      exact ⟨a, b, by omega, hb, laid'⟩

theorem Row.laid_of_mem {ps : List Piece} (h : Row ts (Laid ts) ps i j) {n : Node}
    (hn : n ∈ ps.flatMap Piece.nodes) : ∃ a b, i ≤ a ∧ b ≤ j ∧ Laid ts n a b := by
  induction h with
  | nil => cases hn
  | expression h laid rest ih =>
    have hle := rest.le
    have hlt := laid.lt
    rcases List.mem_append.1 hn with hn | hn
    · obtain rfl := List.mem_singleton.1 hn
      exact ⟨_, _, h, hle, laid⟩
    · obtain ⟨a, b, ha, hb, laid'⟩ := ih hn
      exact ⟨a, b, by omega, hb, laid'⟩
  | opening h laid rest ih =>
    have hle := rest.le
    have hlt := laid.lt
    rcases List.mem_append.1 hn with hn | hn
    · obtain rfl := List.mem_singleton.1 hn
      exact ⟨_, _, Nat.le_succ _, hle, laid⟩
    · obtain ⟨a, b, ha, hb, laid'⟩ := ih hn
      exact ⟨a, b, by omega, hb, laid'⟩
  | clause h lt _ _ laid rest ih =>
    have hle := rest.le
    have hlt := laid.lt
    rcases List.mem_append.1 hn with hn | hn
    · obtain rfl := List.mem_singleton.1 hn
      exact ⟨_, _, by omega, hle, laid⟩
    · obtain ⟨a, b, ha, hb, laid'⟩ := ih hn
      exact ⟨a, b, by omega, hb, laid'⟩
  | statements h lines rest ih =>
    have hle := rest.le
    have hlt := lines.le
    rcases List.mem_append.1 hn with hn | hn
    · obtain ⟨s, hs, rfl⟩ := List.mem_map.1 hn
      obtain ⟨a, b, ha, hb, laid⟩ := lines.laid_of_mem hs
      exact ⟨a, b, by omega, by omega, laid⟩
    · obtain ⟨a, b, ha, hb, laid'⟩ := ih hn
      exact ⟨a, b, by omega, hb, laid'⟩

theorem Laid.of_below {n m : Node} (h : Laid ts n i j) (hm : n.Below m) :
    ∃ a b, i ≤ a ∧ b ≤ j ∧ Laid ts m a b := by
  induction hm with
  | refl => exact ⟨i, j, Nat.le_refl i, Nat.le_refl j, h⟩
  | tail _ hc ih =>
    obtain ⟨a, b, ha, hb, laid⟩ := ih
    obtain ⟨a', b', ha', hb', laid'⟩ := laid.row.laid_of_mem hc
    exact ⟨a', b', ha.trans ha', hb'.trans hb, laid'⟩

end Members

end BrightCoverage
