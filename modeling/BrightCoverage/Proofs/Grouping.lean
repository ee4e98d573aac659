import BrightCoverage.Proofs.LegibleStatements

/-! How expressions are grouped. Every node of a tree that was read is spelled by some tokens, so its
operators stand as `Grouped` allows. The tokens of an expression are the operands and operators of
its tree in order, and there is no second tree that is grouped in this way and has them in this
order: it would be spelled by the same tokens, and from them it would be read back. -/

namespace BrightCoverage

open BrightCoverage.Parser

section Nodes

def Phrase.itemNodes : Phrase Extent → List Node
  | .value e | .argument e => [.expression e]
  | .entry item => [.expression item.value]
  | .parameter param => param.default.toList.map .expression
  | .block _ body => body.map .statement
  | _ => []

def Phrase.nodes : Phrase Extent → List Node
  | .expression e => [.expression e]
  | .statement s | .chained s => [.statement s]
  | .list _ phrases | .more phrases | .items _ phrases => phrases.flatMap itemNodes
  | .maybe _ phrase => phrase.toList.flatMap itemNodes
  | .procedure decl => decl.pieces.flatMap Piece.nodes
  | .inline body | .inlineMore body => body.map .statement
  | .inlineElse body | .compileElse body => body.toList.flatMap (·.map .statement)
  | .elseIfs clauses => clauses.flatMap fun clause => clause.pieces.flatMap Piece.nodes
  | .printed values => values.map fun item => .expression item.value
  | .compileElseIfs clauses => clauses.flatMap fun clause => clause.body.map .statement
  | .accepted _ | .close _ | .separators _ => []
  | ph => ph.itemNodes

def Phrase.inside : Phrase Extent → List Node
  | .expression e => (Node.expression e).children
  | .statement s | .chained s => (Node.statement s).children
  | ph => ph.nodes

theorem Phrase.itemNodes_subset (ph : Phrase Extent) : ph.itemNodes ⊆ ph.nodes := by
  cases ph <;> simp [itemNodes, nodes]

def Part.nodes : Part Extent → List Node
  | .phrase ph => ph.nodes
  | _ => []

theorem Form.inside_subset {ph : Phrase Extent} {ps : List (Part Extent)} (h : Form ph ps)
    {n : Node} (hn : n ∈ ph.inside) : n ∈ ps.flatMap Part.nodes ∨
      ∃ e, .phrase (.expression e) ∈ ps ∧ n ∈ (Node.expression e).children := by
  cases h
  case integer | hexInteger | float | string | isTrue | isFalse | invalid | identifier | word
      | listNil | moreNil | itemsNil | maybeNone | accepted | omitted | blockNil | closer
      | nextWord | pair | elseIfsNil | inlineNil | inlineEnd | noElse | noSeparator
      | lastSeparator | separator | printedNil | giveNothing | goto | label | exitWhile
      | exitConditional | exitCounted | endProgram | stop | library | compileElseIfsNil
      | compileElseNone | directive =>
    exact absurd hn List.not_mem_nil
  case listCons | moreCons | itemsComma | itemsNewline | itemsLast | maybeSome =>
    left
    rcases List.mem_append.1 hn with hn | hn
    · simp [Part.nodes, Phrase.itemNodes_subset _ hn]
    · simp_all [Part.nodes, Phrase.nodes]
  case parameter default type =>
    left
    cases default <;> cases type <;>
      simp_all [Phrase.inside, Part.nodes, Phrase.nodes, Phrase.itemNodes, Parameter.default]
  case assign =>
    left
    obtain rfl := List.mem_singleton.1 hn
    simp [Part.nodes, Phrase.nodes, Phrase.itemNodes]
  case assignMember =>
    rcases List.mem_cons.1 hn with rfl | hn
    · exact .inr ⟨_, List.mem_cons_of_mem _ (List.mem_cons_self ..), List.mem_cons_self ..⟩
    · left
      obtain rfl := List.mem_singleton.1 hn
      simp [Part.nodes, Phrase.nodes, Phrase.itemNodes]
  case assignIndex =>
    rcases List.mem_cons.1 hn with rfl | hn
    · exact .inr ⟨_, List.mem_cons_of_mem _ (List.mem_cons_self ..), List.mem_cons_self ..⟩
    · rcases List.mem_cons.1 hn with rfl | hn
      · exact .inr ⟨_, List.mem_cons_of_mem _ (List.mem_cons_self ..),
          List.mem_cons_of_mem _ (List.mem_cons_self ..)⟩
      · left
        obtain rfl := List.mem_singleton.1 hn
        simp [Part.nodes, Phrase.nodes, Phrase.itemNodes]
  case procedure returns _ =>
    left
    cases returns <;>
      simpa [Phrase.inside, Part.nodes, Phrase.nodes, Phrase.itemNodes, Procedure.pieces,
        Piece.nodes, Procedure.params, Procedure.body, List.flatMap_assoc, List.flatMap_map,
        eq_comm] using hn
  case blockBranch elseBody =>
    left
    cases elseBody <;>
      simpa [Phrase.inside, Part.nodes, Phrase.nodes, Phrase.itemNodes, Piece.nodes,
        Node.children, Node.pieces, List.flatMap_assoc] using hn
  case print =>
    left
    simpa [Phrase.inside, Part.nodes, Phrase.nodes, Node.children, Node.pieces, Piece.nodes,
      List.flatMap_map, eq_comm] using hn
  case printedCons =>
    left
    simpa [Phrase.inside, Part.nodes, Phrase.nodes, Phrase.itemNodes, PrintItem.value] using hn
  case compileElseIfsCons =>
    left
    simpa [Phrase.inside, Part.nodes, Phrase.nodes, Phrase.itemNodes, CompileElseIf.body] using hn
  all_goals
    left
    simpa [Phrase.inside, Part.nodes, Phrase.nodes, Node.children, Node.pieces, Piece.nodes,
      Phrase.itemNodes, ElseIf.pieces, ElseIf.condition, ElseIf.body, Entry.value] using hn

/-- Some tokens spell the node. -/
def Node.Read (N : Phrase Extent → List Token → List Token → Prop) : Node → Prop
  | .expression e => ∃ ts rest, Spells N (.expression e) ts rest
  | .statement s => ∃ ts rest, Spells N (.statement s) ts rest ∨ Spells N (.chained s) ts rest

theorem Fits.exists_phrase {α : Type} {P : Phrase α → List Token → List Token → Prop}
    {ps : List (Part α)} {ts rest : List Token} (h : Fits P ps ts rest) {ph : Phrase α}
    (hph : .phrase ph ∈ ps) : ∃ us vs, P ph us vs := by
  induction h with
  | nil => cases hph
  | token _ _ _ ih | word _ _ _ ih | line _ _ _ ih | skip _ ih | ahead _ _ ih =>
    rcases List.mem_cons.1 hph with h | h
    · cases h
    · exact ih h
  | phrase hp _ ih =>
    rcases List.mem_cons.1 hph with h | h
    · cases h
      exact ⟨_, _, hp⟩
    · exact ih h

variable {N : Phrase Extent → List Token → List Token → Prop}

theorem Spells.read_nodes {ph : Phrase Extent} {ts rest : List Token}
    (h : Spells N ph ts rest) (hi : ∀ n ∈ ph.inside, n.Read N) : ∀ n ∈ ph.nodes, n.Read N := by
  cases ph
  case expression => exact List.forall_mem_singleton.2 ⟨ts, rest, h⟩
  case statement => exact List.forall_mem_singleton.2 ⟨ts, rest, .inl h⟩
  case chained => exact List.forall_mem_singleton.2 ⟨ts, rest, .inr h⟩
  all_goals exact hi

theorem Spells.read_inside {ph : Phrase Extent} {ts rest : List Token}
    (h : Spells N ph ts rest) : ∀ n ∈ ph.inside, n.Read N := by
  refine Spells.induct (Q := fun ph _ _ => ∀ n ∈ ph.inside, n.Read N)
    (fun ph ps ts rest form _ fits n hn => ?_) h
  rcases form.inside_subset hn with hn | ⟨e, he, hn⟩
  · obtain ⟨p, hp, hn⟩ := List.mem_flatMap.1 hn
    cases p with
    | phrase ph =>
      obtain ⟨us, vs, hs, hi⟩ := fits.exists_phrase hp
      exact hs.read_nodes hi n hn
    | token | word | line | skip | ahead => cases hn
  · obtain ⟨us, vs, -, hi⟩ := fits.exists_phrase he
    exact hi n hn

theorem Node.Read.below {n m : Node} (h : n.Read N) (hm : n.Below m) : m.Read N := by
  induction hm with
  | refl => exact h
  | @tail n m _ hm ih =>
    cases n with
    | expression e =>
      obtain ⟨ts, rest, hs⟩ := ih
      exact hs.read_inside m hm
    | statement s =>
      obtain ⟨ts, rest, hs | hs⟩ := ih
      · exact hs.read_inside m hm
      · exact hs.read_inside m hm

theorem Spells.grouped {e : Expr Extent} {ts rest : List Token}
    (h : Spells Noted (.expression e) ts rest) : e.Grouped := by
  obtain ⟨ps, form, -⟩ := h.form
  cases form <;> first | assumption | trivial

end Nodes

/-- All expressions in an expression are grouped by precedence. -/
def Expr.WellGrouped (e : Expr Extent) : Prop :=
  ∀ x, Node.Below (.expression e) (.expression x) → x.Grouped

inductive Operator where
  | binary (op : BinaryOp)
  | unary (op : UnaryOp)
deriving DecidableEq

namespace Operator

def precedence : Operator → Precedence
  | binary op => op.precedence
  | unary op => op.precedence

/-- The operators from those that bind loosest to those that bind tightest. -/
def tiers : List (List Operator) :=
  [[binary .or], [binary .and], [unary .not],
    [binary .equal, binary .notEqual, binary .lessThan, binary .lessEqual, binary .greaterThan,
      binary .greaterEqual],
    [binary .shiftLeft, binary .shiftRight], [binary .add, binary .subtract],
    [binary .multiply, binary .divide, binary .intDivide, binary .modulo], [unary .negate],
    [binary .power]]

theorem mem_tier (op : Operator) : ∃ tier, tiers[op.precedence.rank - 1]? = some tier ∧ op ∈ tier := by
  rcases op with op | op <;> cases op <;> exact ⟨_, rfl, by decide⟩

end Operator

def BinaryOp.kind : BinaryOp → TokenKind
  | power => .symbol .caret
  | multiply => .symbol .star
  | divide => .symbol .slash
  | intDivide => .symbol .backslash
  | modulo => .keyword .modKw
  | add => .symbol .plus
  | subtract => .symbol .minus
  | shiftLeft => .symbol .shiftLeft
  | shiftRight => .symbol .shiftRight
  | equal => .symbol .equals
  | notEqual => .symbol .notEquals
  | lessThan => .symbol .lessThan
  | lessEqual => .symbol .lessEquals
  | greaterThan => .symbol .greaterThan
  | greaterEqual => .symbol .greaterEquals
  | and => .keyword .andKw
  | or => .keyword .orKw

theorem BinaryOp.ofKind?_eq_some {k : TokenKind} {op : BinaryOp} :
    ofKind? k = some op ↔ k = op.kind := by
  constructor
  · intro h
    unfold ofKind? at h
    split at h <;> cases h <;> rfl
  · rintro rfl
    cases op <;> rfl

def UnaryOp.kind : UnaryOp → TokenKind
  | negate => .symbol .minus
  | not => .keyword .notKw

theorem UnaryOp.ofKind?_eq_some {k : TokenKind} {op : UnaryOp} :
    ofKind? k = some op ↔ k = op.kind := by
  constructor
  · intro h
    unfold ofKind? at h
    split at h <;> cases h <;> rfl
  · rintro rfl
    cases op <;> rfl

/-- What an expression is made of when its operators are taken apart. The sign of a difference and
that of a negative number are the same token. -/
inductive Element where
  | operand (e : Expr Extent)
  | operator (kind : TokenKind)

/-- The operands and operators of an expression in the order of the text. -/
def Expr.inorder : Expr Extent → List Element
  | .binary _ op left right => left.inorder ++ .operator op.kind :: right.inorder
  | .unary _ op operand => .operator op.kind :: operand.inorder
  | e => [.operand e]

theorem Expr.inorder_of_isOperand {e : Expr Extent} (h : e.isOperand = true) :
    e.inorder = [.operand e] := by
  cases e <;> first | rfl | cases h

/-- The tokens up to a rest are these operands and operators. -/
inductive Written : List Element → List Token → List Token → Prop
  | nil {ts : List Token} : Written [] ts ts
  | operator {t : Token} {es : List Element} {ts rest : List Token} :
    Written es ts rest → Written (.operator t.kind :: es) (t :: ts) rest
  | operand {e : Expr Extent} {es : List Element} {ts mid rest : List Token} :
    Spells Noted (.expression e) ts mid → Written es mid rest → Written (.operand e :: es) ts rest

theorem written_append {es fs : List Element} {ts rest : List Token} :
    Written (es ++ fs) ts rest ↔ ∃ mid, Written es ts mid ∧ Written fs mid rest := by
  constructor
  · intro h
    induction es generalizing ts with
    | nil => exact ⟨ts, .nil, h⟩
    | cons e es ih =>
      cases h with
      | operator h =>
        obtain ⟨mid, hes, hfs⟩ := ih h
        exact ⟨mid, .operator hes, hfs⟩
      | operand hs h =>
        obtain ⟨mid, hes, hfs⟩ := ih h
        exact ⟨mid, .operand hs hes, hfs⟩
  · rintro ⟨mid, hes, hfs⟩
    induction hes with
    | nil => exact hfs
    | operator _ ih => exact .operator (ih hfs)
    | operand hs _ ih => exact .operand hs (ih hfs)

theorem Spells.imp {α : Type} {N M : Phrase α → List Token → List Token → Prop} {ph : Phrase α}
    {ts rest : List Token} (h : Spells N ph ts rest) (hNM : ∀ ph us vs, N ph us vs → M ph us vs) : Spells M ph ts rest :=
  Spells.induct (Q := fun ph ts rest => Spells M ph ts rest)
    (fun _ _ _ _ form note fits => .mk form (fits.imp fun _ _ _ h => h.2) (hNM _ _ _ note)) h

theorem Spells.written {e : Expr Extent} {ts rest : List Token}
    (h : Spells Noted (.expression e) ts rest) : Written e.inorder ts rest := by
  by_cases hop : e.isOperand = true
  · rw [Expr.inorder_of_isOperand hop]
    exact .operand h .nil
  · obtain ⟨ps, form, fits⟩ := h.form
    match e with
    | .binary here op left right =>
      cases form with
      | binary hk _ =>
        simp only [fits_phrase, fits_token, fits_nil] at fits
        obtain ⟨_, hl, t, _, rfl, rfl, -, _, hr, rfl⟩ := fits
        obtain hk := BinaryOp.ofKind?_eq_some.1 hk
        refine written_append.2 ⟨_, Spells.written hl, ?_⟩
        rw [← hk]
        exact .operator (Spells.written hr)
    | .unary here op inner =>
      cases form with
      | unary hk _ =>
        simp only [fits_phrase, fits_token, fits_nil] at fits
        obtain ⟨t, _, rfl, rfl, -, _, hx, rfl⟩ := fits
        obtain hk := UnaryOp.ofKind?_eq_some.1 hk
        rw [Expr.inorder, ← hk]
        exact .operator (Spells.written hx)
    | .integer .. | .float .. | .string .. | .boolean .. | .invalid .. | .identifier ..
    | .grouped .. | .call .. | .member .. | .index .. | .attribute .. | .array .. | .assoc ..
    | .procedure .. => exact absurd rfl hop

theorem Written.spells {e : Expr Extent} {ts rest : List Token}
    (h : Written e.inorder ts rest) (hg : e.WellGrouped) :
    Spells (fun _ _ _ => True) (.expression e) ts rest := by
  by_cases hop : e.isOperand = true
  · rw [Expr.inorder_of_isOperand hop] at h
    obtain _ | _ | ⟨hs, ⟨⟩⟩ := h
    exact hs.imp fun _ _ _ _ => trivial
  · match e with
    | .binary here op left right =>
      obtain ⟨mid, hl, hr⟩ := written_append.1 h
      generalize hk : op.kind = k at hr
      cases hr with
      | operator hr =>
        have hleft := Written.spells hl fun x hx => hg x (.head (List.mem_cons_self ..) hx)
        have hright := Written.spells hr fun x hx =>
          hg x (.head (List.mem_cons_of_mem _ (List.mem_cons_self ..)) hx)
        refine .mk (.binary (BinaryOp.ofKind?_eq_some.2 hk.symm) (hg _ .refl)) ?_ trivial
        exact .phrase hleft (.token rfl trivial (.phrase hright .nil))
    | .unary here op inner =>
      rw [Expr.inorder] at h
      generalize hk : op.kind = k at h
      cases h with
      | operator hx =>
        have hinner := Written.spells hx fun x hx => hg x (.head (List.mem_cons_self ..) hx)
        refine .mk (.unary (UnaryOp.ofKind?_eq_some.2 hk.symm) (hg _ .refl)) ?_ trivial
        exact .token rfl trivial (.phrase hinner .nil)
    | .integer .. | .float .. | .string .. | .boolean .. | .invalid .. | .identifier ..
    | .grouped .. | .call .. | .member .. | .index .. | .attribute .. | .array .. | .assoc ..
    | .procedure .. => exact absurd rfl hop

/-- Two expressions that the same tokens spell have the same shape. -/
theorem Spells.shape_unique {N M : Phrase Extent → List Token → List Token → Prop}
    {e e' : Expr Extent} {ts rest : List Token} (h : Spells N (.expression e) ts rest)
    (h' : Spells M (.expression e') ts rest) (hi : Inert rest) : e'.shape = e.shape := by
  have hvalue : ∀ {N : Phrase Extent → List Token → List Token → Prop} {e : Expr Extent},
      Spells N (.expression e) ts rest →
      Gives ((Recursion.ofDepth (ts.length + 1)).expression .lowest) ts rest (·.shape = e.shape) :=
    fun h => (Spells.mk .value (.phrase (h.imp fun _ _ _ _ => trivial) (.ahead hi .nil))
      trivial : Spells (fun _ _ _ => True) _ _ _).legible (Nat.lt_succ_self _)
  obtain ⟨x, last, hx, hshape⟩ := hvalue h (Mark.origin.extentTo Mark.origin)
  obtain ⟨x', last', hx', hshape'⟩ := hvalue h' (Mark.origin.extentTo Mark.origin)
  rw [hx] at hx'
  cases hx'
  exact hshape'.symm.trans hshape

/-- An expression that is read has its operators grouped by their tiers, the tokens that were read
are its operands and operators in order, and no other expression that is grouped so has these. -/
theorem expression_wellGrouped {depth : Nat} {c c' : Cursor} {e : Expr Extent}
    (h : (Recursion.ofDepth depth).expression .lowest c = .ok e c') :
    (∀ op : Operator, ∃ tier, Operator.tiers[op.precedence.rank - 1]? = some tier ∧ op ∈ tier) ∧
    e.WellGrouped ∧ Written e.inorder c.rest c'.rest ∧
    ∀ e' : Expr Extent, e'.WellGrouped → Written e'.inorder c.rest c'.rest →
      e'.shape = e.shape := by
  obtain ⟨hs, -, hu, hy⟩ := (spelling_ofDepth depth).expression h
  refine ⟨Operator.mem_tier, fun x hx => ?_, hs.written, fun e' hg hw => ?_⟩
  · obtain ⟨ts, rest, hx⟩ := Node.Read.below (n := .expression e) ⟨_, _, hs⟩ hx
    exact hx.grouped
  · exact hs.shape_unique (hw.spells hg) (inert_of_yields hu hy)

theorem expression_wellGrouped_not :
    (∃ e last, (Recursion.ofDepth 4).expression .lowest (.ofTokens (lex "a * not b + c".toList))
      = .ok e ⟨last, []⟩ ∧ e.WellGrouped) ∧
    ∀ e' : Expr Extent, e'.WellGrouped → Written e'.inorder (lex "a * not b + c".toList) [] →
      e'.shape = .binary () .multiply (.identifier () "a")
        (.unary () .not (.binary () .add (.identifier () "b") (.identifier () "c"))) := by
  have h : (Recursion.ofDepth 4).expression .lowest (.ofTokens (lex "a * not b + c".toList)) = .ok
      (.binary ⟨⟨0, 13⟩, ⟨⟨1, 0⟩, ⟨1, 13⟩⟩⟩ .multiply (.identifier ⟨⟨0, 1⟩, ⟨⟨1, 0⟩, ⟨1, 1⟩⟩⟩ "a")
        (.unary ⟨⟨4, 13⟩, ⟨⟨1, 4⟩, ⟨1, 13⟩⟩⟩ .not (.binary ⟨⟨8, 13⟩, ⟨⟨1, 8⟩, ⟨1, 13⟩⟩⟩ .add
          (.identifier ⟨⟨8, 9⟩, ⟨⟨1, 8⟩, ⟨1, 9⟩⟩⟩ "b")
          (.identifier ⟨⟨12, 13⟩, ⟨⟨1, 12⟩, ⟨1, 13⟩⟩⟩ "c"))))
      ⟨⟨⟨12, 13⟩, ⟨⟨1, 12⟩, ⟨1, 13⟩⟩⟩, []⟩ := rfl
  exact ⟨⟨_, _, h, (expression_wellGrouped h).2.1⟩, (expression_wellGrouped h).2.2.2⟩

end BrightCoverage
