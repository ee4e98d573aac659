import BrightCoverage.Coverage.Registry
import BrightCoverage.Proofs.RoundTrip
import BrightCoverage.Proofs.Wording

/-! The maps of a run, read back as source text. They are written as JSON and read as literals of
associative arrays; the two agree wherever no character of a key or a value has to be escaped. -/

namespace BrightCoverage

/-! ### Expressions on their own -/

def readExpression (source : Text) : Option (Expr Extent) :=
  match (Recursion.ofDepth ((lex source).length + 1)).expression .lowest (.ofTokens (lex source)) with
  | .ok e ⟨_, []⟩ => some e
  | _ => none

theorem readExpression_of_wording {e : Expr Extent} {source : Text}
    (hf : (Node.expression e).Fine) (h : wording source = e.render.map Lexeme.face) :
    ∃ e', readExpression source = some e' ∧ e'.shape = e.shape := by
  have hprinted : Printed e.render (lex source) [] := printed_of_map_eq ((map_lex source).trans h)
  have hinert : Inert [] := ⟨by simp [Unattached, kindOf, attachments], rfl⟩
  have hspells : Spells Plain (.value e) (lex source) [] :=
    Form.value.spells (.phrase (hf.rendered.2 _ _ hprinted) (.ahead hinert .nil))
  obtain ⟨e', last, hread, hshape⟩ := hspells.legible (Nat.lt_succ_self _)
    (Mark.origin.extentTo Mark.origin)
  refine ⟨e', ?_, hshape⟩
  unfold readExpression Cursor.ofTokens
  rw [hread]

/-! ### Objects -/

/-- A text in which nothing has to be escaped. -/
def Unescaped (text : Text) : Prop :=
  ∀ c ∈ text, jsonEscape c = [c]

theorem Unescaped.ne_quote {text : Text} (h : Unescaped text) : ∀ c ∈ text, c ≠ '"' := by
  rintro c hc rfl
  exact absurd (h _ hc) (by decide)

theorem Unescaped.newline_notMem {text : Text} (h : Unescaped text) : '\n' ∉ text :=
  fun hc => absurd (h _ hc) (by decide)

theorem doubleQuotes_eq_self {text : Text} (h : ∀ c ∈ text, c ≠ '"') : doubleQuotes text = text := by
  induction text with
  | nil => rfl
  | cons c text ih =>
    obtain ⟨hc, htext⟩ := List.forall_mem_cons.1 h
    rw [doubleQuotes, if_neg hc, ih htext]

theorem Unescaped.flatMap_jsonEscape {text : Text} (h : Unescaped text) :
    text.flatMap jsonEscape = text := by
  induction text with
  | nil => rfl
  | cons c text ih =>
    obtain ⟨hc, htext⟩ := List.forall_mem_cons.1 h
    rw [List.flatMap_cons, hc, ih htext]
    rfl

theorem Unescaped.jsonString_eq {text : Text} (h : Unescaped text) : jsonString text = quote text := by
  rw [jsonString, h.flatMap_jsonEscape, quote, doubleQuotes_eq_self h.ne_quote]
  rfl

theorem IsDecimal.unescaped {u : Text} (h : IsDecimal u) : Unescaped u := by
  have hdigit : ∀ d < 10, jsonEscape (Nat.digitChar d) = [Nat.digitChar d] := by decide
  intro c hc
  obtain ⟨d, hd, rfl⟩ := h.2 c hc
  exact hdigit d hd

/-- What stands behind a value of an object. -/
def Goes (rest : Text) : Prop :=
  rest.head? = some ',' ∨ rest.head? = some '\x7d'

/-- Inside of an object the text is the writing of the expression. -/
def Worded (text : Text) (e : Expr Extent) : Prop :=
  ∀ rest, Goes rest → wording (text ++ rest) = e.render.map Lexeme.face ++ wording rest

section Objects

variable {γ : Type} {items : List γ} {key : γ → Nat} {text : γ → Text} {value : γ → Expr Extent}

theorem wording_entry (x : γ) (h : Worded (text x) (value x)) {rest : Text} (hrest : Goes rest) :
    wording (jsonString (Nat.toDigits 10 (key x)) ++ [':'] ++ text x ++ rest)
      = (Entry.mk (toString (key x)) (value x)).render.map Lexeme.face ++ wording rest := by
  have hkey := (isDecimal_toDigits (key x)).unescaped
  have hcolon : wording ([':'] ++ (text x ++ rest)) = _ :=
    wording_symbol (s := .colon) (by decide) (text x ++ rest)
  rw [hkey.jsonString_eq, List.append_assoc, List.append_assoc,
    wording_string hkey.newline_notMem (by simp), hcolon, h rest hrest]
  simp [Entry.render, Lexeme.face, Lexeme.kind, Lexeme.text]

theorem commas_cons_cons (a b : List Lexeme) (rest : List (List Lexeme)) :
    commas (a :: b :: rest) = a ++ .symbol .comma :: commas (b :: rest) := by
  simp [commas]

theorem wording_entries (h : ∀ x ∈ items, Worded (text x) (value x)) {rest : Text}
    (hrest : rest.head? = some '\x7d') :
    wording (commaJoin (items.map fun x => jsonString (Nat.toDigits 10 (key x)) ++ [':'] ++ text x)
        ++ rest)
      = (commas (items.map fun x => (Entry.mk (toString (key x)) (value x)).render)).map Lexeme.face
        ++ wording rest := by
  induction items with
  | nil => rfl
  | cons x items ih =>
    obtain ⟨hx, hitems⟩ := List.forall_mem_cons.1 h
    cases items with
    | nil =>
      simp only [List.map_cons, List.map_nil, commaJoin, commas, List.flatMap_nil, List.append_nil]
      exact wording_entry x hx (.inr hrest)
    | cons y items =>
      have hcomma : ∀ rest, wording ([','] ++ rest) = _ := wording_symbol (s := .comma) (by decide)
      have ih := ih hitems
      rw [List.map_cons, List.map_cons] at ih ⊢
      rw [commaJoin, List.append_assoc, List.append_assoc, wording_entry x hx (.inl rfl), hcomma, ih,
        List.map_cons, List.map_cons, commas_cons_cons]
      · simp [Lexeme.face, Lexeme.kind, Lexeme.text]
      · simp

/-- The text of an object is the writing of a literal if its values are writings. -/
theorem wording_object (here : Extent) (h : ∀ x ∈ items, Worded (text x) (value x)) (rest : Text) :
    wording (jsonObject (items.map fun x => (key x, text x)) ++ rest)
      = (Expr.assoc here (items.map fun x => .mk (toString (key x)) (value x))).render.map Lexeme.face
        ++ wording rest := by
  have hopen : ∀ rest, wording (['\x7b'] ++ rest) = _ := wording_symbol (s := .leftBrace) (by decide)
  have hclose : ∀ rest, wording (['\x7d'] ++ rest) = _ := wording_symbol (s := .rightBrace) (by decide)
  have hentries := @wording_entries γ items key text value h (['\x7d'] ++ rest) rfl
  rw [jsonObject, List.map_map, List.append_assoc, List.append_assoc, hopen]
  refine (congrArg _ hentries).trans ?_
  rw [hclose]
  simp [Expr.render, renderEntries_eq_map, Lexeme.face, Lexeme.kind, Lexeme.text, Function.comp_def]

end Objects

/-! ### The expected map -/

def Coverage.literal {α : Type} (here : α) (coverage : Coverage) : Expr α :=
  .assoc here (coverage.entries.map fun x => .mk (toString x.1) (.integer here x.2.toNat))

def Registry.expectedLiteral {α : Type} (here : α) (registry : Registry) : Expr α :=
  .assoc here (registry.expected.entries.map fun x => .mk (toString x.1) (x.2.literal here))

theorem shape_assoc {here : Extent} {entries : List (Entry Extent)} :
    (Expr.assoc here entries).shape = .assoc () (entries.map (Entry.map fun _ => ())) := by
  rw [Expr.shape, Expr.map, mapEntries_eq_map]

theorem Coverage.shape_literal (here : Extent) (coverage : Coverage) :
    (coverage.literal here).shape = coverage.literal () := by
  rw [literal, shape_assoc, List.map_map]
  rfl

theorem Registry.shape_expectedLiteral (here : Extent) (registry : Registry) :
    (registry.expectedLiteral here).shape = registry.expectedLiteral () := by
  rw [expectedLiteral, shape_assoc, List.map_map, expectedLiteral]
  congr 2
  funext x
  exact congrArg (Entry.mk _) (x.2.shape_literal here)

theorem Node.fine_assoc {here : Extent} {entries : List (Entry Extent)}
    (h : ∀ entry ∈ entries, (Node.expression entry.value).Fine) :
    (Node.expression (.assoc here entries)).Fine := by
  refine Node.fine_of_children ⟨trivial, trivial⟩ fun m hm => ?_
  obtain ⟨p, hp, hmem⟩ := List.mem_flatMap.1 hm
  obtain ⟨entry, hentry, rfl⟩ := List.mem_map.1 hp
  obtain rfl := List.mem_singleton.1 hmem
  exact h entry hentry

theorem Coverage.fine_literal (here : Extent) (coverage : Coverage) :
    (Node.expression (coverage.literal here)).Fine := by
  have hkind : ∀ kind : LineKind, kind.toNat ≤ maxInteger := by
    intro kind
    cases kind <;> decide
  refine Node.fine_assoc fun entry hentry => ?_
  obtain ⟨x, -, rfl⟩ := List.mem_map.1 hentry
  exact Node.fine_of_children ⟨trivial, hkind x.2⟩ (List.forall_mem_nil _)

theorem Registry.fine_expectedLiteral (here : Extent) (registry : Registry) :
    (Node.expression (registry.expectedLiteral here)).Fine := by
  refine Node.fine_assoc fun entry hentry => ?_
  obtain ⟨x, -, rfl⟩ := List.mem_map.1 hentry
  exact x.2.fine_literal here

theorem worded_integer (here : Extent) (n : Nat) : Worded (Nat.toDigits 10 n) (.integer here n) := by
  intro rest hrest
  have havoids : ∀ c ∈ rest.head?, Rule.integer.avoids c = true ∧ Rule.float.avoids c = true := by
    rintro c hc
    rcases hrest with h | h
    · obtain rfl := Option.some.inj (h.symm.trans hc)
      decide
    · obtain rfl := Option.some.inj (h.symm.trans hc)
      decide
  rw [wording_integer (isDecimal_toDigits n) havoids]
  simp [Expr.render, Lexeme.face, Lexeme.kind, Lexeme.text, Nat.repr_eq_ofList_toDigits]

theorem Coverage.wording_json (here : Extent) (coverage : Coverage) (rest : Text) :
    wording (coverage.json ++ rest)
      = (coverage.literal here).render.map Lexeme.face ++ wording rest :=
  wording_object here (fun x _ => worded_integer here x.2.toNat) rest

theorem Registry.wording_expectedJson (here : Extent) (registry : Registry) (rest : Text) :
    wording (registry.expectedJson ++ rest)
      = (registry.expectedLiteral here).render.map Lexeme.face ++ wording rest :=
  wording_object here (fun x _ rest _ => x.2.wording_json here rest) rest

/-- Only lines with code are kept. -/
def Coverage.Dense (coverage : Coverage) : Prop :=
  ∀ x ∈ coverage.entries, x.2 ≠ .noCode

theorem Coverage.Dense.record {coverage : Coverage} (h : coverage.Dense) (line : Nat)
    (kind : LineKind) : (coverage.record line kind).Dense := by
  unfold Coverage.record
  split
  · exact h
  · next hkind =>
    intro x hx
    rcases mem_insertEntry hx with rfl | hx
    · exact hkind
    · exact h x hx

theorem Coverage.dense_ofLines (lines : List (Nat × LineKind)) : (Coverage.ofLines lines).Dense :=
  List.foldlRecOn lines _ (List.forall_mem_nil _) fun _ h line _ => h.record line.1 line.2

/-- The expected map of a run is read back as a literal that has the files in ascending order of their
numbers, and for each of them the lines in ascending order, with the codes of lines that have code. -/
theorem expectedJson_denotes (registry : Registry)
    (hkept : ∀ x ∈ registry.expected.entries, ∃ lines, x.2 = Coverage.ofLines lines) :
    (∃ e, readExpression registry.expectedJson = some e ∧
      e.shape = registry.expectedLiteral ()) ∧
    registry.expected.entries.Pairwise (fun x y => x.1 < y.1) ∧
    ∀ x ∈ registry.expected.entries, x.2.entries.Pairwise (fun y z => y.1 < z.1) ∧
      ∀ y ∈ x.2.entries, y.2.toNat = 1 ∨ y.2.toNat = 2 := by
  let here := Mark.origin.extentTo Mark.origin
  refine ⟨?_, registry.expected.ascending, fun x hx => ⟨x.2.ascending, fun y hy => ?_⟩⟩
  · have hwording := registry.wording_expectedJson here []
    rw [List.append_nil, wording_nil, List.append_nil] at hwording
    obtain ⟨e, hread, hshape⟩ :=
      readExpression_of_wording (registry.fine_expectedLiteral here) hwording
    exact ⟨e, hread, hshape.trans (registry.shape_expectedLiteral here)⟩
  · obtain ⟨lines, hlines⟩ := hkept x hx
    rw [hlines] at hy
    have hne := Coverage.dense_ofLines lines y hy
    revert hne
    cases y.2 <;> simp [LineKind.toNat]

/-- Two files whose numbers are in another order as texts, one of them without code. -/
theorem expectedJson_denotes_order :
    let coverage := Coverage.ofLines [(10, .code), (9, .condition), (3, .noCode)]
    let registry := (Registry.empty.record 10 coverage "pkg:/b.brs").record 9
      (Coverage.ofLines []) "pkg:/a.brs"
    (∃ e, readExpression registry.expectedJson = some e ∧
      e.shape = registry.expectedLiteral ()) ∧
    registry.expectedJson = "\x7b\"9\":\x7b\x7d,\"10\":\x7b\"9\":2,\"10\":1\x7d\x7d".toList := by
  intro coverage registry
  refine ⟨(expectedJson_denotes registry ?_).1, by decide⟩
  simp only [registry, Registry.record, Registry.recordCoverage, Registry.recordPath, Registry.empty,
    Table.insert, Table.empty, insertEntry]
  simp only [show ¬ 9 = 10 by decide, show 9 < 10 by decide, if_true, List.forall_mem_cons]
  exact ⟨⟨_, rfl⟩, ⟨_, rfl⟩, List.forall_mem_nil _⟩

end BrightCoverage
