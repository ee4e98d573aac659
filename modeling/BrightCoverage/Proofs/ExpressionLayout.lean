import BrightCoverage.Proofs.Layout

/-! The layout of expressions and procedures. Each parser, run at an index of the tokens, stops at a
later index with its value laid out between the two. The parsers that call each other are taken to
do so already; the induction over the depth of nesting comes with whole files. -/

namespace BrightCoverage

open BrightCoverage.Parser

variable {base : Extent} {ts : List Token} {i j k : Nat} {c' : Cursor}

/-- The parsers that call each other lay out what they read. -/
structure Recursion.Sound (r : Recursion) : Prop where
  expression : ∀ {base : Extent} {ts : List Token} {min : Precedence} {i : Nat} {e : Expr Extent}
    {c' : Cursor}, r.expression min (.after base ts i) = .ok e c' →
      ∃ j, c' = .after base ts j ∧ Laid ts (.expression e) i j
  statement : ∀ {base : Extent} {ts : List Token} {i : Nat} {s : Statement Extent} {c' : Cursor},
    r.statement (.after base ts i) = .ok s c' →
      ∃ j, c' = .after base ts j ∧ Laid ts (.statement s) i j
  inlineElseIf : ∀ {base : Extent} {ts : List Token} {i : Nat} {s : Statement Extent}
    {c' : Cursor}, r.inlineElseIf (.after base ts i) = .ok s c' →
    kindAt ts i = some (.keyword .elseIfKw) →
      ∃ j, c' = .after base ts j ∧ Laid ts (.statement s) i j

theorem kindAt_eq {t : Token} (h : ts[i]? = some t) : kindAt ts i = some t.kind := by
  simp [kindAt, h]

theorem exists_token {kind : TokenKind} (h : kindAt ts i = some kind) :
    ∃ t, ts[i]? = some t ∧ t.kind = kind := by
  simpa [kindAt] using h

theorem last_eq (hj : 0 < j) (hs : Solid ts (j - 1)) :
    (Cursor.after base ts j).last = extentAt ts (j - 1) := by
  obtain ⟨k, rfl⟩ : ∃ k, j = k + 1 := ⟨j - 1, by omega⟩
  exact Cursor.after_last base ts hs.lt

theorem laid_of_token (base : Extent) {n : Node} {t : Token} (ht : ts[i]? = some t) (hij : i < j)
    (hs : Solid ts (j - 1)) (row : Row ts (Laid ts) n.pieces i j) (hsp : n.Spelled ts i)
    (he : n.here = t.extent.through (Cursor.after base ts j).last) : Laid ts n i j := by
  refine .mk hij hs ?_ hsp row
  rw [he, last_eq (by omega) hs, extentBetween, extentAt_eq ht]

theorem laid_of_node {n m : Node} (hm : Laid ts m i k) (hij : i < j)
    (hs : Solid ts (j - 1)) (row : Row ts (Laid ts) n.pieces i j) (hsp : n.Spelled ts i)
    (he : n.here = m.here.through (Cursor.after base ts j).last) : Laid ts n i j := by
  refine .mk hij hs ?_ hsp row
  rw [he, last_eq (by omega) hs, hm.here_eq]
  rfl

theorem expect_run {kind : TokenKind} {what text : String}
    (h : expect kind what (.after base ts i) = .ok text c') :
    c' = .after base ts (i + 1) ∧ kindAt ts i = some kind := by
  obtain ⟨t, ht, hk, -, hc⟩ := expect_eq_ok.1 h
  rw [Cursor.after_head?] at ht
  exact ⟨by simpa using hc, hk ▸ kindAt_eq ht⟩

theorem expectWord_run {what text : String}
    (h : expectWord what (.after base ts i) = .ok text c') :
    c' = .after base ts (i + 1) ∧ Solid ts i := by
  obtain ⟨t, ht, hw, -, hc⟩ := expectWord_eq_ok.1 h
  rw [Cursor.after_head?] at ht
  exact ⟨by simpa using hc, t, ht, .inl hw⟩

theorem rest_length_lt {c : Cursor} (hj : 0 < j) (hl : j ≤ c.rest.length) :
    (Cursor.after c.last c.rest j).rest.length < c.rest.length := by
  simp only [Cursor.after_rest, List.length_drop]
  omega

theorem kindAt_lt {kind : TokenKind} (h : kindAt ts i = some kind) : i < ts.length := by
  obtain ⟨t, ht, -⟩ := exists_token h
  exact (List.getElem?_eq_some_iff.1 ht).1

theorem skipNewlines_run (base : Extent) (ts : List Token) (i : Nat) :
    ∃ j, i ≤ j ∧ (i ≤ ts.length → j ≤ ts.length) ∧
      Cursor.skip [.newline] (Cursor.after base ts i).last (ts.drop i) = .after base ts j := by
  obtain ⟨j, hij, hj, hall, -⟩ := Cursor.skip_after base ts [.newline] i
  refine ⟨j, hij, fun hi => ?_, hj⟩
  rcases Nat.eq_or_lt_of_le hij with rfl | hlt
  · exact hi
  · obtain ⟨k, -, hk⟩ := hall (j - 1) (by omega) (by omega)
    have := kindAt_lt hk
    omega

theorem skipSeparators_run (base : Extent) (ts : List Token) (i : Nat) :
    ∃ j, Gap ts i j ∧ (Cursor.after base ts i).skipSeparators = .after base ts j := by
  obtain ⟨j, hij, hj, hall, -⟩ := Cursor.skip_after base ts [.newline, .symbol .colon] i
  refine ⟨j, ⟨hij, fun x hx hx' => ?_⟩, hj⟩
  obtain ⟨k, hk, hkx⟩ := hall x hx hx'
  simp only [List.mem_cons, List.not_mem_nil, or_false] at hk
  rcases hk with rfl | rfl
  · exact .inl hkx
  · exact .inr hkx

section Blocks

variable {self : Recursion} (hs : self.Sound)
include hs

theorem blockItem_run {atEnd : Cursor → Bool} {o : Option (Statement Extent)}
    (h : blockItem self atEnd (.after base ts i) = .ok o c') :
    ∃ a j, c' = .after base ts j ∧ Gap ts i a ∧
      match o with
      | none => j = a
      | some s => Laid ts (.statement s) a j := by
  obtain ⟨a, gap, ha⟩ := skipSeparators_run base ts i
  simp only [blockItem, skipSeparators_bind, ha, get_bind] at h
  split at h
  · cases h
    exact ⟨a, a, rfl, gap, rfl⟩
  · obtain ⟨s, c₁, hst, h⟩ := bind_eq_ok.1 h
    obtain ⟨j, rfl, laid⟩ := hs.statement hst
    simp only [atStatementEnd_bind] at h
    split at h
    · cases h
      exact ⟨a, j, rfl, gap, laid⟩
    · exact absurd h expected_ne_ok

theorem blockItem_progress (atEnd : Cursor → Bool) : StepProgress (blockItem self atEnd) := by
  intro c s c' h
  rw [c.eq_after] at h
  obtain ⟨a, j, rfl, gap, laid⟩ := blockItem_run hs h
  exact rest_length_lt (by have := laid.lt; omega) laid.le_length

theorem block_run {atEnd : Cursor → Bool} {body : List (Statement Extent)}
    (h : block self atEnd (.after base ts i) = .ok body c') :
    ∃ j, c' = .after base ts j ∧ Lines ts (Laid ts) body i j := by
  refine many_run (blockItem_progress hs atEnd) (fun k c' h => ?_) (fun k s c' h => ?_) h
  · obtain ⟨a, j, rfl, gap, rfl⟩ := blockItem_run hs h
    exact ⟨_, rfl, .nil gap⟩
  · obtain ⟨a, j, rfl, gap, laid⟩ := blockItem_run hs h
    exact ⟨j, rfl, fun _ _ lines => .cons gap laid lines⟩

end Blocks

theorem close_run {b : Block} {opener : Span} {u : Unit}
    (h : close b opener (.after base ts i) = .ok u c') :
    ∃ j, c' = .after base ts j ∧ i < j ∧ Solid ts (j - 1) := by
  simp only [close, get_bind] at h
  split at h
  · rename_i hc
    simp only [Block.atCloser, Cursor.after_kind?] at hc
    split at hc
    · simp only [advance_apply, Cursor.next_after] at h
      cases h
      exact ⟨i + 1, rfl, Nat.lt_succ_self i, solid_of_kind (of_decide_eq_true hc) (by simp)⟩
    · cases hc
  · split at h
    · rename_i hc
      simp only [Block.atNext, Cursor.after_kind?, Bool.and_eq_true, decide_eq_true_eq] at hc
      simp only [advance_bind, Cursor.next_after, accept_bind, Cursor.after_kind?] at h
      split at h
      · rename_i hid
        cases h
        exact ⟨i + 2, rfl, by omega, solid_of_kind hid (by simp)⟩
      · cases h
        exact ⟨i + 1, rfl, by omega, solid_of_kind hc.2 (by simp)⟩
    · split at h
      · rename_i hc
        simp only [Block.atPair, Cursor.after_kind?, Cursor.after_kindAt?] at hc
        split at hc
        · simp only [Bool.and_eq_true, decide_eq_true_eq] at hc
          simp only [advance_bind, advance_apply, Cursor.next_after] at h
          cases h
          exact ⟨i + 2, rfl, by omega, solid_of_kind hc.2 (by simp)⟩
        · cases hc
      · split at h
        · cases h
        · exact absurd h expected_ne_ok

section Lists

variable {α : Type} {f : α → List Piece} {item : Parser α}

theorem after_run {kind : TokenKind} {rest : Parser α} {Q : α → Nat → Nat → Prop}
    (hr : ∀ {i a c'}, rest (.after base ts i) = .ok a c' → ∃ j, c' = .after base ts j ∧ Q a i j)
    {o : Option α} (h : Parser.after kind rest (.after base ts i) = .ok o c') :
    ∃ j, c' = .after base ts j ∧
      match o with
      | none => j = i
      | some a => kindAt ts i = some kind ∧ Q a (i + 1) j := by
  rcases after_eq_ok.1 h with ⟨-, rfl, rfl⟩ | ⟨a, hk, hrun, rfl⟩
  · exact ⟨i, rfl, rfl⟩
  · rw [Cursor.next_after] at hrun
    obtain ⟨j, rfl, hq⟩ := hr hrun
    exact ⟨j, rfl, by simpa using hk, hq⟩

theorem after_progress (kind : TokenKind)
    (hi : ∀ {base ts i a c'}, item (.after base ts i) = .ok a c' →
      ∃ j, c' = .after base ts j ∧ i < j ∧ j ≤ ts.length) :
    StepProgress (Parser.after kind item) := by
  intro c a c' h
  rw [c.eq_after] at h
  obtain ⟨j, rfl, -, hj, hl⟩ := after_run (Q := fun _ i j => i < j ∧ j ≤ c.rest.length) hi h
  exact rest_length_lt (by omega) hl

theorem opening_notMem_flatMap (hf : ∀ a e, .opening e ∉ f a) (as : List α)
    (e : Expr Extent) : .opening e ∉ as.flatMap f := by
  intro hmem
  obtain ⟨a, -, ha⟩ := List.mem_flatMap.1 hmem
  exact hf a e ha

theorem commaItems_run (hf : ∀ a e, .opening e ∉ f a)
    (hi : ∀ {base ts i a c'}, item (.after base ts i) = .ok a c' →
      ∃ j, c' = .after base ts j ∧ (i < j ∧ j ≤ ts.length) ∧ Row ts (Laid ts) (f a) i j)
    {as : List α} (h : many (Parser.after (.symbol .comma) item) (.after base ts i) = .ok as c') :
    ∃ j, c' = .after base ts j ∧ Row ts (Laid ts) (as.flatMap f) i j := by
  have hp : StepProgress (Parser.after (.symbol .comma) item) :=
    after_progress _ fun h => (hi h).imp fun j hj => ⟨hj.1, hj.2.1⟩
  have hstep : ∀ {k : Nat} {o : Option α} {c' : Cursor},
      Parser.after (.symbol .comma) item (.after base ts k) = .ok o c' →
        ∃ j, c' = .after base ts j ∧ k ≤ j ∧ Row ts (Laid ts) (o.toList.flatMap f) k j := by
    intro k o c' h
    obtain ⟨j, rfl, ho⟩ := after_run
      (Q := fun a i j => (i < j ∧ j ≤ ts.length) ∧ Row ts (Laid ts) (f a) i j) hi h
    cases o with
    | none => exact ⟨j, rfl, ho.ge, .nil ho.ge⟩
    | some a =>
      obtain ⟨-, ⟨hlt, -⟩, row⟩ := ho
      refine ⟨j, rfl, by omega, ?_⟩
      simpa using row.widen_left (hf a) (Nat.le_succ k)
  refine many_run hp (Q := fun as i j => Row ts (Laid ts) (as.flatMap f) i j)
    (fun k c' h => ?_) (fun k a c' h => ?_) h
  · obtain ⟨j, rfl, hkj, -⟩ := hstep h
    exact ⟨j, rfl, .nil hkj⟩
  · obtain ⟨j, rfl, -, row⟩ := hstep h
    refine ⟨j, rfl, fun as l rows => ?_⟩
    simpa using row.append rows (opening_notMem_flatMap hf as)

theorem commaSeparated_run {closing : Symbol} (hf : ∀ a e, .opening e ∉ f a)
    (hi : ∀ {base ts i a c'}, item (.after base ts i) = .ok a c' →
      ∃ j, c' = .after base ts j ∧ (i < j ∧ j ≤ ts.length) ∧ Row ts (Laid ts) (f a) i j)
    {as : List α} (h : commaSeparated closing item (.after base ts i) = .ok as c') :
    ∃ j, c' = .after base ts j ∧ Row ts (Laid ts) (as.flatMap f) i j := by
  simp only [commaSeparated, peekKind_bind] at h
  split at h
  · cases h
    exact ⟨i, rfl, .nil (Nat.le_refl i)⟩
  · obtain ⟨a, c₁, ha, h⟩ := bind_eq_ok.1 h
    obtain ⟨k, rfl, -, row⟩ := hi ha
    obtain ⟨as, c₂, hm, h⟩ := bind_eq_ok.1 h
    cases h
    obtain ⟨j, rfl, rows⟩ := commaItems_run hf hi hm
    exact ⟨j, rfl, row.append rows (opening_notMem_flatMap hf as)⟩

end Lists

section Procedures

variable {self : Recursion} (hs : self.Sound)
include hs

theorem expression_row {e : Expr Extent} {min : Precedence}
    (h : self.expression min (.after base ts i) = .ok e c') :
    ∃ j, c' = .after base ts j ∧ (i < j ∧ j ≤ ts.length) ∧
      Row ts (Laid ts) [.expression e] i j := by
  obtain ⟨j, rfl, laid⟩ := hs.expression h
  exact ⟨j, rfl, ⟨laid.lt, laid.le_length⟩,
    .expression (Nat.le_refl i) laid (.nil (Nat.le_refl j))⟩

theorem parameter_run {param : Parameter Extent}
    (h : parameter self (.after base ts i) = .ok param c') :
    ∃ j, c' = .after base ts j ∧ (i < j ∧ j ≤ ts.length) ∧
      Row ts (Laid ts) (param.default.toList.map .expression) i j := by
  obtain ⟨name, c₁, hn, h⟩ := bind_eq_ok.1 h
  obtain ⟨rfl, hsolid⟩ := expectWord_run hn
  obtain ⟨default, c₂, hd, h⟩ := bind_eq_ok.1 h
  obtain ⟨k, rfl, hk⟩ := after_run hs.expression hd
  obtain ⟨type, c₃, ht, h⟩ := bind_eq_ok.1 h
  obtain ⟨j, rfl, hj⟩ := after_run (Q := fun _ i j => j = i + 1 ∧ Solid ts i)
    (fun h => ⟨_, expectWord_run h |>.1, rfl, (expectWord_run h).2⟩) ht
  cases h
  have := hsolid.lt
  have hlen : k ≤ j ∧ (k ≤ ts.length → j ≤ ts.length) := by
    cases type with
    | none => simp only at hj; omega
    | some _ =>
      obtain ⟨-, rfl, hsol⟩ := hj
      have := hsol.lt
      omega
  cases default with
  | none =>
    simp only at hk
    exact ⟨j, rfl, by omega, .nil (by omega)⟩
  | some e =>
    obtain ⟨-, laid⟩ := hk
    have := laid.lt
    have := laid.le_length
    exact ⟨j, rfl, by omega, .expression (by omega) laid (.nil hlen.1)⟩

theorem parameters_run {params : List (Parameter Extent)}
    (h : parameters self (.after base ts i) = .ok params c') :
    ∃ j, c' = .after base ts j ∧ (i < j ∧ Solid ts (j - 1)) ∧
      Row ts (Laid ts) (params.flatMap fun param => param.default.toList.map .expression) i j := by
  obtain ⟨_, c₁, ho, h⟩ := bind_eq_ok.1 h
  obtain ⟨rfl, -⟩ := expect_run ho
  obtain ⟨params, c₂, hp, h⟩ := bind_eq_ok.1 h
  obtain ⟨k, rfl, row⟩ := commaSeparated_run
    (f := fun param => param.default.toList.map .expression) (by simp) (parameter_run hs) hp
  obtain ⟨_, c₃, hc, h⟩ := bind_eq_ok.1 h
  obtain ⟨rfl, hk⟩ := expect_run hc
  cases h
  have := row.le
  refine ⟨k + 1, rfl, ⟨by omega, solid_of_kind hk (by simp)⟩, ?_⟩
  exact (row.widen_left (by simp) (Nat.le_succ i)).widen_right (Nat.le_succ k)

theorem procedure_run {keyword : ProcedureKind} {opener : Span} {decl : Procedure Extent}
    (h : procedure self keyword opener (.after base ts i) = .ok decl c') :
    ∃ j, c' = .after base ts j ∧ (i < j ∧ Solid ts (j - 1)) ∧
      Row ts (Laid ts) decl.pieces i j := by
  obtain ⟨params, c₁, hp, h⟩ := bind_eq_ok.1 h
  obtain ⟨k, rfl, ⟨hik, -⟩, row⟩ := parameters_run hs hp
  obtain ⟨returns, c₂, hr, h⟩ := bind_eq_ok.1 h
  obtain ⟨l, rfl, hl⟩ := after_run (Q := fun _ i j => i ≤ j)
    (fun h => ⟨_, expectWord_run h |>.1, Nat.le_succ _⟩) hr
  obtain ⟨body, c₃, hb, h⟩ := bind_eq_ok.1 h
  obtain ⟨m, rfl, lines⟩ := block_run hs hb
  obtain ⟨_, c₄, hc, h⟩ := bind_eq_ok.1 h
  obtain ⟨j, rfl, hmj, hsolid⟩ := close_run hc
  cases h
  have hkl : k ≤ l := by
    cases returns with
    | none => exact hl.ge
    | some _ => have := hl.2; omega
  have := lines.le
  refine ⟨j, rfl, ⟨by omega, hsolid⟩, row.append ?_ (by simp)⟩
  exact .statements hkl lines (.nil hmj.le)

end Procedures

section Collections

variable {α : Type} {f : α → List Piece} {item : Parser α}

theorem itemSeparator_run {more : Bool} (h : itemSeparator (.after base ts i) = .ok more c') :
    ∃ j, c' = .after base ts j ∧ i ≤ j := by
  simp only [itemSeparator, accept_bind, peekKind_bind, skipNewlines_bind] at h
  split at h
  · obtain ⟨j, hij, -, hj⟩ := skipNewlines_run base ts (i + 1)
    simp only [Cursor.next_after, Cursor.after_rest, hj] at h
    cases h
    exact ⟨j, rfl, by omega⟩
  · obtain ⟨j, hij, -, hj⟩ := skipNewlines_run base ts i
    simp only [Cursor.after_rest, hj] at h
    cases h
    exact ⟨j, rfl, hij⟩

theorem collectionItem_run {closing : TokenKind} {state : List α × Bool}
    {o : Option (List α × Bool)}
    (hi : ∀ {i a c'}, item (.after base ts i) = .ok a c' →
      ∃ j, c' = .after base ts j ∧ (i < j ∧ j ≤ ts.length) ∧ Row ts (Laid ts) (f a) i j)
    (h : collectionItem closing item state (.after base ts i) = .ok o c') :
    ∃ l k j, c' = .after base ts j ∧ i ≤ l ∧
      match o with
      | none => j = l
      | some state' => (l < k ∧ k ≤ ts.length ∧ k ≤ j) ∧
        ∃ a, state'.1 = a :: state.1 ∧ Row ts (Laid ts) (f a) l k := by
  simp only [collectionItem] at h
  split at h
  · cases h
    exact ⟨i, i, i, rfl, Nat.le_refl i, rfl⟩
  · obtain ⟨l, hl, -, heq⟩ := skipNewlines_run base ts i
    simp only [skipNewlines_bind, peekKind_bind, Cursor.after_rest, heq] at h
    split at h
    · cases h
      exact ⟨l, l, l, rfl, hl, rfl⟩
    · obtain ⟨a, c₁, ha, h⟩ := bind_eq_ok.1 h
      obtain ⟨k, rfl, ⟨hlk, hkt⟩, row⟩ := hi ha
      obtain ⟨more, c₂, hm, h⟩ := bind_eq_ok.1 h
      obtain ⟨j, rfl, hkj⟩ := itemSeparator_run hm
      cases h
      exact ⟨l, k, j, rfl, hl, ⟨hlk, hkt, hkj⟩, a, rfl, row⟩

theorem collectionItem_progress (closing : TokenKind)
    (hi : ∀ {base ts i a c'}, item (.after base ts i) = .ok a c' →
      ∃ j, c' = .after base ts j ∧ (i < j ∧ j ≤ ts.length) ∧ Row ts (Laid ts) (f a) i j)
    (state : List α × Bool) : StepProgress (collectionItem closing item state) := by
  intro c state' c' h
  rw [c.eq_after] at h
  obtain ⟨l, k, j, rfl, hl, ⟨hlk, hkt, hkj⟩, -⟩ := collectionItem_run hi h
  rw [Cursor.after_rest, List.length_drop]
  omega

theorem collection_run {closing : Symbol} (hclosing : closing ≠ .colon)
    (hf : ∀ a e, .opening e ∉ f a)
    (hi : ∀ {base ts i a c'}, item (.after base ts i) = .ok a c' →
      ∃ j, c' = .after base ts j ∧ (i < j ∧ j ≤ ts.length) ∧ Row ts (Laid ts) (f a) i j)
    {as : List α} (h : collection closing item (.after base ts i) = .ok as c') :
    ∃ j, c' = .after base ts j ∧ (i < j ∧ Solid ts (j - 1)) ∧
      Row ts (Laid ts) (as.flatMap f) i j := by
  obtain ⟨state, c₁, hrep, h⟩ := bind_eq_ok.1 h
  obtain ⟨k, rfl, row⟩ := repeatFrom_run (collectionItem_progress _ hi)
    (I := fun state k => Row ts (Laid ts) (state.1.reverse.flatMap f) i k)
    (Q := fun state k => Row ts (Laid ts) (state.1.reverse.flatMap f) i k)
    (fun state k c' row h => by
      obtain ⟨l, -, j, rfl, hl, rfl⟩ := collectionItem_run hi h
      exact ⟨_, rfl, row.widen_right hl⟩)
    (fun state k state' c' row h => by
      obtain ⟨l, m, j, rfl, hl, hlm, a, ha, item⟩ := collectionItem_run hi h
      refine ⟨j, rfl, ?_⟩
      rw [ha, List.reverse_cons, List.flatMap_append]
      refine row.append ?_ (by simpa using hf a)
      simpa using (item.widen_left (hf a) hl).widen_right hlm.2.2)
    (.nil (Nat.le_refl i)) hrep
  obtain ⟨_, c₂, hc, h⟩ := bind_eq_ok.1 h
  obtain ⟨rfl, hk⟩ := expect_run hc
  cases h
  have := row.le
  exact ⟨k + 1, rfl, ⟨by omega, solid_of_kind hk (by simpa using hclosing)⟩,
    row.widen_right (Nat.le_succ k)⟩

end Collections

section Expressions

variable {self : Recursion} (hs : self.Sound)
include hs

theorem entry_run {entry : Entry Extent}
    (h : Parser.entry self (.after base ts i) = .ok entry c') :
    ∃ j, c' = .after base ts j ∧ (i < j ∧ j ≤ ts.length) ∧
      Row ts (Laid ts) [.expression entry.value] i j := by
  simp only [Parser.entry, peekKind_bind] at h
  have hkey : ∃ c₁ key, c₁ = .after base ts (i + 1) ∧
      (expect (.symbol .colon) ":" >>= fun _ => do
        return Entry.mk key (← self.expression .lowest)) c₁ = .ok entry c' := by
    split at h
    · obtain ⟨key, c₁, hkey, h⟩ := bind_eq_ok.1 h
      obtain ⟨text, c₂, ht, hm⟩ := bind_eq_ok.1 hkey
      cases hm
      exact ⟨_, _, (expect_run ht).1, h⟩
    · obtain ⟨key, c₁, hkey, h⟩ := bind_eq_ok.1 h
      exact ⟨_, _, (expectWord_run hkey).1, h⟩
  obtain ⟨c₁, key, rfl, h⟩ := hkey
  obtain ⟨_, c₂, hc, h⟩ := bind_eq_ok.1 h
  obtain ⟨rfl, -⟩ := expect_run hc
  obtain ⟨value, c₃, hv, h⟩ := bind_eq_ok.1 h
  obtain ⟨j, rfl, laid⟩ := hs.expression hv
  cases h
  have := laid.lt
  exact ⟨j, rfl, ⟨by omega, laid.le_length⟩, .expression (by omega) laid (.nil (Nat.le_refl j))⟩

theorem enclosed_run {closing : Symbol} (hclosing : closing ≠ .colon) {inner : Expr Extent}
    (h : enclosed self closing (.after base ts i) = .ok inner c') :
    ∃ j, c' = .after base ts j ∧ (i < j ∧ Solid ts (j - 1)) ∧
      Row ts (Laid ts) [.expression inner] i j := by
  obtain ⟨k, hk, -, hskip⟩ := skipNewlines_run base ts (i + 1)
  simp only [enclosed, advance_bind, Cursor.next_after, skipNewlines_bind, Cursor.after_rest,
    hskip] at h
  obtain ⟨inner, c₁, he, h⟩ := bind_eq_ok.1 h
  obtain ⟨l, rfl, laid⟩ := hs.expression he
  obtain ⟨m, hm, -, hskip'⟩ := skipNewlines_run base ts l
  simp only [skipNewlines_bind, Cursor.after_rest, hskip'] at h
  obtain ⟨_, c₂, hc, h⟩ := bind_eq_ok.1 h
  obtain ⟨rfl, hkind⟩ := expect_run hc
  cases h
  have := laid.lt
  refine ⟨m + 1, rfl, ⟨by omega, solid_of_kind hkind (by simpa using hclosing)⟩, ?_⟩
  exact .expression (by omega) laid (.nil (by omega))

theorem argument_run {arg : Expr Extent} (h : argument self (.after base ts i) = .ok arg c') :
    ∃ j, c' = .after base ts j ∧ (i < j ∧ j ≤ ts.length) ∧
      Row ts (Laid ts) [.expression arg] i j := by
  obtain ⟨k, hk, -, hskip⟩ := skipNewlines_run base ts i
  simp only [argument, skipNewlines_bind, Cursor.after_rest, hskip] at h
  obtain ⟨arg, c₁, he, h⟩ := bind_eq_ok.1 h
  obtain ⟨l, rfl, laid⟩ := hs.expression he
  obtain ⟨j, hj, hlen, hskip'⟩ := skipNewlines_run base ts l
  simp only [skipNewlines_bind, Cursor.after_rest, hskip'] at h
  cases h
  have := laid.lt
  exact ⟨j, rfl, ⟨by omega, hlen laid.le_length⟩, .expression hk laid (.nil hj)⟩

theorem arguments_run {args : List (Expr Extent)}
    (h : arguments self (.after base ts i) = .ok args c') :
    ∃ j, c' = .after base ts j ∧ (i < j ∧ Solid ts (j - 1)) ∧
      Row ts (Laid ts) (args.map .expression) i j := by
  obtain ⟨k, hk, -, hskip⟩ := skipNewlines_run base ts (i + 1)
  simp only [arguments, advance_bind, Cursor.next_after, skipNewlines_bind, Cursor.after_rest,
    hskip] at h
  obtain ⟨args, c₁, ha, h⟩ := bind_eq_ok.1 h
  obtain ⟨l, rfl, row⟩ := commaSeparated_run (f := fun arg => [.expression arg]) (by simp)
    (argument_run hs) ha
  obtain ⟨_, c₂, hc, h⟩ := bind_eq_ok.1 h
  obtain ⟨rfl, hkind⟩ := expect_run hc
  cases h
  have := row.le
  refine ⟨l + 1, rfl, ⟨by omega, solid_of_kind hkind (by simp)⟩, ?_⟩
  rw [List.map_eq_flatMap]
  exact (row.widen_left (by simp) (by omega)).widen_right (Nat.le_succ l)

omit hs in
theorem leaf_run {t : Token} (ht : ts[i]? = some t)
    (hk : t.kind ≠ .newline ∧ t.kind ≠ .symbol .colon) {make : Extent → Expr Extent} {e : Expr Extent}
    (h : leaf t make (.after base ts i) = .ok e c')
    (hm : ∀ here, (make here).here = here ∧ (Node.expression (make here)).pieces = [] ∧
      (Node.expression (make here)).Spelled ts i) :
    ∃ j, c' = .after base ts j ∧ Laid ts (.expression e) i j := by
  simp only [leaf, advance_bind, Cursor.next_after, extentFrom_bind, pure_apply] at h
  cases h
  refine ⟨i + 1, rfl, laid_of_token base ht (Nat.lt_succ_self i)
    (solid_of_kind (kindAt_eq ht) hk) ?_ (hm _).2.2 (hm _).1⟩
  rw [(hm _).2.1]
  exact .nil (Nat.le_succ i)

omit hs in
theorem integerLiteral_run {t : Token} (ht : ts[i]? = some t)
    (hk : t.kind ≠ .newline ∧ t.kind ≠ .symbol .colon) {value : Nat} {e : Expr Extent}
    (h : integerLiteral t value (.after base ts i) = .ok e c') :
    ∃ j, c' = .after base ts j ∧ Laid ts (.expression e) i j := by
  simp only [integerLiteral, advance_bind, Cursor.next_after] at h
  split at h
  · simp only [extentFrom_bind, pure_apply] at h
    cases h
    exact ⟨i + 1, rfl, laid_of_token base ht (Nat.lt_succ_self i)
      (solid_of_kind (kindAt_eq ht) hk) (.nil (Nat.le_succ i)) trivial rfl⟩
  · cases h

theorem primary_run {e : Expr Extent} (h : primary self (.after base ts i) = .ok e c') :
    ∃ j, c' = .after base ts j ∧ Laid ts (.expression e) i j := by
  simp only [primary, peek_bind, Cursor.after_head?] at h
  cases ht : ts[i]? with
  | none => simp [ht] at h
  | some t =>
    simp only [ht] at h
    obtain ⟨p, hp, h⟩ := named_run h
    split at hp <;> subst hp
    case h_1 hk => exact integerLiteral_run ht (by simp [hk]) h
    case h_2 hk => exact integerLiteral_run ht (by simp [hk]) h
    case h_3 hk => exact leaf_run ht (by simp [hk]) h fun _ => ⟨rfl, rfl, trivial⟩
    case h_4 hk => exact leaf_run ht (by simp [hk]) h fun _ => ⟨rfl, rfl, trivial⟩
    case h_5 => cases h
    case h_6 hk => exact leaf_run ht (by simp [hk]) h fun _ => ⟨rfl, rfl, trivial⟩
    case h_7 hk => exact leaf_run ht (by simp [hk]) h fun _ => ⟨rfl, rfl, trivial⟩
    case h_8 hk => exact leaf_run ht (by simp [hk]) h fun _ => ⟨rfl, rfl, trivial⟩
    case h_9 hk =>
      exact leaf_run ht (by simp [hk]) h fun _ => ⟨rfl, rfl, by simp [Node.Spelled, ht]⟩
    case h_10 =>
      obtain ⟨inner, c₁, he, h⟩ := bind_eq_ok.1 h
      obtain ⟨j, rfl, ⟨hij, hsolid⟩, row⟩ := enclosed_run hs (by simp) he
      cases h
      exact ⟨j, rfl, laid_of_token base ht hij hsolid row trivial rfl⟩
    case h_11 =>
      simp only [advance_bind, Cursor.next_after] at h
      obtain ⟨items, c₁, hi, h⟩ := bind_eq_ok.1 h
      obtain ⟨j, rfl, ⟨hij, hsolid⟩, row⟩ := collection_run (f := fun e => [.expression e])
        (by simp) (by simp) (expression_row hs) hi
      cases h
      refine ⟨j, rfl, laid_of_token base ht (by omega) hsolid ?_ trivial rfl⟩
      rw [Node.pieces, List.map_eq_flatMap]
      exact row.widen_left (by simp) (Nat.le_succ i)
    case h_12 =>
      simp only [advance_bind, Cursor.next_after] at h
      obtain ⟨entries, c₁, hi, h⟩ := bind_eq_ok.1 h
      obtain ⟨j, rfl, ⟨hij, hsolid⟩, row⟩ := collection_run
        (f := fun entry => [.expression entry.value]) (by simp) (by simp) (entry_run hs) hi
      cases h
      refine ⟨j, rfl, laid_of_token base ht (by omega) hsolid ?_ trivial rfl⟩
      rw [Node.pieces, List.map_eq_flatMap]
      exact row.widen_left (by simp) (Nat.le_succ i)
    case h_13 =>
      simp only [advance_bind, Cursor.next_after] at h
      obtain ⟨decl, c₁, hd, h⟩ := bind_eq_ok.1 h
      obtain ⟨j, rfl, ⟨hij, hsolid⟩, row⟩ := procedure_run hs hd
      cases h
      exact ⟨j, rfl, laid_of_token base ht (by omega) hsolid
        (row.widen_left decl.opening_notMem_pieces (Nat.le_succ i)) trivial rfl⟩
    case h_14 =>
      simp only [advance_bind, Cursor.next_after] at h
      obtain ⟨decl, c₁, hd, h⟩ := bind_eq_ok.1 h
      obtain ⟨j, rfl, ⟨hij, hsolid⟩, row⟩ := procedure_run hs hd
      cases h
      exact ⟨j, rfl, laid_of_token base ht (by omega) hsolid
        (row.widen_left decl.opening_notMem_pieces (Nat.le_succ i)) trivial rfl⟩
    case h_15 => cases h

theorem postfixStep_run {object : Expr Extent} {o : Option (Expr Extent)}
    (h : postfixStep self object (.after base ts k) = .ok o c') :
    ∃ j, c' = .after base ts j ∧ match o with
      | none => j = k
      | some e => (k < j ∧ j ≤ ts.length) ∧
        ∀ i, Laid ts (.expression object) i k → Laid ts (.expression e) i j := by
  simp only [postfixStep, peekKind_bind, Cursor.after_kind?] at h
  obtain ⟨p, hp, h⟩ := named_run h
  split at hp <;> subst hp
  case h_1 =>
    obtain ⟨args, c₁, ha, h⟩ := bind_eq_ok.1 h
    obtain ⟨j, rfl, ⟨hkj, hsolid⟩, row⟩ := arguments_run hs ha
    cases h
    refine ⟨j, rfl, ⟨hkj, by have := hsolid.lt; omega⟩, fun i hobj => ?_⟩
    exact laid_of_node hobj (hobj.lt.trans hkj) hsolid
      (.expression (Nat.le_refl i) hobj row) trivial rfl
  case h_2 =>
    simp only [advance_bind, Cursor.next_after] at h
    obtain ⟨name, c₁, hn, h⟩ := bind_eq_ok.1 h
    obtain ⟨rfl, hsolid⟩ := expectWord_run hn
    cases h
    refine ⟨k + 2, rfl, ⟨by omega, hsolid.lt⟩, fun i hobj => ?_⟩
    exact laid_of_node hobj (by have := hobj.lt; omega) hsolid
      (.expression (Nat.le_refl i) hobj (.nil (by omega))) trivial rfl
  case h_3 =>
    obtain ⟨index, c₁, he, h⟩ := bind_eq_ok.1 h
    obtain ⟨j, rfl, ⟨hkj, hsolid⟩, row⟩ := enclosed_run hs (by simp) he
    cases h
    refine ⟨j, rfl, ⟨hkj, by have := hsolid.lt; omega⟩, fun i hobj => ?_⟩
    exact laid_of_node hobj (hobj.lt.trans hkj) hsolid
      (.expression (Nat.le_refl i) hobj row) trivial rfl
  case h_4 =>
    simp only [advance_bind, Cursor.next_after] at h
    obtain ⟨name, c₁, hn, h⟩ := bind_eq_ok.1 h
    obtain ⟨rfl, hsolid⟩ := expectWord_run hn
    cases h
    refine ⟨k + 2, rfl, ⟨by omega, hsolid.lt⟩, fun i hobj => ?_⟩
    exact laid_of_node hobj (by have := hobj.lt; omega) hsolid
      (.expression (Nat.le_refl i) hobj (.nil (by omega))) trivial rfl
  case h_5 =>
    cases h
    exact ⟨k, rfl, rfl⟩

theorem postfixStep_progress (object : Expr Extent) :
    StepProgress (postfixStep self object) := by
  intro c e c' h
  rw [c.eq_after] at h
  obtain ⟨j, rfl, ⟨hj, hl⟩, -⟩ := postfixStep_run hs h
  exact rest_length_lt hj hl

theorem operand_run {e : Expr Extent} (h : operand self (.after base ts i) = .ok e c') :
    ∃ j, c' = .after base ts j ∧ Laid ts (.expression e) i j := by
  obtain ⟨first, c₁, hf, h⟩ := bind_eq_ok.1 h
  obtain ⟨k, rfl, laid⟩ := primary_run hs hf
  refine repeatFrom_run (postfixStep_progress hs) (I := fun e k => Laid ts (.expression e) i k)
    (Q := fun e k => Laid ts (.expression e) i k) (fun e k c' laid h => ?_)
    (fun e k e' c' laid h => ?_) laid h
  · obtain ⟨j, rfl, hj⟩ := postfixStep_run hs h
    exact ⟨j, rfl, hj ▸ laid⟩
  · obtain ⟨j, rfl, -, hlaid⟩ := postfixStep_run hs h
    exact ⟨j, rfl, hlaid i laid⟩

theorem unary_run {e : Expr Extent} (h : unary self (.after base ts i) = .ok e c') :
    ∃ j, c' = .after base ts j ∧ Laid ts (.expression e) i j := by
  simp only [unary, peek_bind, Cursor.after_head?] at h
  cases ht : ts[i]? with
  | none => exact operand_run hs (by simpa [ht] using h)
  | some t =>
    simp only [ht] at h
    cases ho : UnaryOp.ofKind? t.kind with
    | none => exact operand_run hs (by simpa [ho] using h)
    | some op =>
      simp only [ho, advance_bind, Cursor.next_after] at h
      obtain ⟨inner, c₁, he, h⟩ := bind_eq_ok.1 h
      obtain ⟨j, rfl, laid⟩ := hs.expression he
      cases h
      have := laid.lt
      exact ⟨j, rfl, laid_of_token base ht (by omega) laid.solid
        (.expression (Nat.le_succ i) laid (.nil (Nat.le_refl j))) trivial rfl⟩

theorem binaryStep_run {min : Precedence} {left : Expr Extent} {o : Option (Expr Extent)}
    (h : binaryStep self min left (.after base ts k) = .ok o c') :
    ∃ j, c' = .after base ts j ∧ match o with
      | none => j = k
      | some e => (k < j ∧ j ≤ ts.length) ∧
        ∀ i, Laid ts (.expression left) i k → Laid ts (.expression e) i j := by
  simp only [binaryStep, peekKind_bind, Cursor.after_kind?] at h
  obtain ⟨p, hp, h⟩ := named_run h
  split at hp
  · split at hp <;> subst hp
    · cases h
      exact ⟨k, rfl, rfl⟩
    · simp only [advance_bind, Cursor.next_after] at h
      obtain ⟨right, c₁, he, h⟩ := bind_eq_ok.1 h
      obtain ⟨j, rfl, laid⟩ := hs.expression he
      cases h
      have := laid.lt
      refine ⟨j, rfl, ⟨by omega, laid.le_length⟩, fun i hleft => ?_⟩
      exact laid_of_node hleft (by have := hleft.lt; omega) laid.solid
        (.expression (Nat.le_refl i) hleft (.expression (Nat.le_succ k) laid
          (.nil (Nat.le_refl j)))) trivial rfl
  · subst hp
    cases h
    exact ⟨k, rfl, rfl⟩

theorem binaryStep_progress (min : Precedence) (left : Expr Extent) :
    StepProgress (binaryStep self min left) := by
  intro c e c' h
  rw [c.eq_after] at h
  obtain ⟨j, rfl, ⟨hj, hl⟩, -⟩ := binaryStep_run hs h
  exact rest_length_lt hj hl

theorem expression_run {min : Precedence} {e : Expr Extent}
    (h : Parser.expression self min (.after base ts i) = .ok e c') :
    ∃ j, c' = .after base ts j ∧ Laid ts (.expression e) i j := by
  obtain ⟨first, c₁, hf, h⟩ := bind_eq_ok.1 h
  obtain ⟨k, rfl, laid⟩ := unary_run hs hf
  refine repeatFrom_run (binaryStep_progress hs min) (I := fun e k => Laid ts (.expression e) i k)
    (Q := fun e k => Laid ts (.expression e) i k) (fun e k c' laid h => ?_)
    (fun e k e' c' laid h => ?_) laid h
  · obtain ⟨j, rfl, hj⟩ := binaryStep_run hs h
    exact ⟨j, rfl, hj ▸ laid⟩
  · obtain ⟨j, rfl, -, hlaid⟩ := binaryStep_run hs h
    exact ⟨j, rfl, hlaid i laid⟩

end Expressions

end BrightCoverage
