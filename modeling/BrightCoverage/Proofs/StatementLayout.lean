import BrightCoverage.Proofs.ExpressionLayout

/-! The layout of statements. A statement covers the tokens from its first keyword, or from the
operand it starts with, to the last token read; an `if` on one line may end with a colon, and
everything that ends with a keyword ends with the last word of it. -/

namespace BrightCoverage

open BrightCoverage.Parser

variable {base : Extent} {ts : List Token} {i j k : Nat} {c' : Cursor} {t : Token}

theorem lineEnds_of_atInlineEnd (h : (Cursor.after base ts i).atInlineEnd = true) :
    LineEnds ts i := by
  simp only [Cursor.atInlineEnd, Cursor.after_kind?] at h
  unfold LineEnds
  split at h <;> simp_all

section Branches

variable {self : Recursion} (hs : self.Sound)
include hs

theorem inlineItem_run {o : Option (Statement Extent)}
    (h : inlineItem self (.after base ts k) = .ok o c') :
    ∃ j, c' = .after base ts j ∧ match o with
      | none => j = k ∨ (j = k + 1 ∧ kindAt ts k = some (.symbol .colon) ∧ LineEnds ts (k + 1))
      | some s => kindAt ts k = some (.symbol .colon) ∧ Laid ts (.statement s) (k + 1) j := by
  simp only [inlineItem, accept_bind, Cursor.after_kind?, Cursor.next_after] at h
  split at h
  · rename_i hk
    simp only [if_true, get_bind] at h
    split at h
    · rename_i hend
      cases h
      exact ⟨k + 1, rfl, .inr ⟨rfl, hk, lineEnds_of_atInlineEnd hend⟩⟩
    · obtain ⟨s, c₁, hst, h⟩ := bind_eq_ok.1 h
      obtain ⟨j, rfl, laid⟩ := hs.statement hst
      cases h
      exact ⟨j, rfl, hk, laid⟩
  · simp only [Bool.false_eq_true, if_false] at h
    cases h
    exact ⟨k, rfl, .inl rfl⟩

theorem inlineItem_progress : StepProgress (inlineItem self) := by
  intro c s c' h
  rw [c.eq_after] at h
  obtain ⟨j, rfl, -, laid⟩ := inlineItem_run hs h
  exact rest_length_lt (by have := laid.lt; omega) laid.le_length

omit hs in
theorem colon_gap (h : kindAt ts k = some (.symbol .colon)) : Gap ts k (k + 1) := by
  refine ⟨Nat.le_succ k, fun x hx hx' => ?_⟩
  obtain rfl : x = k := by omega
  exact .inr h

theorem inlineStatements_run {body : List (Statement Extent)}
    (h : inlineStatements self (.after base ts i) = .ok body c') :
    ∃ j, c' = .after base ts j ∧ (i < j ∧ Solid ts (j - 1)) ∧ Lines ts (Laid ts) body i j := by
  obtain ⟨first, c₁, hf, h⟩ := bind_eq_ok.1 h
  obtain ⟨k, rfl, laid⟩ := hs.statement hf
  obtain ⟨rest, c₂, hm, h⟩ := bind_eq_ok.1 h
  cases h
  obtain ⟨j, rfl, lines, hj⟩ := many_run (inlineItem_progress hs)
    (Q := fun body k j => Lines ts (Laid ts) body k j ∧ (j = k ∨ Solid ts (j - 1)))
    (fun k c' h => by
      obtain ⟨j, rfl, hj | ⟨hj, hk, hend⟩⟩ := inlineItem_run hs h
      · exact ⟨j, rfl, .nil (hj ▸ .refl j), .inl hj⟩
      · exact ⟨j, rfl, hj ▸ .nil (colon_gap hk), .inr (hj ▸ solid_of_colon hk hend)⟩)
    (fun k s c' h => by
      obtain ⟨l, rfl, hk, laid⟩ := inlineItem_run hs h
      refine ⟨l, rfl, fun body j hq => ⟨.cons (colon_gap hk) laid hq.1, ?_⟩⟩
      rcases hq.2 with rfl | hsolid
      · exact .inr laid.solid
      · exact .inr hsolid) hm
  have := laid.lt
  have := lines.le
  refine ⟨j, rfl, ⟨by omega, ?_⟩, .cons (.refl i) laid lines⟩
  rcases hj with rfl | hsolid
  · exact laid.solid
  · exact hsolid

theorem inlineElse_run {body : Option (List (Statement Extent))}
    (h : inlineElse self (.after base ts k) = .ok body c') :
    ∃ j, c' = .after base ts j ∧ (j = k ∨ k < j ∧ Solid ts (j - 1)) ∧
      Row ts (Laid ts) (body.toList.map .statements) k j := by
  simp only [inlineElse, peekKind_bind, Cursor.after_kind?] at h
  obtain ⟨p, hp, h⟩ := named_run h
  split at hp <;> subst hp
  · rename_i hk
    obtain ⟨s, c₁, hst, h⟩ := bind_eq_ok.1 h
    obtain ⟨j, rfl, laid⟩ := hs.inlineElseIf hst hk
    cases h
    refine ⟨j, rfl, .inr ⟨laid.lt, laid.solid⟩, ?_⟩
    exact .statements (Nat.le_refl k) (.cons (.refl k) laid (.nil (.refl j)))
      (.nil (Nat.le_refl j))
  · simp only [advance_bind, Cursor.next_after] at h
    obtain ⟨body, c₁, hb, h⟩ := bind_eq_ok.1 h
    obtain ⟨j, rfl, ⟨hj, hsolid⟩, lines⟩ := inlineStatements_run hs hb
    cases h
    exact ⟨j, rfl, .inr ⟨by omega, hsolid⟩,
      .statements (Nat.le_succ k) lines (.nil (Nat.le_refl j))⟩
  · cases h
    exact ⟨k, rfl, .inl rfl, .nil (Nat.le_refl k)⟩

omit hs in
theorem keyword_solid
    (h : kindAt ts i = some (.keyword .ifKw) ∨ kindAt ts i = some (.keyword .elseIfKw)) :
    Solid ts i := by
  rcases h with h | h
  · exact solid_of_kind h (by simp)
  · exact solid_of_kind h (by simp)

theorem inlineBranch_run {condition : Expr Extent} {s : Statement Extent}
    (ht : ts[i]? = some t)
    (hi : kindAt ts i = some (.keyword .ifKw) ∨ kindAt ts i = some (.keyword .elseIfKw))
    (hc : Laid ts (.expression condition) (i + 1) k) {l : Nat} (hkl : k ≤ l)
    (h : inlineBranch self t condition (.after base ts l) = .ok s c') :
    ∃ j, c' = .after base ts j ∧ Laid ts (.statement s) i j := by
  obtain ⟨thenBody, c₁, hb, h⟩ := bind_eq_ok.1 h
  obtain ⟨m, rfl, ⟨hlm, hms⟩, lines⟩ := inlineStatements_run hs hb
  obtain ⟨elseBody, c₂, he, h⟩ := bind_eq_ok.1 h
  obtain ⟨j, rfl, hj, row⟩ := inlineElse_run hs he
  cases h
  have hik := hc.lt
  have hmj := row.le
  have hjs : Solid ts (j - 1) := by
    rcases hj with rfl | ⟨-, hjs⟩
    · exact hms
    · exact hjs
  refine ⟨j, rfl, laid_of_token base ht (by omega) hjs ?_ hi rfl⟩
  exact .opening (keyword_solid hi) hc (.statements hkl lines row)

theorem inlineElseIf_run {s : Statement Extent}
    (h : Parser.inlineElseIf self (.after base ts i) = .ok s c')
    (hi : kindAt ts i = some (.keyword .elseIfKw)) :
    ∃ j, c' = .after base ts j ∧ Laid ts (.statement s) i j := by
  simp only [Parser.inlineElseIf, peek_bind, Cursor.after_head?] at h
  cases ht : ts[i]? with
  | none =>
    simp only [ht] at h
    exact absurd h expected_ne_ok
  | some t =>
    simp only [ht, advance_bind, Cursor.next_after] at h
    obtain ⟨condition, c₁, hc, h⟩ := bind_eq_ok.1 h
    obtain ⟨k, rfl, laid⟩ := hs.expression hc
    obtain ⟨_, c₂, he, h⟩ := bind_eq_ok.1 h
    obtain ⟨rfl, -⟩ := expect_run he
    exact inlineBranch_run hs ht (.inr hi) laid (Nat.le_succ k) h

omit hs in
theorem elseIfKeyword_run {keyword : Extent} (ht : ts[k]? = some t)
    (hk : (Cursor.after base ts k).atElseIf = true)
    (h : elseIfKeyword t (.after base ts k) = .ok keyword c') :
    ∃ j, c' = .after base ts j ∧ k < j ∧ (∀ x, k ≤ x → x < j → Solid ts x) ∧
      keyword = extentBetween ts k j := by
  simp only [Cursor.atElseIf, Cursor.after_kind?, Cursor.after_kindAt?, Bool.or_eq_true,
    Bool.and_eq_true, decide_eq_true_eq] at hk
  simp only [elseIfKeyword, advance_bind, Cursor.next_after] at h
  have hkind := kindAt_eq ht
  split at h
  · rename_i helse
    simp only [advance_bind, Cursor.next_after, extentFrom_apply] at h
    cases h
    have hif : kindAt ts (k + 1) = some (.keyword .ifKw) := by
      rcases hk with hk | ⟨-, hk⟩
      · rw [hkind, helse] at hk
        cases hk
      · exact hk
    have hsolid : ∀ x, k ≤ x → x < k + 2 → Solid ts x := by
      intro x hx hx'
      obtain rfl | rfl : x = k ∨ x = k + 1 := by omega
      · exact solid_of_kind hkind (by simp [helse])
      · exact solid_of_kind hif (by simp)
    refine ⟨k + 2, rfl, by omega, hsolid, ?_⟩
    rw [last_eq (by omega) (hsolid (k + 1) (by omega) (by omega)), extentBetween, extentAt_eq ht]
  · rename_i helse
    cases h
    have hsolid : Solid ts k := by
      rcases hk with hk | ⟨hk, -⟩
      · exact solid_of_kind hk (by simp)
      · exact solid_of_kind hk (by simp)
    refine ⟨k + 1, rfl, Nat.lt_succ_self k, fun x hx hx' => ?_, ?_⟩
    · obtain rfl : x = k := by omega
      exact hsolid
    · rw [last_eq (by omega) hsolid, extentBetween, extentAt_eq ht]

theorem elseIf_run {o : Option (ElseIf Extent)}
    (h : elseIf self (.after base ts k) = .ok o c') :
    ∃ j, c' = .after base ts j ∧ match o with
      | none => j = k
      | some clause => (k < j ∧ k < ts.length) ∧ Row ts (Laid ts) clause.pieces k j := by
  simp only [elseIf, get_bind, Cursor.after_head?] at h
  obtain ⟨p, hp, h⟩ := named_run h
  split at hp <;> subst hp
  · rename_i t ht hk
    obtain ⟨keyword, c₁, hkw, h⟩ := bind_eq_ok.1 h
    obtain ⟨a, rfl, hka, hsolid, rfl⟩ := elseIfKeyword_run ht hk hkw
    obtain ⟨condition, c₂, hc, h⟩ := bind_eq_ok.1 h
    obtain ⟨b, rfl, laid⟩ := hs.expression hc
    simp only [accept_bind, Cursor.after_kind?, Cursor.next_after] at h
    obtain ⟨m, hbm, h⟩ : ∃ m, b ≤ m ∧ (block self Cursor.atBranchEnd >>= fun body =>
        pure (some (ElseIf.mk (extentBetween ts k a) condition body))) (.after base ts m)
          = .ok o c' := by
      split at h
      · exact ⟨b + 1, Nat.le_succ b, h⟩
      · exact ⟨b, Nat.le_refl b, h⟩
    obtain ⟨body, c₃, hb, h⟩ := bind_eq_ok.1 h
    obtain ⟨j, rfl, lines⟩ := block_run hs hb
    cases h
    have := laid.lt
    have := lines.le
    refine ⟨j, rfl, ⟨by omega, (hsolid k (Nat.le_refl k) hka).lt⟩, ?_⟩
    exact .clause (Nat.le_refl k) hka hsolid rfl laid (.statements hbm lines (.nil (Nat.le_refl j)))
  · cases h
    exact ⟨k, rfl, rfl⟩

theorem elseIf_progress : StepProgress (elseIf self) := by
  intro c clause c' h
  rw [c.eq_after] at h
  obtain ⟨j, rfl, ⟨hj, hl⟩, -⟩ := elseIf_run hs h
  simp only [Cursor.after_rest, List.length_drop]
  omega

theorem elseIfs_run {clauses : List (ElseIf Extent)}
    (h : many (elseIf self) (.after base ts k) = .ok clauses c') :
    ∃ j, c' = .after base ts j ∧ Row ts (Laid ts) (clauses.flatMap ElseIf.pieces) k j := by
  refine many_run (elseIf_progress hs)
    (Q := fun clauses k j => Row ts (Laid ts) (clauses.flatMap ElseIf.pieces) k j)
    (fun k c' h => ?_) (fun k clause c' h => ?_) h
  · obtain ⟨j, rfl, hj⟩ := elseIf_run hs h
    exact ⟨j, rfl, .nil hj.ge⟩
  · obtain ⟨l, rfl, -, row⟩ := elseIf_run hs h
    refine ⟨l, rfl, fun clauses j rows => ?_⟩
    rw [List.flatMap_cons]
    exact row.append rows (by simp [ElseIf.pieces])

theorem blockBranch_run {condition : Expr Extent} {s : Statement Extent}
    (ht : ts[i]? = some t)
    (hi : kindAt ts i = some (.keyword .ifKw) ∨ kindAt ts i = some (.keyword .elseIfKw))
    (hc : Laid ts (.expression condition) (i + 1) k) {l : Nat} (hkl : k ≤ l)
    (h : blockBranch self t condition (.after base ts l) = .ok s c') :
    ∃ j, c' = .after base ts j ∧ Laid ts (.statement s) i j := by
  obtain ⟨thenBody, c₁, hb, h⟩ := bind_eq_ok.1 h
  obtain ⟨m, rfl, lines⟩ := block_run hs hb
  obtain ⟨elseIfs, c₂, hes, h⟩ := bind_eq_ok.1 h
  obtain ⟨a, rfl, clauses⟩ := elseIfs_run hs hes
  obtain ⟨elseBody, c₃, he, h⟩ := bind_eq_ok.1 h
  obtain ⟨b, rfl, hbody⟩ := after_run (block_run hs) he
  obtain ⟨_, c₄, hcl, h⟩ := bind_eq_ok.1 h
  obtain ⟨j, rfl, hbj, hjs⟩ := close_run hcl
  cases h
  have row : Row ts (Laid ts) (elseBody.toList.map .statements) a j := by
    cases elseBody with
    | none => exact .nil (by have := hbody; omega)
    | some body => exact .statements (Nat.le_succ a) hbody.2 (.nil hbj.le)
  have := hc.lt
  have := lines.le
  have := clauses.le
  have := row.le
  have hij : i < j := by omega
  refine ⟨j, rfl, laid_of_token base ht hij hjs ?_ hi rfl⟩
  exact .opening (keyword_solid hi) hc (.statements hkl lines (clauses.append row (by simp)))

theorem branch_run {s : Statement Extent} (ht : ts[i]? = some t)
    (hi : kindAt ts i = some (.keyword .ifKw))
    (h : branch self t (.after base ts i) = .ok s c') :
    ∃ j, c' = .after base ts j ∧ Laid ts (.statement s) i j := by
  simp only [branch, advance_bind, Cursor.next_after] at h
  obtain ⟨condition, c₁, hc, h⟩ := bind_eq_ok.1 h
  obtain ⟨k, rfl, laid⟩ := hs.expression hc
  simp only [accept_bind, Cursor.after_kind?, Cursor.next_after] at h
  obtain ⟨l, hasThen, hkl, h⟩ : ∃ l hasThen, k ≤ l ∧ (do
      if (← get).atBlockForm then blockBranch self t condition
      else if hasThen = true then inlineBranch self t condition
      else expected "THEN" : Parser (Statement Extent)) (.after base ts l) = .ok s c' := by
    split at h
    · exact ⟨k + 1, true, Nat.le_succ k, h⟩
    · exact ⟨k, false, Nat.le_refl k, h⟩
  simp only [get_bind] at h
  split at h
  · exact blockBranch_run hs ht (.inl hi) laid hkl h
  · split at h
    · exact inlineBranch_run hs ht (.inl hi) laid hkl h
    · exact absurd h expected_ne_ok

end Branches

section Loops

variable {self : Recursion} (hs : self.Sound)
include hs

theorem loopEnd_run {α : Type} {b : Block} {atEnd : Cursor → Bool} {opener : Span}
    {make : List (Statement Extent) → Parser α} {a : α}
    (h : (block self atEnd >>= fun body => close b opener >>= fun _ => make body)
      (.after base ts k) = .ok a c') :
    ∃ m j body, (k ≤ m ∧ m < j ∧ Solid ts (j - 1)) ∧ Lines ts (Laid ts) body k m ∧
      make body (.after base ts j) = .ok a c' := by
  obtain ⟨body, c₁, hb, h⟩ := bind_eq_ok.1 h
  obtain ⟨m, rfl, lines⟩ := block_run hs hb
  obtain ⟨_, c₂, hc, h⟩ := bind_eq_ok.1 h
  obtain ⟨j, rfl, hmj, hsolid⟩ := close_run hc
  exact ⟨m, j, body, ⟨lines.le, hmj, hsolid⟩, lines, h⟩

theorem forEach_run {s : Statement Extent} (ht : ts[i]? = some t)
    (hi : kindAt ts i = some (.keyword .forKw))
    (h : forEach self t (.after base ts (i + 2)) = .ok s c') :
    ∃ j, c' = .after base ts j ∧ Laid ts (.statement s) i j := by
  obtain ⟨item, c₁, hv, h⟩ := bind_eq_ok.1 h
  obtain ⟨rfl, -⟩ := expect_run hv
  obtain ⟨_, c₂, hin, h⟩ := bind_eq_ok.1 h
  obtain ⟨rfl, -⟩ := expect_run hin
  obtain ⟨target, c₃, he, h⟩ := bind_eq_ok.1 h
  obtain ⟨k, rfl, laid⟩ := hs.expression he
  obtain ⟨m, j, body, ⟨hkm, hmj, hsolid⟩, lines, h⟩ := loopEnd_run hs h
  cases h
  have := laid.lt
  refine ⟨j, rfl, laid_of_token base ht (by omega) hsolid ?_ hi rfl⟩
  exact .expression (by omega) laid (.statements (Nat.le_refl k) lines (.nil hmj.le))

theorem countedLoop_run {s : Statement Extent} (ht : ts[i]? = some t)
    (hi : kindAt ts i = some (.keyword .forKw))
    (h : countedLoop self t (.after base ts (i + 1)) = .ok s c') :
    ∃ j, c' = .after base ts j ∧ Laid ts (.statement s) i j := by
  obtain ⟨counter, c₁, hv, h⟩ := bind_eq_ok.1 h
  obtain ⟨rfl, -⟩ := expect_run hv
  obtain ⟨_, c₂, heq, h⟩ := bind_eq_ok.1 h
  obtain ⟨rfl, -⟩ := expect_run heq
  obtain ⟨first, c₃, he, h⟩ := bind_eq_ok.1 h
  obtain ⟨k, rfl, start⟩ := hs.expression he
  obtain ⟨_, c₄, hto, h⟩ := bind_eq_ok.1 h
  obtain ⟨rfl, -⟩ := expect_run hto
  obtain ⟨last, c₅, he, h⟩ := bind_eq_ok.1 h
  obtain ⟨l, rfl, stop⟩ := hs.expression he
  obtain ⟨step, c₆, he, h⟩ := bind_eq_ok.1 h
  obtain ⟨n, rfl, hstep⟩ := after_run hs.expression he
  obtain ⟨m, j, body, ⟨hkm, hmj, hsolid⟩, lines, h⟩ := loopEnd_run hs h
  cases h
  have row : Row ts (Laid ts) (step.toList.map .expression) l n := by
    cases step with
    | none => exact .nil hstep.ge
    | some e => exact .expression (Nat.le_succ l) hstep.2 (.nil (Nat.le_refl n))
  have := start.lt
  have := stop.lt
  have := row.le
  refine ⟨j, rfl, laid_of_token base ht (by omega) hsolid ?_ hi rfl⟩
  refine .expression (by omega) start (.expression (Nat.le_succ k) stop (row.append ?_ (by simp)))
  exact .statements (Nat.le_refl n) lines (.nil hmj.le)

theorem forLoop_run {s : Statement Extent} (ht : ts[i]? = some t)
    (hi : kindAt ts i = some (.keyword .forKw))
    (h : forLoop self t (.after base ts i) = .ok s c') :
    ∃ j, c' = .after base ts j ∧ Laid ts (.statement s) i j := by
  simp only [forLoop, advance_bind, Cursor.next_after, accept_bind] at h
  split at h
  · exact forEach_run hs ht hi h
  · exact countedLoop_run hs ht hi h

theorem whileLoop_run {s : Statement Extent} (ht : ts[i]? = some t)
    (hi : kindAt ts i = some (.keyword .whileKw))
    (h : whileLoop self t (.after base ts i) = .ok s c') :
    ∃ j, c' = .after base ts j ∧ Laid ts (.statement s) i j := by
  simp only [whileLoop, advance_bind, Cursor.next_after] at h
  obtain ⟨condition, c₁, he, h⟩ := bind_eq_ok.1 h
  obtain ⟨k, rfl, laid⟩ := hs.expression he
  obtain ⟨m, j, body, ⟨hkm, hmj, hsolid⟩, lines, h⟩ := loopEnd_run hs h
  cases h
  have := laid.lt
  refine ⟨j, rfl, laid_of_token base ht (by omega) hsolid ?_ hi rfl⟩
  exact .expression (Nat.le_succ i) laid (.statements (Nat.le_refl k) lines (.nil hmj.le))

end Loops

section Directives

variable {self : Recursion} (hs : self.Sound)
include hs

omit hs in
theorem directive_solid {d : Directive} (h : (ts[k]?).bind Directive.ofToken? = some d) :
    Solid ts k := by
  obtain ⟨t, ht, hd⟩ := Option.bind_eq_some_iff.1 h
  simp only [Directive.ofToken?] at hd
  split at hd
  · rename_i hk
    exact solid_of_kind (kindAt_eq ht) (by simp [hk])
  · cases hd

omit hs in
theorem next_solid {kind : DirectiveKind}
    (h : Directive.next? (.after base ts k) = some kind) : Solid ts k := by
  simp only [Directive.next?, Cursor.after_head?] at h
  obtain ⟨d, hd, -⟩ := Option.bind_eq_some_iff.1 h
  exact directive_solid hd

theorem compileElseIf_run {o : Option (CompileElseIf Extent)}
    (h : compileElseIf self (.after base ts k) = .ok o c') :
    ∃ j, c' = .after base ts j ∧ match o with
      | none => j = k
      | some clause => (k < j ∧ k < ts.length) ∧ Lines ts (Laid ts) clause.body (k + 1) j := by
  simp only [compileElseIf, peek_bind, Cursor.after_head?] at h
  obtain ⟨p, hp, h⟩ := named_run h
  split at hp <;> subst hp
  · rename_i hd
    simp only [advance_bind, Cursor.next_after] at h
    obtain ⟨body, c₁, hb, h⟩ := bind_eq_ok.1 h
    obtain ⟨j, rfl, lines⟩ := block_run hs hb
    cases h
    exact ⟨j, rfl, ⟨lines.le, (directive_solid hd).lt⟩, lines⟩
  · cases h
    exact ⟨k, rfl, rfl⟩

theorem compileElseIf_progress : StepProgress (compileElseIf self) := by
  intro c clause c' h
  rw [c.eq_after] at h
  obtain ⟨j, rfl, ⟨hj, hl⟩, -⟩ := compileElseIf_run hs h
  simp only [Cursor.after_rest, List.length_drop]
  omega

theorem compileElseIfs_run {clauses : List (CompileElseIf Extent)}
    (h : many (compileElseIf self) (.after base ts k) = .ok clauses c') :
    ∃ j, c' = .after base ts j ∧
      Row ts (Laid ts) (clauses.map fun clause => .statements clause.body) k j := by
  refine many_run (compileElseIf_progress hs)
    (Q := fun clauses k j =>
      Row ts (Laid ts) (clauses.map fun clause => .statements clause.body) k j)
    (fun k c' h => ?_) (fun k clause c' h => ?_) h
  · obtain ⟨j, rfl, hj⟩ := compileElseIf_run hs h
    exact ⟨j, rfl, .nil hj.ge⟩
  · obtain ⟨l, rfl, -, lines⟩ := compileElseIf_run hs h
    exact ⟨l, rfl, fun clauses j rows => .statements (Nat.le_succ k) lines rows⟩

theorem compileElse_run {body : Option (List (Statement Extent))}
    (h : compileElse self (.after base ts k) = .ok body c') :
    ∃ j, c' = .after base ts j ∧ Row ts (Laid ts) (body.toList.map .statements) k j := by
  simp only [compileElse, get_bind] at h
  split at h
  · simp only [advance_bind, Cursor.next_after] at h
    obtain ⟨body, c₁, hb, h⟩ := bind_eq_ok.1 h
    obtain ⟨j, rfl, lines⟩ := block_run hs hb
    cases h
    exact ⟨j, rfl, .statements (Nat.le_succ k) lines (.nil (Nat.le_refl j))⟩
  · cases h
    exact ⟨k, rfl, .nil (Nat.le_refl k)⟩

theorem compileIf_run {s : Statement Extent} {condition : String} (ht : ts[i]? = some t)
    (h : compileIf self t condition (.after base ts (i + 1)) = .ok s c') :
    ∃ j, c' = .after base ts j ∧ Laid ts (.statement s) i j := by
  obtain ⟨thenBody, c₁, hb, h⟩ := bind_eq_ok.1 h
  obtain ⟨k, rfl, lines⟩ := block_run hs hb
  obtain ⟨elseIfs, c₂, hes, h⟩ := bind_eq_ok.1 h
  obtain ⟨l, rfl, clauses⟩ := compileElseIfs_run hs hes
  obtain ⟨elseBody, c₃, he, h⟩ := bind_eq_ok.1 h
  obtain ⟨m, rfl, row⟩ := compileElse_run hs he
  simp only [get_bind] at h
  obtain ⟨p, hp, h⟩ := named_run h
  split at hp <;> subst hp
  · rename_i hd
    cases h
    have := lines.le
    have := clauses.le
    have := row.le
    refine ⟨m + 1, by rw [Cursor.next_after], ?_⟩
    refine laid_of_token base ht (by omega) (next_solid hd) ?_ trivial (by rw [Cursor.next_after]; rfl)
    exact .statements (Nat.le_succ i) lines
      ((clauses.append row (by simp)).widen_right (Nat.le_succ m))
  · exact absurd h expected_ne_ok
  · cases h

theorem directive_run {s : Statement Extent} (ht : ts[i]? = some t) (hk : t.kind = .directive)
    (h : directive self t (.after base ts i) = .ok s c') :
    ∃ j, c' = .after base ts j ∧ Laid ts (.statement s) i j := by
  have hsolid : Solid ts i := solid_of_kind (kindAt_eq ht) (by simp [hk])
  simp only [directive, advance_bind, Cursor.next_after] at h
  obtain ⟨p, hp, h⟩ := named_run h
  split at hp <;> subst hp
  · exact compileIf_run hs ht h
  all_goals
    cases h
    try exact ⟨i + 1, rfl, laid_of_token base ht (Nat.lt_succ_self i) hsolid (.nil (Nat.le_succ i))
      trivial rfl⟩

end Directives

section Simple

variable {self : Recursion} (hs : self.Sound)
include hs

omit hs in
theorem separateLast_pieces (separator : PrintSeparator) (items : List (PrintItem Extent)) :
    (separateLast separator items).map (fun item => Piece.expression item.value)
      = items.map fun item => .expression item.value := by
  cases items with
  | nil => rfl
  | cons item items => cases item; rfl

theorem printStep_run {items : List (PrintItem Extent)} {o : Option (List (PrintItem Extent))}
    (h : printStep self items (.after base ts k) = .ok o c') :
    ∃ j, c' = .after base ts j ∧ match o with
      | none => j = k
      | some items' => (k < j ∧ Solid ts (j - 1)) ∧
        ∀ i, Row ts (Laid ts) (items.reverse.map fun item => .expression item.value) i k →
          Row ts (Laid ts) (items'.reverse.map fun item => .expression item.value) i j := by
  simp only [printStep, atStatementEnd_bind] at h
  split at h
  · cases h
    exact ⟨k, rfl, rfl⟩
  · simp only [peekKind_bind, Cursor.after_kind?] at h
    obtain ⟨p, hp, h⟩ := named_run h
    split at hp <;> subst hp
    · rename_i hsep
      obtain ⟨kind, hk, hkind⟩ := Option.bind_eq_some_iff.1 hsep
      simp only [advance_bind, Cursor.next_after] at h
      cases h
      refine ⟨k + 1, rfl, ⟨Nat.lt_succ_self k, solid_of_kind hk ?_⟩, fun i row => ?_⟩
      · constructor <;> rintro rfl <;> cases hkind
      · rw [List.map_reverse, separateLast_pieces, ← List.map_reverse]
        exact row.widen_right (Nat.le_succ k)
    · obtain ⟨value, c₁, hv, h⟩ := bind_eq_ok.1 h
      obtain ⟨j, rfl, laid⟩ := hs.expression hv
      cases h
      refine ⟨j, rfl, ⟨laid.lt, laid.solid⟩, fun i row => ?_⟩
      rw [List.reverse_cons, List.map_append]
      exact row.append (.expression (Nat.le_refl k) laid (.nil (Nat.le_refl j))) (by simp)

theorem printStep_progress (items : List (PrintItem Extent)) :
    StepProgress (printStep self items) := by
  intro c items' c' h
  rw [c.eq_after] at h
  obtain ⟨j, rfl, ⟨hj, hsolid⟩, -⟩ := printStep_run hs h
  exact rest_length_lt hj (by have := hsolid.lt; omega)

theorem print_run {s : Statement Extent} (ht : ts[i]? = some t)
    (hi : kindAt ts i = some (.keyword .printKw) ∨ kindAt ts i = some (.symbol .question))
    (h : print self t (.after base ts i) = .ok s c') :
    ∃ j, c' = .after base ts j ∧ Laid ts (.statement s) i j := by
  have hfirst : Solid ts i := by
    rcases hi with hi | hi
    · exact solid_of_kind hi (by simp)
    · exact solid_of_kind hi (by simp)
  simp only [print, advance_bind, Cursor.next_after] at h
  obtain ⟨items, c₁, hrep, h⟩ := bind_eq_ok.1 h
  obtain ⟨j, rfl, ⟨hij, hsolid⟩, row⟩ := repeatFrom_run (printStep_progress hs)
    (I := fun items k => (i < k ∧ Solid ts (k - 1)) ∧
      Row ts (Laid ts) (items.reverse.map fun item => .expression item.value) i k)
    (Q := fun items k => (i < k ∧ Solid ts (k - 1)) ∧
      Row ts (Laid ts) (items.reverse.map fun item => .expression item.value) i k)
    (fun items k c' hrow h => by
      obtain ⟨j, rfl, hj⟩ := printStep_run hs h
      exact ⟨j, rfl, hj ▸ hrow⟩)
    (fun items k items' c' hrow h => by
      obtain ⟨j, rfl, ⟨hkj, hsolid⟩, hrows⟩ := printStep_run hs h
      exact ⟨j, rfl, ⟨by omega, hsolid⟩, hrows i hrow.2⟩)
    ⟨⟨Nat.lt_succ_self i, hfirst⟩, .nil (Nat.le_succ i)⟩ hrep
  cases h
  exact ⟨j, rfl, laid_of_token base ht hij hsolid row hi rfl⟩

omit hs in
theorem laid_of_pair {s : Statement Extent} (ht : ts[i]? = some t) (hsolid : Solid ts (i + 1))
    (hp : (Node.statement s).pieces = []) (hsp : (Node.statement s).Spelled ts i)
    (he : s.here = t.extent.through (Cursor.after base ts (i + 2)).last) :
    Laid ts (.statement s) i (i + 2) := by
  refine laid_of_token base ht (by omega) hsolid ?_ hsp he
  rw [hp]
  exact .nil (by omega)

omit hs in
theorem laid_of_single {s : Statement Extent} (ht : ts[i]? = some t) (hsolid : Solid ts i)
    (hp : (Node.statement s).pieces = []) (hsp : (Node.statement s).Spelled ts i)
    (he : s.here = t.extent.through (Cursor.after base ts (i + 1)).last) :
    Laid ts (.statement s) i (i + 1) := by
  refine laid_of_token base ht (Nat.lt_succ_self i) hsolid ?_ hsp he
  rw [hp]
  exact .nil (Nat.le_succ i)

omit hs in
theorem assignTo_run {s : Statement Extent} {target value : Expr Extent} {op : AssignOp}
    (hi : kindAt ts i = some .identifier) (htarget : Laid ts (.expression target) i k)
    (hvalue : Laid ts (.expression value) (k + 1) j)
    (h : assignTo (target.here.through (Cursor.after base ts j).last) target op value
      (.after base ts j) = .ok s c') :
    c' = .after base ts j ∧ Laid ts (.statement s) i j := by
  have hij : i < j := by
    have := htarget.lt
    have := hvalue.lt
    omega
  have hrow : Row ts (Laid ts) [.expression value] k j :=
    .expression (Nat.le_succ k) hvalue (.nil (Nat.le_refl j))
  cases target
  case identifier =>
    cases h
    exact ⟨rfl, laid_of_node htarget hij hvalue.solid
      (hrow.widen_left (by simp) htarget.lt.le) hi rfl⟩
  case member =>
    cases h
    exact ⟨rfl, laid_of_node htarget hij hvalue.solid
      (htarget.row.append hrow (by simp)) hi rfl⟩
  case index =>
    cases h
    exact ⟨rfl, laid_of_node htarget hij hvalue.solid
      (htarget.row.append hrow (by simp)) hi rfl⟩
  all_goals cases h

theorem operandStatement_run {s : Statement Extent} (hi : kindAt ts i = some .identifier)
    (h : operandStatement self (.after base ts i) = .ok s c') :
    ∃ j, c' = .after base ts j ∧ Laid ts (.statement s) i j := by
  obtain ⟨target, c₁, ho, h⟩ := bind_eq_ok.1 h
  obtain ⟨k, rfl, htarget⟩ := operand_run hs ho
  simp only [peekKind_bind, Cursor.after_kind?] at h
  obtain ⟨p, hp, h⟩ := named_run h
  have hik := htarget.lt
  split at hp
  · subst hp
    simp only [advance_bind, Cursor.next_after] at h
    obtain ⟨value, c₂, hv, h⟩ := bind_eq_ok.1 h
    obtain ⟨j, rfl, hvalue⟩ := hs.expression hv
    simp only [extentFrom_bind] at h
    exact ⟨j, assignTo_run hi htarget hvalue h⟩
  · split at hp <;> subst hp
    · rename_i hk
      simp only [Bool.or_eq_true, decide_eq_true_eq] at hk
      simp only [advance_bind, Cursor.next_after, extentFrom_bind] at h
      cases h
      have hsolid : Solid ts k := by
        rcases hk with hk | hk
        · exact solid_of_kind hk (by simp)
        · exact solid_of_kind hk (by simp)
      exact ⟨k + 1, rfl, laid_of_node htarget (by omega) hsolid
        (.expression (Nat.le_refl i) htarget (.nil (Nat.le_succ k))) trivial rfl⟩
    · simp only [callStatement, peek_bind] at h
      obtain ⟨p, hp, h⟩ := named_run h
      split at hp <;> subst hp
      · cases h
        exact ⟨k, rfl, laid_of_node htarget hik htarget.solid
          (.expression (Nat.le_refl i) htarget (.nil (Nat.le_refl k))) hi rfl⟩
      · cases h
      · cases h

theorem giveBack_run {s : Statement Extent} (ht : ts[i]? = some t)
    (hi : kindAt ts i = some (.keyword .returnKw))
    (h : giveBack self t (.after base ts i) = .ok s c') :
    ∃ j, c' = .after base ts j ∧ Laid ts (.statement s) i j := by
  simp only [giveBack, advance_bind, Cursor.next_after, atStatementEnd_bind] at h
  split at h
  · cases h
    exact ⟨i + 1, rfl, laid_of_single ht (solid_of_kind hi (by simp)) rfl hi rfl⟩
  · obtain ⟨value, c₁, hv, h⟩ := bind_eq_ok.1 h
    obtain ⟨j, rfl, laid⟩ := hs.expression hv
    cases h
    exact ⟨j, rfl, laid_of_token base ht (by have := laid.lt; omega) laid.solid
      (.expression (Nat.le_succ i) laid (.nil (Nat.le_refl j))) hi rfl⟩

omit hs in
theorem exitedLoop_run {loop : LoopKind} (h : exitedLoop (.after base ts k) = .ok loop c') :
    c' = .after base ts (k + 1) ∧ Solid ts k := by
  simp only [exitedLoop, accept_bind, Cursor.after_kind?, Cursor.next_after] at h
  split at h
  · rename_i hk
    cases h
    exact ⟨rfl, solid_of_kind hk (by simp)⟩
  · simp only [Bool.false_eq_true, if_false, accept_bind, Cursor.after_kind?,
      Cursor.next_after] at h
    split at h
    · rename_i hk
      cases h
      exact ⟨rfl, solid_of_kind hk (by simp)⟩
    · exact absurd h expected_ne_ok

omit hs in
theorem exit_run {s : Statement Extent} (ht : ts[i]? = some t) (hi : Solid ts i)
    (h : exit t (.after base ts i) = .ok s c') :
    ∃ j, c' = .after base ts j ∧ Laid ts (.statement s) i j := by
  simp only [exit, advance_bind, Cursor.next_after] at h
  split at h
  · cases h
    exact ⟨i + 1, rfl, laid_of_single ht hi rfl trivial rfl⟩
  · obtain ⟨loop, c₁, hl, h⟩ := bind_eq_ok.1 h
    obtain ⟨rfl, hsolid⟩ := exitedLoop_run hl
    cases h
    exact ⟨i + 2, rfl, laid_of_pair ht hsolid rfl trivial rfl⟩

theorem dim_run {s : Statement Extent} (ht : ts[i]? = some t)
    (h : dim self t (.after base ts i) = .ok s c') :
    ∃ j, c' = .after base ts j ∧ Laid ts (.statement s) i j := by
  simp only [dim, advance_bind, Cursor.next_after] at h
  obtain ⟨name, c₁, hn, h⟩ := bind_eq_ok.1 h
  obtain ⟨rfl, -⟩ := expect_run hn
  obtain ⟨_, c₂, ho, h⟩ := bind_eq_ok.1 h
  obtain ⟨rfl, -⟩ := expect_run ho
  obtain ⟨size, c₃, he, h⟩ := bind_eq_ok.1 h
  obtain ⟨k, rfl, first⟩ := hs.expression he
  obtain ⟨sizes, c₄, hm, h⟩ := bind_eq_ok.1 h
  obtain ⟨l, rfl, rest⟩ := commaItems_run (f := fun e => [.expression e]) (by simp)
    (expression_row hs) hm
  obtain ⟨_, c₅, hc, h⟩ := bind_eq_ok.1 h
  obtain ⟨rfl, hk⟩ := expect_run hc
  cases h
  have := first.lt
  have := rest.le
  refine ⟨l + 1, rfl, laid_of_token base ht (by omega) (solid_of_kind hk (by simp)) ?_ trivial rfl⟩
  rw [← List.map_eq_flatMap] at rest
  exact .expression (by omega) first (rest.widen_right (Nat.le_succ l))

theorem namedProcedure_run {s : Statement Extent} {keyword : ProcedureKind}
    (ht : ts[i]? = some t) (h : namedProcedure self keyword t (.after base ts i) = .ok s c') :
    ∃ j, c' = .after base ts j ∧ Laid ts (.statement s) i j := by
  simp only [namedProcedure, advance_bind, Cursor.next_after] at h
  obtain ⟨name, c₁, hn, h⟩ := bind_eq_ok.1 h
  obtain ⟨rfl, -⟩ := expect_run hn
  obtain ⟨decl, c₂, hd, h⟩ := bind_eq_ok.1 h
  obtain ⟨j, rfl, ⟨hij, hsolid⟩, row⟩ := procedure_run hs hd
  cases h
  exact ⟨j, rfl, laid_of_token base ht (by omega) hsolid
    (row.widen_left decl.opening_notMem_pieces (by omega)) trivial rfl⟩

theorem statement_run {s : Statement Extent}
    (h : Parser.statement self (.after base ts i) = .ok s c') :
    ∃ j, c' = .after base ts j ∧ Laid ts (.statement s) i j := by
  simp only [Parser.statement, peek_bind, Cursor.after_head?] at h
  cases ht : ts[i]? with
  | none => simp [ht] at h
  | some t =>
    simp only [ht] at h
    obtain ⟨p, hp, h⟩ := named_run h
    have hsolid : t.kind ≠ .newline ∧ t.kind ≠ .symbol .colon → Solid ts i :=
      solid_of_kind (kindAt_eq ht)
    have hkind : ∀ {k}, t.kind = k → kindAt ts i = some k := fun hk => hk ▸ kindAt_eq ht
    split at hp <;> subst hp
    case h_1 hk => exact print_run hs ht (.inl (hkind hk)) h
    case h_2 hk => exact print_run hs ht (.inr (hkind hk)) h
    case h_3 hk => exact branch_run hs ht (hkind hk) h
    case h_4 hk => exact forLoop_run hs ht (hkind hk) h
    case h_5 hk => exact whileLoop_run hs ht (hkind hk) h
    case h_6 =>
      simp only [goto, advance_bind, Cursor.next_after] at h
      obtain ⟨name, c₁, hn, h⟩ := bind_eq_ok.1 h
      obtain ⟨rfl, hk⟩ := expect_run hn
      cases h
      exact ⟨i + 2, rfl, laid_of_pair ht (solid_of_kind hk (by simp)) rfl trivial rfl⟩
    case h_7 hk => exact giveBack_run hs ht (hkind hk) h
    case h_8 hk => exact exit_run ht (hsolid (by simp [hk])) h
    case h_9 hk => exact exit_run ht (hsolid (by simp [hk])) h
    case h_10 hk =>
      simp only [endProgram, advance_bind, Cursor.next_after, extentFrom_bind, peek_bind] at h
      obtain ⟨p, hp, h⟩ := named_run h
      split at hp
      · split at hp <;> subst hp <;> cases h
        exact ⟨i + 1, rfl, laid_of_single ht (hsolid (by simp [hk])) rfl trivial rfl⟩
      · subst hp
        cases h
        exact ⟨i + 1, rfl, laid_of_single ht (hsolid (by simp [hk])) rfl trivial rfl⟩
    case h_11 hk =>
      cases h
      exact ⟨i + 1, by rw [Cursor.next_after], laid_of_single ht (hsolid (by simp [hk])) rfl trivial
        (by rw [Cursor.next_after]; rfl)⟩
    case h_12 => exact namedProcedure_run hs ht h
    case h_13 => exact namedProcedure_run hs ht h
    case h_14 => exact dim_run hs ht h
    case h_15 =>
      simp only [library, advance_bind, Cursor.next_after] at h
      obtain ⟨path, c₁, hn, h⟩ := bind_eq_ok.1 h
      obtain ⟨rfl, hk⟩ := expect_run hn
      cases h
      exact ⟨i + 2, rfl, laid_of_pair ht (solid_of_kind hk (by simp)) rfl trivial rfl⟩
    case h_16 hk => exact directive_run hs ht hk h
    case h_17 hk =>
      simp only [get_bind] at h
      split at h
      · rename_i hl
        simp only [atLabel, Cursor.after_kindAt?, Bool.and_eq_true, Bool.or_eq_true,
          decide_eq_true_eq] at hl
        simp only [label, advance_bind, Cursor.next_after, extentFrom_bind, pure_apply] at h
        cases h
        have hend : LineEnds ts (i + 2) := by
          unfold LineEnds
          rcases hl.2 with h | h <;> simp [h]
        exact ⟨i + 2, rfl, laid_of_pair ht (solid_of_colon hl.1 hend) rfl trivial rfl⟩
      · exact operandStatement_run hs (hkind hk) h
    case h_18 => cases h
    case h_19 => cases h

end Simple

end BrightCoverage
