import BrightCoverage.Proofs.StatementLayout

/-! The layout of a whole file. The parsers lay out what they read at every depth of nesting, and a
file that is read without an error is a list of statements over all of its tokens. -/

namespace BrightCoverage

open BrightCoverage.Parser

theorem sound_ofDepth (depth : Nat) : (Recursion.ofDepth depth).Sound := by
  induction depth with
  | zero =>
    exact ⟨fun h => absurd h expected_ne_ok, fun h => absurd h expected_ne_ok,
      fun h => absurd h expected_ne_ok⟩
  | succ depth ih => exact ⟨expression_run ih, statement_run ih, inlineElseIf_run ih⟩

theorem wholeStatement_run {self : Recursion} (hs : self.Sound) {base : Extent}
    {ts : List Token} {i : Nat} {s : Statement Extent} {c' : Cursor}
    (h : wholeStatement self (.after base ts i) = .ok s c') :
    ∃ j, c' = .after base ts j ∧ Laid ts (.statement s) i j := by
  obtain ⟨s, c₁, hst, h⟩ := bind_eq_ok.1 h
  obtain ⟨j, rfl, laid⟩ := hs.statement hst
  simp only [atStatementEnd_bind] at h
  split at h
  · cases h
    exact ⟨j, rfl, laid⟩
  · exact absurd h expected_ne_ok

theorem readStatements_lines {self : Recursion} (hs : self.Sound) {base : Extent}
    {ts : List Token} {rounds i : Nat} (hi : i ≤ ts.length) (hr : ts.length - i < rounds)
    (h : (readStatements self rounds (.after base ts i)).errors = []) :
    Lines ts (Laid ts) (readStatements self rounds (.after base ts i)).statements i ts.length := by
  induction rounds generalizing i with
  | zero => omega
  | succ rounds ih =>
    obtain ⟨a, gap, ha⟩ := skipSeparators_run base ts i
    have hal : a ≤ ts.length := by
      rcases Nat.eq_or_lt_of_le gap.le with rfl | hlt
      · exact hi
      · rcases gap.separators (a - 1) (by omega) (by omega) with hk | hk
        all_goals
          have := kindAt_lt hk
          omega
    simp only [readStatements, ha, Cursor.after_rest] at h ⊢
    by_cases hend : (ts.drop a).isEmpty
    · rw [if_pos hend] at h ⊢
      have hlen : ts.length ≤ a := by simpa using hend
      exact .nil (Nat.le_antisymm hal hlen ▸ gap)
    · rw [if_neg hend] at h ⊢
      rcases hw : wholeStatement self (.after base ts a) with ⟨s, c₁⟩ | ⟨e, c₁⟩
      · obtain ⟨b, rfl, laid⟩ := wholeStatement_run hs hw
        simp only [hw, Reading.addStatement] at h ⊢
        have := laid.lt
        have := laid.le_length
        have := gap.le
        exact .cons gap laid (ih laid.le_length (by omega) h)
      · simp [hw, Reading.addError] at h

theorem parseTokens_lines {ts : List Token} {program : List (Statement Extent)}
    (h : parseTokens ts = .ok program) : Lines ts (Laid ts) program 0 ts.length := by
  simp only [parseTokens] at h
  split at h
  · rename_i hnil
    cases h
    obtain ⟨-, herr⟩ := List.append_eq_nil_iff.1 hnil
    rw [Cursor.ofTokens, ← Cursor.after_zero] at herr ⊢
    exact readStatements_lines (sound_ofDepth _) (Nat.zero_le _) (by omega) herr
  · cases h

end BrightCoverage
