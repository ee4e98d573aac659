import Mathlib.Tactic.Common
import Mathlib.Order.Nat
import BrightCoverage.Text.Lines

/-! Marks and line indices agree: the position kept while reading a text is the one that the line
index of the whole text gives for the offset reached. -/

namespace BrightCoverage

theorem byteLength_append (u v : Text) : byteLength (u ++ v) = byteLength u + byteLength v := by
  induction u with
  | nil => simp [byteLength]
  | cons c u ih => simp only [List.cons_append, byteLength, ih]; omega

theorem byteLength_pos {u : Text} (h : u ≠ []) : 0 < byteLength u := by
  cases u with
  | nil => exact absurd rfl h
  | cons c u =>
    have := c.utf8Size_pos
    simp only [byteLength]
    omega

namespace Mark

theorem advance_append (m : Mark) (u v : Text) : m.advance (u ++ v) = (m.advance u).advance v := by
  simp [advance]

theorem next_offset (m : Mark) (c : Char) : (m.next c).offset = m.offset + c.utf8Size := by
  unfold next
  split <;> rfl

theorem advance_offset (m : Mark) (u : Text) :
    (m.advance u).offset = m.offset + byteLength u := by
  induction u generalizing m with
  | nil => rfl
  | cons c u ih =>
    rw [show m.advance (c :: u) = (m.next c).advance u from rfl, ih, next_offset, byteLength]
    omega

theorem offset_origin_advance (u : Text) : (origin.advance u).offset = byteLength u :=
  (origin.advance_offset u).trans (Nat.zero_add _)

theorem advance_position_of_notMem {m : Mark} {u : Text} (h : '\n' ∉ u) :
    (m.advance u).position = ⟨m.position.line, m.position.column + byteLength u⟩ := by
  induction u generalizing m with
  | nil => rfl
  | cons c u ih =>
    have hc : '\n' ≠ c := fun e => h (e ▸ List.mem_cons_self ..)
    have hu : '\n' ∉ u := fun e => h (List.mem_cons_of_mem _ e)
    rw [show m.advance (c :: u) = (m.next c).advance u from rfl, ih hu]
    simp only [next, if_neg hc.symm, byteLength, Position.mk.injEq, true_and]
    omega

end Mark

theorem startsAfterBreaks_append (o : Nat) (u v : Text) :
    startsAfterBreaks o (u ++ v)
      = startsAfterBreaks o u ++ startsAfterBreaks (o + byteLength u) v := by
  induction u generalizing o with
  | nil => rfl
  | cons c u ih =>
    simp only [List.cons_append, startsAfterBreaks, byteLength, ih, Nat.add_assoc]
    split <;> rfl

theorem startsAfterBreaks_bounds {o x : Nat} {u : Text} (h : x ∈ startsAfterBreaks o u) :
    o < x ∧ x ≤ o + byteLength u := by
  induction u generalizing o with
  | nil => cases h
  | cons c u ih =>
    have hc := c.utf8Size_pos
    have hrest : x ∈ startsAfterBreaks (o + c.utf8Size) u → o < x ∧ x ≤ o + byteLength (c :: u) := by
      intro h
      have := ih h
      simp only [byteLength]
      omega
    simp only [startsAfterBreaks] at h
    split at h
    · rcases List.mem_cons.1 h with rfl | h
      · simp only [byteLength]
        omega
      · exact hrest h
    · exact hrest h

/-- The position reached from a mark, by the line starts on the way. -/
theorem advance_position {m : Mark} (u : Text) (hm : m.position.column ≤ m.offset) :
    (m.advance u).position =
      ⟨m.position.line + (startsAfterBreaks m.offset u).length,
        (m.advance u).offset
          - (startsAfterBreaks m.offset u).getLastD (m.offset - m.position.column)⟩ := by
  induction u generalizing m with
  | nil =>
    show m.position = ⟨m.position.line, m.offset - (m.offset - m.position.column)⟩
    rw [Nat.sub_sub_self hm]
  | cons c u ih =>
    rw [show m.advance (c :: u) = (m.next c).advance u from rfl]
    have hnext : (m.next c).position.column ≤ (m.next c).offset := by
      unfold Mark.next
      split
      · exact Nat.zero_le _
      · exact Nat.add_le_add_right hm _
    rw [ih hnext, Mark.next_offset]
    simp only [startsAfterBreaks]
    by_cases hc : c = '\n'
    · simp only [Mark.next, if_pos hc, List.length_cons, List.getLastD_cons, Nat.sub_zero,
        Position.mk.injEq, and_true]
      omega
    · simp only [Mark.next, if_neg hc, Nat.add_sub_add_right]

theorem position_advance (u v : Text) :
    (LineIndex.ofText (u ++ v)).position (Mark.origin.advance u).offset
      = (Mark.origin.advance u).position := by
  have hoff := Mark.offset_origin_advance u
  have hbefore : (LineIndex.ofText (u ++ v)).starts.takeWhile (· ≤ byteLength u)
      = 0 :: startsAfterBreaks 0 u := by
    rw [LineIndex.ofText, startsAfterBreaks_append, Nat.zero_add, ← List.cons_append]
    rw [List.takeWhile_append_of_pos]
    · have hstop : (startsAfterBreaks (byteLength u) v).takeWhile (· ≤ byteLength u) = [] := by
        cases hs : startsAfterBreaks (byteLength u) v with
        | nil => rfl
        | cons x rest =>
          have := startsAfterBreaks_bounds (hs ▸ List.mem_cons_self .. : x ∈ _)
          rw [List.takeWhile_cons_of_neg (by simp only [decide_eq_true_eq]; omega)]
      rw [hstop, List.append_nil]
    · intro x hx
      rcases List.mem_cons.1 hx with rfl | hx
      · simp
      · have := startsAfterBreaks_bounds hx
        simp only [decide_eq_true_eq]
        omega
  rw [advance_position u (Nat.le_refl 0)]
  simp only [LineIndex.position, hoff, hbefore, List.length_cons, List.getLastD_cons]
  simp only [Mark.origin, Nat.sub_zero, Nat.add_comm]

end BrightCoverage
