import BrightCoverage.Coverage.Instrument
import BrightCoverage.Proofs.Positions

/-! Texts cut into pieces, at every mark of a kind or at byte offsets. Where a text is put together
from the pieces, the cuts give them back. -/

namespace BrightCoverage

section Marks

variable {mark : Char} {s : Text}

theorem cutAt_ne_nil (mark : Char) (s : Text) : cutAt mark s ≠ [] := by
  cases s with
  | nil => simp [cutAt]
  | cons c rest =>
    unfold cutAt
    split
    · simp
    · split <;> simp

theorem cutAt_of_notMem (h : mark ∉ s) : cutAt mark s = [s] := by
  induction s with
  | nil => rfl
  | cons c rest ih =>
    rw [List.mem_cons, not_or] at h
    rw [cutAt, if_neg (Ne.symm h.1), ih h.2]

theorem cutAt_append (mark : Char) (s t : Text) :
    cutAt mark (s ++ mark :: t) = cutAt mark s ++ cutAt mark t := by
  induction s with
  | nil => simp [cutAt]
  | cons c rest ih =>
    rw [List.cons_append, cutAt, cutAt, ih]
    split
    · rfl
    · cases hrest : cutAt mark rest with
      | nil => exact absurd hrest (cutAt_ne_nil mark rest)
      | cons piece pieces => rfl

theorem notMem_of_mem_cutAt {piece : Text} (h : piece ∈ cutAt mark s) : mark ∉ piece := by
  induction s generalizing piece with
  | nil =>
    obtain rfl := List.mem_singleton.1 h
    exact List.not_mem_nil
  | cons c rest ih =>
    unfold cutAt at h
    split at h
    · rcases List.mem_cons.1 h with rfl | h
      · exact List.not_mem_nil
      · exact ih h
    · next hc =>
      split at h
      · next hrest => exact absurd hrest (cutAt_ne_nil mark rest)
      · next first pieces hrest =>
        rw [hrest] at ih
        rcases List.mem_cons.1 h with rfl | h
        · rw [List.mem_cons, not_or]
          exact ⟨Ne.symm hc, ih List.mem_cons_self⟩
        · exact ih (List.mem_cons_of_mem _ h)

end Marks

section Offsets

variable {u v w : Text}

theorem cutAtByte_append : cutAtByte (byteLength u) (u ++ v) = some (u, v) := by
  induction u with
  | nil => simp [byteLength, cutAtByte]
  | cons c u ih =>
    have hpos := c.utf8Size_pos
    obtain ⟨k, hk⟩ : ∃ k, c.utf8Size + byteLength u = k + 1 := ⟨_, (Nat.sub_add_cancel (by omega)).symm⟩
    rw [byteLength, hk, List.cons_append, cutAtByte, if_pos (by omega),
      show k + 1 - c.utf8Size = byteLength u by omega, ih]
    · rfl
    · simp

theorem append_of_cutAtByte {n : Nat} {text u v : Text} (h : cutAtByte n text = some (u, v)) :
    u ++ v = text := by
  induction text generalizing n u with
  | nil =>
    cases n with
    | zero =>
      cases h
      rfl
    | succ n => cases h
  | cons c rest ih =>
    cases n with
    | zero =>
      cases h
      rfl
    | succ n =>
      rw [cutAtByte] at h
      split at h
      · obtain ⟨⟨u', v'⟩, hcut, huv⟩ := Option.map_eq_some_iff.1 h
        cases huv
        rw [List.cons_append, ih hcut]
      · cases h
      · simp

theorem cutBetween_append : cutBetween (byteLength u) (byteLength (u ++ v)) (u ++ (v ++ w))
    = some (u, v, w) := by
  have hle : byteLength u ≤ byteLength (u ++ v) := by
    rw [byteLength_append]
    omega
  have hlength : byteLength (u ++ v) - byteLength u = byteLength v := by
    rw [byteLength_append]
    omega
  simp [cutBetween, hle, hlength, cutAtByte_append]

end Offsets

end BrightCoverage
