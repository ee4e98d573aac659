import BrightCoverage.Proofs.Lexing

/-! Where the tokens of a text stand. Each has the positions that the line index gives for its
offsets, each ends before the next one starts, and the next one starts on the line on which it ends:
what is skipped in between has no line break in it. -/

namespace BrightCoverage

namespace Token

/-- A token takes up some of the text, its location is that of its span, and only a line break ends
on another line than it starts. -/
structure Placed (source : Text) (t : Token) : Prop where
  lt : t.span.start < t.span.stop
  location : t.extent.location = ⟨(LineIndex.ofText source).position t.span.start,
    (LineIndex.ofText source).position t.span.stop⟩
  line : t.kind ≠ .newline → t.extent.location.stop.line = t.extent.location.start.line
  word : t.kind = .newline ∨ t.kind = .symbol .colon → t.isWord = false

structure Next (a b : Token) : Prop where
  le : a.span.stop ≤ b.span.start
  line : b.extent.location.start.line = a.extent.location.stop.line

end Token

structure Item.Fine (it : Item) : Prop where
  ne_nil : it.text ≠ []
  clean : it.Clean
  colon : it.kind = some (.symbol .colon) → it.text = [':']

theorem place_placed (its : List Item) (hits : ∀ it ∈ its, it.Fine) (before after : Text) :
    ∀ t ∈ place (Mark.origin.advance before) its,
      t.Placed (before ++ Item.join its ++ after) := by
  induction its generalizing before with
  | nil => intro t ht; cases ht
  | cons it its ih =>
    obtain ⟨hne, hclean, hcolon⟩ := hits it (List.mem_cons_self ..)
    have htext : before ++ Item.join (it :: its) ++ after
        = before ++ it.text ++ Item.join its ++ after := by
      simp [Item.join]
    have hrest := ih (fun it h => hits it (List.mem_cons_of_mem _ h)) (before ++ it.text)
    rw [← htext, Mark.advance_append] at hrest
    obtain ⟨kind, text⟩ := it
    cases kind with
    | none => exact hrest
    | some kind =>
      intro t ht
      rcases List.mem_cons.1 ht with rfl | ht
      · have hpos := byteLength_pos hne
        have hstart := position_advance before (text ++ Item.join its ++ after)
        have hstop := position_advance (before ++ text) (Item.join its ++ after)
        rw [← List.append_assoc, ← List.append_assoc, ← htext] at hstart
        rw [← List.append_assoc, ← htext, Mark.advance_append] at hstop
        refine ⟨?_, ?_, fun hk => ?_, fun hk => ?_⟩
        · show (Mark.origin.advance before).offset < ((Mark.origin.advance before).advance text).offset
          rw [Mark.advance_offset (Mark.origin.advance before)]
          simp only at hpos
          omega
        · show Location.mk _ _ = _
          rw [← hstart, ← hstop]
          rfl
        · rw [Item.Clean, if_neg (by simpa using hk)] at hclean
          show ((Mark.origin.advance before).advance text).position.line = _
          rw [Mark.advance_position_of_notMem hclean]
          rfl
        · rcases hk with hk | hk
          · rw [Item.Clean, if_pos (by simpa using hk)] at hclean
            simp only at hclean
            simp only [Token.isWord, hclean, String.toList_ofList]
            decide
          · have htext := hcolon (by simpa using hk)
            simp only at htext
            simp only [Token.isWord, htext, String.toList_ofList]
            decide
      · exact hrest t ht

theorem place_next (its : List Item) (hits : ∀ it ∈ its, it.Fine) (m : Mark) :
    (∀ t, (place m its)[0]? = some t →
      m.offset ≤ t.span.start ∧ t.extent.location.start.line = m.position.line) ∧
    ∀ i a b, (place m its)[i]? = some a → (place m its)[i + 1]? = some b → a.Next b := by
  induction its generalizing m with
  | nil => exact ⟨fun t ht => by simp [place] at ht, fun i a b ha => by simp [place] at ha⟩
  | cons it its ih =>
    obtain ⟨hne, hclean, -⟩ := hits it (List.mem_cons_self ..)
    obtain ⟨hfirst, hnext⟩ := ih (fun it h => hits it (List.mem_cons_of_mem _ h))
      (m.advance it.text)
    obtain ⟨kind, text⟩ := it
    cases kind with
    | none =>
      refine ⟨fun t ht => ?_, hnext⟩
      obtain ⟨hoff, hline⟩ := hfirst t ht
      rw [Item.Clean, if_neg (by simp)] at hclean
      rw [Mark.advance_offset] at hoff
      rw [Mark.advance_position_of_notMem hclean] at hline
      exact ⟨by omega, hline⟩
    | some kind =>
      refine ⟨fun t ht => ?_, fun i a b ha hb => ?_⟩
      · cases ht
        exact ⟨Nat.le_refl _, rfl⟩
      · cases i with
        | zero =>
          cases ha
          obtain ⟨hoff, hline⟩ := hfirst b hb
          exact ⟨hoff, hline⟩
        | succ i => exact hnext i a b ha hb

/-- The tokens of a text, each with its place, one after another. -/
structure Ordered (source : Text) (ts : List Token) : Prop where
  placed : ∀ t ∈ ts, t.Placed source
  next : ∀ i a b, ts[i]? = some a → ts[i + 1]? = some b → a.Next b

theorem lex_ordered (source : Text) : Ordered source (lex source) := by
  have hfine : ∀ it ∈ items source, it.Fine := fun it h =>
    ⟨items_text_ne_nil source it h, items_clean source it h, items_colon source it h⟩
  rw [lex_eq_place]
  refine ⟨fun t ht => ?_, (place_next (items source) hfine Mark.origin).2⟩
  have := place_placed (items source) hfine [] [] t ht
  rwa [List.nil_append, List.append_nil, join_items] at this

namespace Ordered

variable {source : Text} {ts : List Token} (h : Ordered source ts) {i j : Nat} {a b : Token}
include h

theorem placed_at (ha : ts[i]? = some a) : a.Placed source :=
  h.placed a (List.mem_of_getElem? ha)

theorem stop_le_start (hij : i < j) (ha : ts[i]? = some a) (hb : ts[j]? = some b) :
    a.span.stop ≤ b.span.start := by
  induction j generalizing b with
  | zero => omega
  | succ j ih =>
    obtain ⟨c, hc⟩ : ∃ c, ts[j]? = some c := by
      have := (List.getElem?_eq_some_iff.1 hb).1
      exact ⟨ts[j], List.getElem?_eq_getElem (by omega)⟩
    have hnext := (h.next j c b hc hb).le
    rcases Nat.lt_or_ge i j with hlt | hge
    · have := ih hlt hc
      have := (h.placed_at hc).lt
      omega
    · obtain rfl : i = j := by omega
      rw [ha] at hc
      cases hc
      exact hnext

theorem start_le_start (hij : i ≤ j) (ha : ts[i]? = some a) (hb : ts[j]? = some b) :
    a.span.start ≤ b.span.start := by
  rcases Nat.eq_or_lt_of_le hij with rfl | hlt
  · rw [ha] at hb
    cases hb
    exact Nat.le_refl _
  · have := h.stop_le_start hlt ha hb
    have := (h.placed_at ha).lt
    omega

theorem stop_le_stop (hij : i ≤ j) (ha : ts[i]? = some a) (hb : ts[j]? = some b) :
    a.span.stop ≤ b.span.stop := by
  rcases Nat.eq_or_lt_of_le hij with rfl | hlt
  · rw [ha] at hb
    cases hb
    exact Nat.le_refl _
  · have := h.stop_le_start hlt ha hb
    have := (h.placed_at hb).lt
    omega

theorem start_lt_start (hij : i < j) (ha : ts[i]? = some a) (hb : ts[j]? = some b) :
    a.span.start < b.span.start :=
  (h.placed_at ha).lt.trans_le (h.stop_le_start hij ha hb)

end Ordered

end BrightCoverage
