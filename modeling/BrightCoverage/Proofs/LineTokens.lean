import Mathlib.Data.List.Nodup
import BrightCoverage.Proofs.Cutting
import BrightCoverage.Proofs.LineWording
import BrightCoverage.Proofs.TokenPlaces

/-! The tokens of a line. The items of a text are those of its lines with line breaks between them,
and the tokens that start on a line are its items placed from the start of the line on. A part of
them in front of a token, or behind it, is a part of the items. -/

namespace BrightCoverage

variable {m : Mark} {its its' : List Item} {t : Token} {ts us : List Token}

/-! ### Parts of the items -/

theorem place_append :
    place m (its ++ its') = place m its ++ place (m.advance (Item.join its)) its' := by
  induction its generalizing m with
  | nil => rfl
  | cons it its ih =>
    rw [Item.join_cons, Mark.advance_append]
    obtain ⟨_ | kind, text⟩ := it
    · exact ih
    · exact congrArg _ ih

theorem place_eq_nil : place m its = [] ↔ ∀ it ∈ its, it.kind = none := by
  induction its generalizing m with
  | nil => simp [place]
  | cons it its ih =>
    obtain ⟨_ | kind, text⟩ := it
    · simp [place, ih]
    · simp [place]

theorem place_eq_append (h : place m its = ts ++ us) : ∃ before after, its = before ++ after ∧
    place m before = ts ∧ place (m.advance (Item.join before)) after = us := by
  induction its generalizing m ts with
  | nil =>
    obtain ⟨rfl, rfl⟩ := List.append_eq_nil_iff.1 h.symm
    exact ⟨[], [], rfl, rfl, rfl⟩
  | cons it its ih =>
    obtain ⟨_ | kind, text⟩ := it
    · obtain ⟨before, after, rfl, hbefore, hafter⟩ := ih h
      refine ⟨⟨none, text⟩ :: before, after, rfl, hbefore, ?_⟩
      rwa [Item.join_cons, Mark.advance_append]
    · cases ts with
      | nil => exact ⟨[], _, rfl, rfl, h⟩
      | cons t ts =>
        obtain ⟨ht, h⟩ := List.cons.inj h
        obtain ⟨before, after, rfl, hbefore, hafter⟩ := ih h
        refine ⟨⟨some kind, text⟩ :: before, after, rfl, ?_, ?_⟩
        · rw [place, hbefore, ht]
        · rwa [Item.join_cons, Mark.advance_append]

theorem place_eq_cons (h : place m its = t :: us) : ∃ before it after, its = before ++ it :: after ∧
    (∀ x ∈ before, x.kind = none) ∧ place (m.advance (Item.join before)) [it] = [t] ∧
      place (m.advance (Item.join (before ++ [it]))) after = us := by
  induction its generalizing m with
  | nil => cases h
  | cons it its ih =>
    obtain ⟨_ | kind, text⟩ := it
    · obtain ⟨before, it, after, rfl, hbefore, hit, hafter⟩ := ih h
      refine ⟨⟨none, text⟩ :: before, it, after, rfl, List.forall_mem_cons.2 ⟨rfl, hbefore⟩, ?_, ?_⟩
      · rwa [Item.join_cons, Mark.advance_append]
      · rwa [List.cons_append, Item.join_cons, Mark.advance_append]
    · obtain ⟨ht, h⟩ := List.cons.inj h
      refine ⟨[], ⟨some kind, text⟩, its, rfl, List.forall_mem_nil _, ?_, ?_⟩
      · rw [← ht]
        rfl
      · simpa [Item.join] using h

theorem place_eq_concat (h : place m its = ts ++ [t]) : ∃ before it after,
    its = before ++ it :: after ∧ place m before = ts ∧
      place (m.advance (Item.join before)) [it] = [t] ∧ ∀ x ∈ after, x.kind = none := by
  obtain ⟨first, second, rfl, hfirst, hsecond⟩ := place_eq_append h
  obtain ⟨skipped, it, after, rfl, hskipped, hit, hafter⟩ := place_eq_cons hsecond
  refine ⟨first ++ skipped, it, after, by simp, ?_, ?_, place_eq_nil.1 hafter⟩
  · rw [place_append, place_eq_nil.2 hskipped, hfirst, List.append_nil]
  · rwa [Item.join_append, Mark.advance_append]

theorem exists_item_of_mem_place (h : t ∈ place m its) :
    ∃ it ∈ its, it.kind = some t.kind ∧ String.ofList it.text = t.text := by
  induction its generalizing m with
  | nil => cases h
  | cons it its ih =>
    obtain ⟨_ | kind, text⟩ := it
    · obtain ⟨it, hit, hkind⟩ := ih h
      exact ⟨it, List.mem_cons_of_mem _ hit, hkind⟩
    · rcases List.mem_cons.1 h with rfl | h
      · exact ⟨_, List.mem_cons_self, rfl, rfl⟩
      · obtain ⟨it, hit, hkind⟩ := ih h
        exact ⟨it, List.mem_cons_of_mem _ hit, hkind⟩

theorem place_singleton {it : Item} (h : place m [it] = [t]) : it.kind = some t.kind ∧
    String.ofList it.text = t.text ∧ t.extent = m.extentTo (m.advance it.text) := by
  obtain ⟨_ | kind, text⟩ := it
  · cases h
  · obtain rfl := (List.cons.inj h).1
    exact ⟨rfl, rfl, rfl⟩

/-- The items of a token, of some tokens directly behind it and of what is skipped in between. -/
structure Parted (m : Mark) (its : List Item) (token first last : Token) (tokens : List Token)
    (head gap middle tail : List Item) : Prop where
  split : its = head ++ gap ++ middle ++ tail
  ends : ∃ before it, head = before ++ [it] ∧ place (m.advance (Item.join before)) [it] = [token]
  skipped : ∀ it ∈ gap, it.kind = none
  closes : ∃ before it, middle = before ++ [it] ∧ it.kind = some last.kind
  covers : place (m.advance (Item.join (head ++ gap))) middle = tokens
  starts : first.span.start = (m.advance (Item.join (head ++ gap))).offset ∧
    first.extent.location.start = (m.advance (Item.join (head ++ gap))).position
  stops : last.extent.location.stop = (m.advance (Item.join (head ++ gap ++ middle))).position

theorem exists_parted {first last : Token} {tokens : List Token}
    (h : place m its = ts ++ t :: (tokens ++ us)) (hfirst : tokens.head? = some first)
    (hlast : tokens.getLast? = some last) :
    ∃ head gap middle tail, Parted m its t first last tokens head gap middle tail := by
  rw [← List.singleton_append, ← List.append_assoc] at h
  obtain ⟨upto, behind, rfl, hupto, hbehind⟩ := place_eq_append h
  obtain ⟨before, it, gap, rfl, -, hit, hgap⟩ := place_eq_concat hupto
  obtain ⟨covered, tail, rfl, hcovered, -⟩ := place_eq_append hbehind
  obtain ⟨rest, rfl⟩ := List.head?_eq_some_iff.1 hfirst
  obtain ⟨gap', it₁, rest', rfl, hgap', hit₁, -⟩ := place_eq_cons hcovered
  obtain ⟨most, hmost⟩ := List.getLast?_eq_some_iff.1 hlast
  rw [place_append, place_eq_nil.2 hgap', List.nil_append, ← Mark.advance_append,
    ← Item.join_append, hmost] at hcovered
  obtain ⟨middle, it₂, skipped, heq, hmiddle, hit₂, -⟩ := place_eq_concat hcovered
  have hhead : Item.join (before ++ it :: gap ++ gap') = Item.join (before ++ [it] ++ (gap ++ gap')) := by
    simp
  rw [hhead] at hit₂ hmiddle
  have hstart : place (m.advance (Item.join (before ++ [it] ++ (gap ++ gap')))) [it₁] = [first] := by
    rwa [← hhead, Item.join_append, Mark.advance_append]
  obtain ⟨-, -, hfirst⟩ := place_singleton hstart
  obtain ⟨hkind, -, hlast⟩ := place_singleton hit₂
  refine ⟨before ++ [it], gap ++ gap', middle ++ [it₂], skipped ++ tail, ?_, ⟨_, _, rfl, hit⟩,
    List.forall_mem_append.2 ⟨hgap, hgap'⟩, ⟨_, _, rfl, hkind⟩, ?_, ⟨?_, ?_⟩, ?_⟩
  · rw [heq]
    simp
  · rw [place_append, hmiddle, hit₂, hmost]
  · rw [Token.span, hfirst]
    rfl
  · rw [hfirst]
    rfl
  · rw [hlast]
    simp [Mark.extentTo, Item.join, Mark.advance]

/-! ### Lines -/

theorem Mark.line_le_advance (m : Mark) (u : Text) :
    m.position.line ≤ (m.advance u).position.line := by
  induction u generalizing m with
  | nil => exact Nat.le_refl _
  | cons c u ih =>
    refine Nat.le_trans ?_ (ih (m.next c))
    unfold next
    split
    · exact Nat.le_succ _
    · exact Nat.le_refl _

theorem line_of_mem_place (ht : t ∈ place m its) :
    m.position.line ≤ t.extent.location.start.line ∧
      t.extent.location.start.line ≤ (m.advance (Item.join its)).position.line := by
  obtain ⟨before, after, hsplit⟩ := List.append_of_mem ht
  obtain ⟨a, b, rfl, -, hb⟩ := place_eq_append hsplit
  obtain ⟨skipped, it, after, rfl, -, hit, -⟩ := place_eq_cons hb
  obtain ⟨-, -, hextent⟩ := place_singleton hit
  have hstart : t.extent.location.start = (m.advance (Item.join (a ++ skipped))).position := by
    rw [hextent, Item.join_append, Mark.advance_append]
    rfl
  have hjoin : Item.join (a ++ (skipped ++ it :: after))
      = Item.join (a ++ skipped) ++ Item.join (it :: after) := by
    rw [← List.append_assoc, Item.join_append]
  rw [hstart, hjoin, Mark.advance_append]
  exact ⟨m.line_le_advance _, Mark.line_le_advance _ _⟩

def Item.lineBreak : Item :=
  ⟨some .newline, ['\n']⟩

theorem position_lineBreak : (m.advance (Item.join (its ++ [.lineBreak]))).position
    = ⟨(m.advance (Item.join its)).position.line + 1, 0⟩ := by
  rw [Item.join_append, Mark.advance_append]
  rfl

/-- The items of the line with a number, between those in front of it and those behind it. -/
structure IsLine (source : Text) (n : Nat) (before its after : List Item) : Prop where
  split : items source = before ++ its ++ after
  starts : before = [] ∨ ∃ rest, before = rest ++ [.lineBreak]
  number : (Mark.origin.advance (Item.join before)).position = ⟨n + 1, 0⟩
  inside : ∀ it ∈ its, it.kind ≠ some .newline
  ends : after = [] ∨ ∃ rest, after = .lineBreak :: rest

namespace IsLine

variable {source : Text} {n : Nat} {before after : List Item} (h : IsLine source n before its after)
include h

theorem notMem : '\n' ∉ Item.join its := by
  intro hmem
  obtain ⟨it, hit, hmem⟩ := List.mem_flatMap.1 hmem
  have hclean := items_clean source it (by simp [h.split, hit])
  rw [Item.Clean, if_neg (h.inside it hit)] at hclean
  exact hclean hmem

theorem lex_eq : lex source = place Mark.origin before
    ++ place (Mark.origin.advance (Item.join before)) its
      ++ place (Mark.origin.advance (Item.join (before ++ its))) after := by
  rw [lex_eq_place, h.split, place_append, place_append]

theorem end_position : (Mark.origin.advance (Item.join (before ++ its))).position
    = ⟨n + 1, byteLength (Item.join its)⟩ := by
  rw [Item.join_append, Mark.advance_append, Mark.advance_position_of_notMem h.notMem, h.number]
  simp

/-- The tokens that start on a line are those of its items, and the line break. -/
theorem mem_iff (ht : t ∈ lex source) (hk : t.kind ≠ .newline) :
    t ∈ place (Mark.origin.advance (Item.join before)) its ↔ t.extent.startLine = n := by
  have hbreak : ∀ m, ∀ x ∈ place m [Item.lineBreak], x.kind = .newline := fun m x hx => by
    rw [List.mem_singleton.1 hx]
  constructor
  · intro hmem
    have hline := line_of_mem_place hmem
    rw [← Mark.advance_append, ← Item.join_append, h.end_position, h.number] at hline
    simp only [Extent.startLine, Position.lineIndex] at hline ⊢
    omega
  · intro hline
    simp only [Extent.startLine, Position.lineIndex] at hline
    rw [h.lex_eq, List.mem_append, List.mem_append] at ht
    rcases ht with (ht | ht) | ht
    · rcases h.starts with rfl | ⟨rest, rfl⟩
      · cases ht
      · rw [place_append, List.mem_append] at ht
        rcases ht with ht | ht
        · have hle := line_of_mem_place ht
          have hnumber := congrArg Position.line (position_lineBreak.symm.trans h.number)
          simp only [Mark.origin] at hle hnumber
          omega
        · exact absurd (hbreak _ t ht) hk
    · exact ht
    · rcases h.ends with rfl | ⟨rest, rfl⟩
      · cases ht
      · rw [← List.singleton_append, place_append, List.mem_append] at ht
        rcases ht with ht | ht
        · exact absurd (hbreak _ t ht) hk
        · have hle := (line_of_mem_place ht).1
          rw [← Mark.advance_append, ← Item.join_append, position_lineBreak, h.end_position] at hle
          simp only at hle
          omega

end IsLine

/-! ### Single tokens -/

namespace Ordered

variable {source : Text} {a b : Token} (h : Ordered source ts)
include h

theorem eq_of_start (ha : a ∈ ts) (hb : b ∈ ts) (hab : a.span.start = b.span.start) : a = b := by
  obtain ⟨i, hi⟩ := List.getElem?_of_mem ha
  obtain ⟨j, hj⟩ := List.getElem?_of_mem hb
  rcases Nat.lt_trichotomy i j with hij | rfl | hij
  · exact absurd hab (h.start_lt_start hij hi hj).ne
  · exact Option.some.inj (hi.symm.trans hj)
  · exact absurd hab (h.start_lt_start hij hj hi).ne'

theorem eq_of_stop (ha : a ∈ ts) (hb : b ∈ ts) (hab : a.span.stop = b.span.stop) : a = b := by
  obtain ⟨i, hi⟩ := List.getElem?_of_mem ha
  obtain ⟨j, hj⟩ := List.getElem?_of_mem hb
  rcases Nat.lt_trichotomy i j with hij | rfl | hij
  · have := h.stop_le_start hij hi hj
    have := (h.placed_at hj).lt
    omega
  · exact Option.some.inj (hi.symm.trans hj)
  · have := h.stop_le_start hij hj hi
    have := (h.placed_at hi).lt
    omega

theorem pairwise : ts.Pairwise fun a b => a.span.start < b.span.start := by
  rw [List.pairwise_iff_getElem]
  intro i j hi hj hij
  exact h.start_lt_start hij (List.getElem?_eq_getElem hi) (List.getElem?_eq_getElem hj)

theorem nodup : ts.Nodup :=
  h.pairwise.imp fun hlt heq => (heq ▸ hlt).ne rfl

end Ordered

section Around

variable {α β : Type} [DecidableEq α] {a : α} {xs ys : List α} {zs : List β} {f : α → List β}

theorem flatMap_before (hx : a ∉ xs) (hy : a ∉ ys) :
    (xs ++ a :: ys).flatMap (fun x => (if x = a then zs else []) ++ f x)
      = xs.flatMap f ++ (zs ++ (a :: ys).flatMap f) := by
  have hother : ∀ l : List α, a ∉ l →
      l.flatMap (fun x => (if x = a then zs else []) ++ f x) = l.flatMap f := fun l hl =>
    List.flatMap_congr fun x hx => by rw [if_neg (ne_of_mem_of_not_mem hx hl), List.nil_append]
  rw [List.flatMap_append, List.flatMap_cons, hother xs hx, hother ys hy, if_pos rfl,
    List.flatMap_cons, List.append_assoc]

theorem flatMap_after (hx : a ∉ xs) (hy : a ∉ ys) :
    (xs ++ a :: ys).flatMap (fun x => f x ++ (if x = a then zs else []))
      = (xs ++ [a]).flatMap f ++ (zs ++ ys.flatMap f) := by
  have hother : ∀ l : List α, a ∉ l →
      l.flatMap (fun x => f x ++ (if x = a then zs else [])) = l.flatMap f := fun l hl =>
    List.flatMap_congr fun x hx => by rw [if_neg (ne_of_mem_of_not_mem hx hl), List.append_nil]
  rw [List.flatMap_append, List.flatMap_cons, hother xs hx, hother ys hy, if_pos rfl,
    List.flatMap_append, List.flatMap_singleton, List.append_assoc, List.append_assoc]

theorem flatMap_around {b : α} {mid : List α} {zs' : List β} (h : (xs ++ mid ++ ys).Nodup)
    (ha : mid.head? = some a) (hb : mid.getLast? = some b) :
    (xs ++ mid ++ ys).flatMap (fun x =>
        (if x = a then zs else []) ++ (f x ++ (if x = b then zs' else [])))
      = xs.flatMap f ++ (zs ++ (mid.flatMap f ++ (zs' ++ ys.flatMap f))) := by
  obtain ⟨hxm, hy, hdisjoint⟩ := List.nodup_append.1 h
  obtain ⟨hx, hm, hdisjoint'⟩ := List.nodup_append.1 hxm
  have hxs : xs.flatMap (fun x => f x ++ (if x = b then zs' else [])) = xs.flatMap f :=
    List.flatMap_congr fun x hx => by
      rw [if_neg (hdisjoint' x hx b (List.mem_of_getLast? hb)), List.append_nil]
  have hbys : b ∉ ys := fun hmem => hdisjoint b (List.mem_append_right _ (List.mem_of_getLast? hb)) b
    hmem rfl
  have hays : a ∉ ys := fun hmem => hdisjoint a (List.mem_append_right _ (List.mem_of_head? ha)) a
    hmem rfl
  have haxs : a ∉ xs := fun hmem => hdisjoint' a hmem a (List.mem_of_head? ha) rfl
  obtain ⟨back, hback⟩ := List.head?_eq_some_iff.1 ha
  obtain ⟨front, hfront⟩ := List.getLast?_eq_some_iff.1 hb
  have haback : a ∉ back := by
    rw [hback] at hm
    exact (List.nodup_cons.1 hm).1
  have hbfront : b ∉ front := by
    rw [hfront] at hm
    exact fun hmem => (List.nodup_append.1 hm).2.2 b hmem b (List.mem_singleton.2 rfl) rfl
  have hmid : a :: (back ++ ys) = front ++ b :: ys := by
    rw [← List.cons_append, ← hback, hfront]
    simp
  rw [List.append_assoc, hback, List.cons_append,
    flatMap_before haxs (by simp [haback, hays]), hxs, hmid, flatMap_after hbfront hbys, ← hfront, hback]

end Around

end BrightCoverage
