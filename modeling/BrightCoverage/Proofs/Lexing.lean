import Mathlib.Data.Bool.AllAny
import Mathlib.Data.List.TakeWhile
import BrightCoverage.Proofs.Patterns
import BrightCoverage.Proofs.Positions

/-! Texts as sequences of items. An item is a token or what is skipped; the items of a text tile it,
and the tokens of a text are its items placed one after another. Only the line break is matched by
a rule that a line break can occur in, so every other item stays on its line. -/

namespace BrightCoverage

theorem CharClass.contains_of {chars : List Char} {c : Char} :
    (CharClass.of chars).contains c = true ↔ c ∈ chars := by
  have heq : ∀ d : Char, d ≤ c ∧ c ≤ d ↔ d = c := fun d =>
    ⟨fun h => Char.le_antisymm h.1 h.2, fun h => h ▸ ⟨Char.le_refl _, Char.le_refl _⟩⟩
  simp [contains, of, heq]

namespace Pattern

/-- Whether no match contains the character, by the classes of the pattern. -/
def avoids (c : Char) : Pattern → Bool
  | fail | empty => true
  | one k => !k.contains c
  | seq p q | alt p q => p.avoids c && q.avoids c
  | star p => p.avoids c

def charClasses : Pattern → List CharClass
  | fail | empty => []
  | one k => [k]
  | seq p q | alt p q => p.charClasses ++ q.charClasses
  | star p => p.charClasses

theorem mem_charClasses_andThen {p q : Pattern} {k : CharClass}
    (h : k ∈ (andThen p q).charClasses) : k ∈ p.charClasses ∨ k ∈ q.charClasses := by
  unfold andThen at h
  split at h
  · cases h
  · exact .inr h
  · exact List.mem_append.1 h

theorem mem_charClasses_orElse {p q : Pattern} {k : CharClass}
    (h : k ∈ (orElse p q).charClasses) : k ∈ p.charClasses ∨ k ∈ q.charClasses := by
  unfold orElse at h
  split at h
  · exact .inr h
  · exact .inl h
  · exact List.mem_append.1 h

theorem mem_charClasses_deriv {p : Pattern} {c : Char} {k : CharClass}
    (h : k ∈ (p.deriv c).charClasses) : k ∈ p.charClasses := by
  induction p with
  | fail | empty => cases h
  | one k' =>
    unfold deriv at h
    split at h <;> cases h
  | seq p q hp hq =>
    have hthen : k ∈ (andThen (p.deriv c) q).charClasses → k ∈ p.charClasses ++ q.charClasses :=
      fun h => List.mem_append.2 ((mem_charClasses_andThen h).imp_left hp)
    unfold deriv at h
    split at h
    · rcases mem_charClasses_orElse h with h | h
      · exact hthen h
      · exact List.mem_append_right _ (hq h)
    · exact hthen h
  | alt p q hp hq => exact List.mem_append.2 ((mem_charClasses_orElse h).imp hp hq)
  | star p hp => exact (mem_charClasses_andThen h).elim hp id

theorem avoids_iff {p : Pattern} {c : Char} :
    p.avoids c = true ↔ ∀ k ∈ p.charClasses, k.contains c = false := by
  induction p with
  | fail | empty => simp [avoids, charClasses]
  | one k => simp [avoids, charClasses]
  | seq p q hp hq | alt p q hp hq =>
    simp only [avoids, charClasses, Bool.and_eq_true, hp, hq, List.forall_mem_append]
  | star p hp => exact hp

theorem notMem_of_avoids {p : Pattern} {u : List Char} {c : Char} (hp : p.avoids c = true)
    (h : p.Matches u) : c ∉ u := by
  induction h with
  | empty | nil => exact List.not_mem_nil
  | one hk =>
    intro hc
    obtain rfl := List.mem_singleton.1 hc
    simp [avoids, hk] at hp
  | seq _ _ ih ih' =>
    simp only [avoids, Bool.and_eq_true] at hp
    exact fun hc => (List.mem_append.1 hc).elim (ih hp.1) (ih' hp.2)
  | left _ ih => exact ih (Bool.and_eq_true_iff.1 hp).1
  | right _ ih => exact ih (Bool.and_eq_true_iff.1 hp).2
  | cons _ _ ih ih' => exact fun hc => (List.mem_append.1 hc).elim (ih hp) (ih' hp)

theorem matches_literal {text : String} {u : List Char} :
    (literal text).Matches u ↔ u = text.toList := by
  unfold literal all
  generalize text.toList = chars
  induction chars generalizing u with
  | nil => exact matches_empty
  | cons c chars ih =>
    simp only [List.map_cons, List.foldr_cons, matches_seq, ih, matches_one,
      CharClass.contains_of, List.mem_singleton]
    constructor
    · rintro ⟨v, w, rfl, ⟨d, rfl, rfl⟩, rfl⟩
      rfl
    · rintro rfl
      exact ⟨[c], chars, rfl, ⟨c, rfl, rfl⟩, rfl⟩

end Pattern

namespace Rule

theorem avoids_newline : ∀ rule ∈ all, rule.kind ≠ some .newline →
    rule.pattern.avoids '\n' = true := by
  decide

theorem newline_pattern : ∀ rule ∈ all, rule.kind = some .newline →
    rule.pattern = Pattern.literal "\n" := by
  decide

theorem colon_pattern : ∀ rule ∈ all, rule.kind = some (.symbol .colon) →
    rule.pattern = Pattern.literal ":" := by
  decide

theorem openString_pattern : ∀ rule ∈ all, rule.kind = some .openString →
    rule.pattern = openQuote := by
  decide

theorem matches_newline {rule : Rule} {x : Text} (hr : rule ∈ all) (h : rule.pattern.Matches x) :
    if rule.kind = some .newline then x = ['\n'] else '\n' ∉ x := by
  split
  · rename_i hk
    rw [newline_pattern rule hr hk, Pattern.matches_literal] at h
    exact h
  · rename_i hk
    exact Pattern.notMem_of_avoids (avoids_newline rule hr hk) h

end Rule

/-- The item at the start of a text, as far as the rules go: the longest match. -/
theorem nextItem_spec (text : Text) :
    (∃ rule n, (0 < n ∧ n ≤ text.length) ∧ Rule.first? Rule.all (text.take n) = some rule ∧
      (∀ m, n < m → m ≤ text.length → Rule.first? Rule.all (text.take m) = none) ∧
      nextItem text = (rule.kind, n)) ∨
    ((∀ m, 0 < m → m ≤ text.length → Rule.first? Rule.all (text.take m) = none) ∧
      nextItem text = (some .unknown, unknownLength text)) := by
  have h := longestMatch_isBest text Rule.all
  cases hl : longestMatch text Rule.all with
  | none =>
    rw [hl] at h
    exact .inr ⟨h, by simp only [nextItem, hl]⟩
  | some best =>
    rw [hl] at h
    exact .inl ⟨best.1, best.2, h.1, h.2.1, h.2.2, by simp only [nextItem, hl]⟩

theorem unknownLength_pos (text : Text) : 0 < unknownLength text := by
  unfold unknownLength
  split <;> omega

theorem unknownLength_le {text : Text} (h : text ≠ []) : unknownLength text ≤ text.length := by
  unfold unknownLength
  split
  · rename_i rest
    have : (rest.takeWhile Rule.blank.contains).length ≤ rest.length :=
      (List.takeWhile_sublist _).length_le
    simp only [List.length_cons]
    omega
  · exact List.length_pos_iff.2 h

theorem nextItem_pos (text : Text) : 0 < (nextItem text).2 := by
  rcases nextItem_spec text with ⟨rule, n, ⟨hn, -⟩, -, -, h⟩ | ⟨-, h⟩
  · rw [h]; exact hn
  · rw [h]; exact unknownLength_pos text

theorem nextItem_le {text : Text} (h : text ≠ []) : (nextItem text).2 ≤ text.length := by
  rcases nextItem_spec text with ⟨rule, n, ⟨-, hn⟩, -, -, h'⟩ | ⟨-, h'⟩
  · rw [h']; exact hn
  · rw [h']; exact unknownLength_le h

/-- A piece of a text: what kind of token it is, if it is one, and how it is written. -/
structure Item where
  kind : Option TokenKind
  text : Text

def items (text : Text) : List Item :=
  match text with
  | [] => []
  | c :: rest =>
    ⟨(nextItem (c :: rest)).1, (c :: rest).take (nextItem (c :: rest)).2⟩
      :: items ((c :: rest).drop (nextItem (c :: rest)).2)
termination_by text.length
decreasing_by
  have := nextItem_pos (c :: rest)
  simp only [List.length_drop, List.length_cons]
  omega

def Item.join (its : List Item) : Text :=
  its.flatMap Item.text

/-- The tokens that items are when they are written from a mark on. -/
def place : Mark → List Item → List Token
  | _, [] => []
  | m, ⟨some kind, text⟩ :: its =>
    ⟨kind, String.ofList text, m.extentTo (m.advance text)⟩ :: place (m.advance text) its
  | m, ⟨none, text⟩ :: its => place (m.advance text) its

theorem items_nil : items [] = [] := by
  rw [items]

theorem items_ne_nil {text : Text} (h : text ≠ []) : items text =
    ⟨(nextItem text).1, text.take (nextItem text).2⟩ :: items (text.drop (nextItem text).2) := by
  cases text with
  | nil => exact absurd rfl h
  | cons c rest => rw [items]

theorem items_induction {P : Text → Prop} (nil : P [])
    (step : ∀ text, text ≠ [] → P (text.drop (nextItem text).2) → P text) (text : Text) :
    P text := by
  induction hn : text.length using Nat.strongRecOn generalizing text with
  | _ n ih =>
    by_cases h : text = []
    · exact h ▸ nil
    · have hpos := nextItem_pos text
      have hlen := List.length_pos_iff.2 h
      exact step text h (ih _ (by rw [List.length_drop]; omega) _ rfl)

theorem join_items (text : Text) : Item.join (items text) = text := by
  induction text using items_induction with
  | nil => rw [items_nil]; rfl
  | step text h ih =>
    rw [items_ne_nil h, Item.join, List.flatMap_cons]
    show text.take _ ++ Item.join _ = text
    rw [ih, List.take_append_drop]

theorem forall_items {Q : Item → Prop}
    (h : ∀ text, text ≠ [] → Q ⟨(nextItem text).1, text.take (nextItem text).2⟩) (text : Text) :
    ∀ it ∈ items text, Q it := by
  induction text using items_induction with
  | nil => simp [items_nil]
  | step text hne ih =>
    rw [items_ne_nil hne]
    intro it hit
    rcases List.mem_cons.1 hit with rfl | hit
    · exact h text hne
    · exact ih it hit

theorem items_text_ne_nil (text : Text) : ∀ it ∈ items text, it.text ≠ [] := by
  refine forall_items (fun text h hnil => ?_) text
  have := nextItem_pos text
  rcases List.take_eq_nil_iff.1 hnil with h' | h'
  · omega
  · exact h h'

/-- An item is a line break or has none in it. -/
def Item.Clean (it : Item) : Prop :=
  if it.kind = some .newline then it.text = ['\n'] else '\n' ∉ it.text

theorem items_clean (text : Text) : ∀ it ∈ items text, it.Clean := by
  refine forall_items (fun text h => ?_) text
  rcases nextItem_spec text with ⟨rule, n, -, hfirst, -, hn⟩ | ⟨hnone, hn⟩
  · obtain ⟨hr, hm⟩ := Rule.first?_some hfirst
    rw [hn]
    exact Rule.matches_newline hr hm
  · rw [hn, Item.Clean, if_neg (by simp)]
    cases text with
    | nil => exact absurd rfl h
    | cons c rest =>
      have hc : c ≠ '\n' := by
        rintro rfl
        have := hnone 1 Nat.one_pos (by simp)
        rw [Rule.first?_eq_none] at this
        exact this ⟨some .newline, Pattern.literal "\n"⟩ (by simp [Rule.all, Rule.classes])
          (Pattern.matches_literal.2 rfl)
      unfold unknownLength
      split
      · rename_i rest' heq
        cases heq
        rw [Nat.add_comm, List.take_succ_cons]
        intro hmem
        rcases List.mem_cons.1 hmem with hmem | hmem
        · exact absurd hmem (by decide)
        · rw [← List.prefix_iff_eq_take.1 (List.takeWhile_prefix _)] at hmem
          exact absurd (List.mem_takeWhile_imp hmem) (show ¬ Rule.blank.contains '\n' = true by decide)
      · rw [List.take_succ_cons, List.take_zero]
        exact fun hmem => hc (List.mem_singleton.1 hmem).symm

theorem items_colon (text : Text) :
    ∀ it ∈ items text, it.kind = some (.symbol .colon) → it.text = [':'] := by
  refine forall_items (fun text h hk => ?_) text
  rcases nextItem_spec text with ⟨rule, n, -, hfirst, -, hn⟩ | ⟨-, hn⟩
  · obtain ⟨hr, hm⟩ := Rule.first?_some hfirst
    rw [hn] at hk
    rw [Rule.colon_pattern rule hr hk, Pattern.matches_literal] at hm
    rw [hn]
    exact hm
  · rw [hn] at hk
    cases hk

theorem items_openString (text : Text) :
    ∀ it ∈ items text, it.kind = some .openString → ∃ rest, it.text = '"' :: rest := by
  refine forall_items (fun text h hk => ?_) text
  rcases nextItem_spec text with ⟨rule, n, -, hfirst, -, hn⟩ | ⟨-, hn⟩
  · obtain ⟨hr, hm⟩ := Rule.first?_some hfirst
    rw [hn] at hk
    rw [Rule.openString_pattern rule hr hk, Rule.openQuote, Pattern.matches_seq] at hm
    obtain ⟨v, w, htext, hv, -⟩ := hm
    rw [Pattern.matches_literal] at hv
    exact ⟨w, by rw [hn, htext, hv]; rfl⟩
  · rw [hn] at hk
    cases hk

theorem scan_eq_place (steps : Nat) (m : Mark) (text : Text) (h : text.length ≤ steps) :
    scan steps m text = place m (items text) := by
  induction steps generalizing m text with
  | zero =>
    obtain rfl := List.eq_nil_of_length_eq_zero (Nat.le_zero.1 h)
    rw [items_nil]; rfl
  | succ steps ih =>
    cases text with
    | nil => rw [items_nil]; rfl
    | cons c rest =>
      have hpos := nextItem_pos (c :: rest)
      rw [items_ne_nil (List.cons_ne_nil c rest)]
      have hlen : ((c :: rest).drop (nextItem (c :: rest)).2).length ≤ steps := by
        rw [List.length_drop]
        simp only [List.length_cons] at h ⊢
        omega
      simp only [scan, ih _ _ hlen]
      cases (nextItem (c :: rest)).1 <;> rfl

theorem lex_eq_place (source : Text) : lex source = place Mark.origin (items source) :=
  scan_eq_place _ _ _ (Nat.le_refl _)

end BrightCoverage
