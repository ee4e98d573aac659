import Mathlib.Tactic.Common
import Mathlib.Order.Nat
import BrightCoverage.Token.Lexer

/-! What patterns match. `Matches` says it without derivatives; reading by derivatives agrees with
it, the longest match is the longest, and the item at the start of a text is the longest text that
any rule matches there, under the first rule that matches it. -/

namespace BrightCoverage

namespace Pattern

/-- The texts that a pattern matches. -/
inductive Matches : Pattern → List Char → Prop
  | empty : Matches empty []
  | one {k : CharClass} {c : Char} : k.contains c = true → Matches (one k) [c]
  | seq {p q : Pattern} {u v : List Char} : Matches p u → Matches q v → Matches (seq p q) (u ++ v)
  | left {p q : Pattern} {u : List Char} : Matches p u → Matches (alt p q) u
  | right {p q : Pattern} {u : List Char} : Matches q u → Matches (alt p q) u
  | nil {p : Pattern} : Matches (star p) []
  | cons {p : Pattern} {u v : List Char} :
    Matches p u → Matches (star p) v → Matches (star p) (u ++ v)

variable {p q : Pattern} {u v : List Char} {c : Char}

theorem not_matches_fail : ¬ Matches fail u := by
  intro h; cases h

theorem matches_empty : Matches empty u ↔ u = [] := by
  constructor
  · intro h; cases h; rfl
  · rintro rfl; exact .empty

theorem matches_one {k : CharClass} : Matches (one k) u ↔ ∃ c, u = [c] ∧ k.contains c = true := by
  constructor
  · intro h; cases h with | one h => exact ⟨_, rfl, h⟩
  · rintro ⟨c, rfl, h⟩; exact .one h

theorem matches_seq : Matches (seq p q) u ↔ ∃ v w, u = v ++ w ∧ Matches p v ∧ Matches q w := by
  constructor
  · intro h; cases h with | seq h h' => exact ⟨_, _, rfl, h, h'⟩
  · rintro ⟨v, w, rfl, h, h'⟩; exact .seq h h'

theorem matches_alt : Matches (alt p q) u ↔ Matches p u ∨ Matches q u := by
  constructor
  · intro h
    cases h with
    | left h => exact .inl h
    | right h => exact .inr h
  · rintro (h | h)
    · exact .left h
    · exact .right h

theorem matches_andThen : Matches (andThen p q) u ↔ Matches (seq p q) u := by
  unfold andThen
  split
  · simp only [matches_seq, not_matches_fail, false_and, and_false, exists_false]
  · simp only [matches_seq, matches_empty]
    constructor
    · intro h; exact ⟨[], u, rfl, rfl, h⟩
    · rintro ⟨v, w, rfl, rfl, h⟩; exact h
  · rfl

theorem matches_orElse : Matches (orElse p q) u ↔ Matches p u ∨ Matches q u := by
  unfold orElse
  split
  · simp only [not_matches_fail, false_or]
  · simp only [not_matches_fail, or_false]
  · exact matches_alt

theorem nullable_iff : p.nullable = true ↔ Matches p [] := by
  induction p with
  | fail => simp [nullable, not_matches_fail]
  | empty => simp [nullable, matches_empty]
  | one k => simp [nullable, matches_one]
  | seq p q ihp ihq =>
    simp only [nullable, Bool.and_eq_true, ihp, ihq, matches_seq]
    constructor
    · rintro ⟨hp, hq⟩; exact ⟨[], [], rfl, hp, hq⟩
    · rintro ⟨v, w, h, hp, hq⟩
      obtain ⟨rfl, rfl⟩ := List.append_eq_nil_iff.1 h.symm
      exact ⟨hp, hq⟩
  | alt p q ihp ihq => simp only [nullable, Bool.or_eq_true, ihp, ihq, matches_alt]
  | star p ih => exact ⟨fun _ => .nil, fun _ => rfl⟩

theorem matches_star_cons : Matches (star p) (c :: u) ↔
    ∃ v w, u = v ++ w ∧ Matches p (c :: v) ∧ Matches (star p) w := by
  constructor
  · intro h
    generalize hs : star p = s at h
    generalize ht : c :: u = t at h
    induction h generalizing u with
    | nil => cases ht
    | @cons p' v w hv hw _ ih =>
      cases hs
      cases v with
      | nil => exact ih rfl ht
      | cons d v =>
        cases ht
        exact ⟨v, w, rfl, hv, hw⟩
    | _ => cases hs
  · rintro ⟨v, w, rfl, h, h'⟩
    exact .cons h h'

theorem matches_deriv : Matches (p.deriv c) u ↔ Matches p (c :: u) := by
  induction p generalizing u with
  | fail => simp [deriv, not_matches_fail]
  | empty => simp [deriv, not_matches_fail, matches_empty]
  | one k =>
    simp only [deriv, matches_one]
    split
    · rename_i hk
      simp only [matches_empty, List.cons.injEq]
      constructor
      · rintro rfl; exact ⟨c, ⟨rfl, rfl⟩, hk⟩
      · rintro ⟨d, ⟨rfl, rfl⟩, -⟩; rfl
    · rename_i hk
      simp only [not_matches_fail, false_iff, not_exists, not_and, List.cons.injEq]
      rintro d ⟨rfl, -⟩; exact hk
  | seq p q ihp ihq =>
    -- the character belongs to the first part, unless that part is empty
    have hseq : Matches (seq p q) (c :: u) ↔
        Matches (seq (p.deriv c) q) u ∨ (Matches p [] ∧ Matches q (c :: u)) := by
      simp only [matches_seq, ihp]
      constructor
      · rintro ⟨_ | ⟨d, v⟩, w, h, hp, hq⟩
        · exact .inr ⟨hp, h ▸ hq⟩
        · cases h
          exact .inl ⟨v, w, rfl, hp, hq⟩
      · rintro (⟨v, w, rfl, hp, hq⟩ | ⟨hp, hq⟩)
        · exact ⟨c :: v, w, rfl, hp, hq⟩
        · exact ⟨[], c :: u, rfl, hp, hq⟩
    simp only [deriv]
    split
    · rename_i hn
      simp only [matches_orElse, matches_andThen, ihq, hseq, nullable_iff.1 hn, true_and]
    · rename_i hn
      rw [nullable_iff] at hn
      simp only [matches_andThen, hseq, hn, false_and, or_false]
  | alt p q ihp ihq => simp only [deriv, matches_orElse, matches_alt, ihp, ihq]
  | star p ih => simp only [deriv, matches_andThen, matches_seq, ih, matches_star_cons]

theorem accepts_iff : p.accepts u = true ↔ Matches p u := by
  induction u generalizing p with
  | nil => exact nullable_iff
  | cons c u ih => rw [accepts, ih, matches_deriv]

theorem longest_fail (u : List Char) : fail.longest u = none := by
  cases u <;> rfl

theorem longest_cons (p : Pattern) (c : Char) (u : List Char) :
    p.longest (c :: u) = match (p.deriv c).longest u with
      | some n => some (n + 1)
      | none => if p.nullable then some 0 else none := by
  simp only [longest]
  split
  · rename_i hd
    rw [hd, longest_fail]
  · rfl

theorem longest_spec (p : Pattern) (u : List Char) :
    match p.longest u with
    | some n => (n ≤ u.length ∧ Matches p (u.take n)) ∧
      ∀ m, m ≤ u.length → Matches p (u.take m) → m ≤ n
    | none => ∀ m, m ≤ u.length → ¬ Matches p (u.take m) := by
  induction u generalizing p with
  | nil =>
    simp only [longest]
    split
    · rename_i n h
      split at h
      · rename_i hn
        cases h
        exact ⟨⟨Nat.le_refl 0, nullable_iff.1 hn⟩, fun m hm _ => hm⟩
      · cases h
    · rename_i h
      split at h
      · cases h
      · rename_i hn
        intro m _ hm
        rw [List.take_nil] at hm
        exact hn (nullable_iff.2 hm)
  | cons c u ih =>
    have ih := ih (p.deriv c)
    rw [longest_cons]
    cases hl : (p.deriv c).longest u with
    | some n =>
      simp only [hl, matches_deriv] at ih
      refine ⟨⟨Nat.succ_le_succ ih.1.1, ih.1.2⟩, fun m hm hmatch => ?_⟩
      cases m with
      | zero => exact Nat.zero_le _
      | succ m => exact Nat.succ_le_succ (ih.2 m (Nat.le_of_succ_le_succ hm) hmatch)
    | none =>
      simp only [hl, matches_deriv] at ih
      have hno : ∀ m, m + 1 ≤ (c :: u).length → ¬ Matches p ((c :: u).take (m + 1)) :=
        fun m hm hmatch => ih m (Nat.le_of_succ_le_succ hm) hmatch
      by_cases hn : p.nullable
      · rw [if_pos hn]
        refine ⟨⟨Nat.zero_le _, nullable_iff.1 hn⟩, fun m hm hmatch => ?_⟩
        cases m with
        | zero => exact Nat.le_refl 0
        | succ m => exact absurd hmatch (hno m hm)
      · rw [if_neg hn]
        intro m hm hmatch
        cases m with
        | zero => exact hn (nullable_iff.2 hmatch)
        | succ m => exact hno m hm hmatch

end Pattern

namespace Rule

/-- The first rule that matches the whole text. -/
def first? (rules : List Rule) (x : Text) : Option Rule :=
  rules.find? fun rule => rule.pattern.accepts x

theorem first?_eq_none {rules : List Rule} {x : Text} :
    first? rules x = none ↔ ∀ rule ∈ rules, ¬ rule.pattern.Matches x := by
  simp [first?, ← Pattern.accepts_iff]

theorem first?_some {rules : List Rule} {x : Text} {rule : Rule}
    (h : first? rules x = some rule) : rule ∈ rules ∧ rule.pattern.Matches x := by
  refine ⟨List.mem_of_find?_eq_some h, ?_⟩
  have := List.find?_some h
  exact Pattern.accepts_iff.1 this

theorem first?_of_matches {rules : List Rule} {x : Text} {rule : Rule} (h : rule.pattern.Matches x) :
    first? (rule :: rules) x = some rule := by
  rw [first?, List.find?_cons, Pattern.accepts_iff.2 h]

theorem first?_of_not_matches {rules : List Rule} {x : Text} {rule : Rule}
    (h : ¬ rule.pattern.Matches x) : first? (rule :: rules) x = first? rules x := by
  rw [first?, List.find?_cons, Bool.eq_false_iff.2 (mt Pattern.accepts_iff.1 h)]
  rfl

/-- No rule matches more of the text, and the first that matches as much is taken. A match of length
zero counts as none. -/
def IsBest (rules : List Rule) (text : Text) : Option (Rule × Nat) → Prop
  | some (rule, n) => (0 < n ∧ n ≤ text.length) ∧ first? rules (text.take n) = some rule ∧
    ∀ m, n < m → m ≤ text.length → first? rules (text.take m) = none
  | none => ∀ m, 0 < m → m ≤ text.length → first? rules (text.take m) = none

section IsBest

variable {rules : List Rule} {text : Text} {rule : Rule} {best : Option (Rule × Nat)} {n : Nat}

theorem IsBest.pass (h : IsBest rules text best)
    (hno : ∀ m, 0 < m → m ≤ text.length → ¬ rule.pattern.Matches (text.take m)) :
    IsBest (rule :: rules) text best := by
  cases best with
  | none => exact fun m hm hm' => (first?_of_not_matches (hno m hm hm')).trans (h m hm hm')
  | some best =>
    obtain ⟨⟨hn, hn'⟩, hfirst, hmax⟩ := h
    exact ⟨⟨hn, hn'⟩, (first?_of_not_matches (hno _ hn hn')).trans hfirst, fun m hm hm' =>
      (first?_of_not_matches (hno m (hn.trans hm) hm')).trans (hmax m hm hm')⟩

theorem IsBest.replace (h : IsBest rules text best) (hn : 0 < n ∧ n ≤ text.length)
    (hmatch : rule.pattern.Matches (text.take n))
    (hmax : ∀ m, m ≤ text.length → rule.pattern.Matches (text.take m) → m ≤ n)
    (hbest : ∀ other m, best = some (other, m) → m ≤ n) :
    IsBest (rule :: rules) text (some (rule, n)) := by
  refine ⟨hn, first?_of_matches hmatch, fun m hm hm' => ?_⟩
  rw [first?_of_not_matches fun hm'' => absurd (hmax m hm' hm'') (by omega)]
  cases best with
  | none => exact h m (by omega) hm'
  | some best => exact h.2.2 m ((hbest _ _ rfl).trans_lt hm) hm'

theorem IsBest.keep {other : Rule} {m : Nat} (h : IsBest rules text (some (other, m)))
    (hmax : ∀ l, l ≤ text.length → rule.pattern.Matches (text.take l) → l < m) :
    IsBest (rule :: rules) text (some (other, m)) := by
  obtain ⟨⟨hm, hm'⟩, hfirst, hafter⟩ := h
  have hno : ∀ l, m ≤ l → l ≤ text.length → ¬ rule.pattern.Matches (text.take l) :=
    fun l hl hl' hmatch => absurd (hmax l hl' hmatch) (by omega)
  exact ⟨⟨hm, hm'⟩, (first?_of_not_matches (hno m (Nat.le_refl m) hm')).trans hfirst,
    fun l hl hl' => (first?_of_not_matches (hno l hl.le hl')).trans (hafter l hl hl')⟩

end IsBest

end Rule

theorem longestMatch_isBest (text : Text) (rules : List Rule) :
    Rule.IsBest rules text (longestMatch text rules) := by
  induction rules with
  | nil => exact fun _ _ _ => rfl
  | cons rule rules ih =>
    have hl := rule.pattern.longest_spec text
    cases hlong : rule.pattern.longest text with
    | none =>
      rw [hlong] at hl
      simp only [longestMatch, hlong]
      exact ih.pass fun m _ hm => hl m hm
    | some n =>
      rw [hlong] at hl
      obtain ⟨⟨hn, hmatch⟩, hmax⟩ := hl
      cases n with
      | zero =>
        simp only [longestMatch, hlong]
        exact ih.pass fun m hm hm' h => absurd (hmax m hm' h) (by omega)
      | succ n =>
        cases hbest : longestMatch text rules with
        | none =>
          rw [hbest] at ih
          simp only [longestMatch, hlong, hbest]
          exact ih.replace ⟨Nat.succ_pos n, hn⟩ hmatch hmax fun _ _ h => by cases h
        | some best =>
          obtain ⟨other, m⟩ := best
          rw [hbest] at ih
          simp only [longestMatch, hlong, hbest]
          by_cases hle : m ≤ n + 1
          · rw [if_pos hle]
            refine ih.replace ⟨Nat.succ_pos n, hn⟩ hmatch hmax fun _ _ h => ?_
            cases h
            exact hle
          · rw [if_neg hle]
            exact ih.keep fun l hl h => (hmax l hl h).trans_lt (by omega)

theorem longestMatch_congr {text text' : Text} {rules : List Rule}
    (h : ∀ rule ∈ rules, rule.pattern.longest text = rule.pattern.longest text') :
    longestMatch text rules = longestMatch text' rules := by
  induction rules with
  | nil => rfl
  | cons rule rules ih =>
    obtain ⟨hrule, hrules⟩ := List.forall_mem_cons.1 h
    simp only [longestMatch, hrule, ih hrules]

end BrightCoverage
