import Mathlib.Data.List.TakeWhile
import Mathlib.Tactic.Common
import BrightCoverage.Grammar.Directive

/-! The two spellings of `#else if` and `#end if`. With the blank, the word `if` has to end before any
letter, digit or underscore; without it the whole run of letters is the word, and a digit or an
underscore may follow. So the two spellings mean the same exactly where nothing is glued to them, and
where something is, each is taken for something of its own. -/

namespace BrightCoverage

theorem length_trimRight_le (u v : List Char) :
    (trimRight v).length ≤ (trimRight (u ++ v)).length := by
  unfold trimRight
  rw [List.reverse_append, List.dropWhile_append]
  split
  · next hempty => simp [List.isEmpty_iff.1 hempty]
  · simp

theorem length_trimRight_lt {a : Char} (ha : isBlank a = false) (u v : List Char) :
    (trimRight v).length < (trimRight (a :: u ++ v)).length := by
  have hne : (u.reverse ++ [a]).dropWhile isBlank ≠ [] := by
    rw [Ne, List.dropWhile_eq_nil_iff]
    intro hall
    rw [hall a (by simp)] at ha
    cases ha
  unfold trimRight
  rw [List.reverse_append, List.reverse_cons, List.dropWhile_append]
  split
  · next hempty =>
    rw [List.isEmpty_iff.1 hempty]
    simpa using List.length_pos_iff.2 hne
  · simp only [List.length_reverse, List.length_append, List.length_cons, List.length_nil]
    omega

namespace Directive

def glued : List Char → Bool
  | [] => false
  | c :: _ => c.isAlphanum || c = '_'

/-- What a directive line means: its kind and its arguments. -/
def meaning (d : Directive) : Option DirectiveKind × List Char :=
  (d.kind, d.args)

def words : List (List Char) :=
  ["if".toList, "elseif".toList, "else".toList, "endif".toList, "const".toList, "error".toList,
    "end".toList]

/-- The words that go together with `if`, each with the directive that it is alone and the one that it
is with `if`. -/
def stems : List (List Char × Option DirectiveKind × DirectiveKind) :=
  [("else".toList, some .elseDir, .elseIfDir), ("end".toList, none, .endIfDir)]

variable {stem : List Char} {alone : Option DirectiveKind} {paired : DirectiveKind}

theorem stems_cases (h : (stem, alone, paired) ∈ stems) :
    (stem = "else".toList ∧ alone = some .elseDir ∧ paired = .elseIfDir) ∨
      (stem = "end".toList ∧ alone = none ∧ paired = .endIfDir) := by
  simpa [stems] using h

theorem ofLine_stem (h : (stem, alone, paired) ∈ stems) (tail : List Char) :
    ofLine ('#' :: (stem ++ tail)) =
      let word := String.ofList (lower (stem ++ tail.takeWhile Char.isAlpha))
      match word, afterIf (tail.dropWhile Char.isAlpha) with
      | "else", some args => ⟨some .elseIfDir, stem ++ tail.takeWhile Char.isAlpha, trim args⟩
      | "end", some args => ⟨some .endIfDir, stem ++ tail.takeWhile Char.isAlpha, trim args⟩
      | _, _ => ⟨kindOfWord word, stem ++ tail.takeWhile Char.isAlpha,
          trim (tail.dropWhile Char.isAlpha)⟩ := by
  obtain ⟨rfl, rfl, rfl⟩ | ⟨rfl, rfl, rfl⟩ := stems_cases h <;> rfl

/-! ### With the blank -/

theorem afterIf_if (rest : List Char) :
    afterIf (" if".toList ++ rest) = if glued rest then none else some rest := by
  have hblank : isBlank ' ' = true := by decide
  have hletter : isBlank 'i' = false := by decide
  have hword : lower ['i', 'f'] = ['i', 'f'] := by decide
  show afterIf (' ' :: 'i' :: 'f' :: rest) = _
  unfold afterIf
  rw [trimLeft, List.dropWhile_cons_of_pos hblank, List.dropWhile_cons_of_neg (by simp [hletter])]
  cases rest with
  | nil => rfl
  | cons c rest => cases h : c.isAlphanum <;> by_cases hc : c = '_' <;> simp [glued, h, hc, hword]

theorem ofLine_spaced (h : (stem, alone, paired) ∈ stems) (rest : List Char) :
    ofLine ('#' :: (stem ++ (" if".toList ++ rest))) =
      if glued rest then ⟨alone, stem, trim (" if".toList ++ rest)⟩
      else ⟨some paired, stem, trim rest⟩ := by
  have hname : (" if".toList ++ rest).takeWhile Char.isAlpha = [] := rfl
  have hrest : (" if".toList ++ rest).dropWhile Char.isAlpha = " if".toList ++ rest := rfl
  rw [ofLine_stem h, hname, hrest, afterIf_if, List.append_nil]
  obtain ⟨rfl, rfl, rfl⟩ | ⟨rfl, rfl, rfl⟩ := stems_cases h <;> cases glued rest <;> rfl

/-! ### Without the blank -/

theorem notMem_words (h : (stem, alone, paired) ∈ stems) (c : Char) (letters : List Char) :
    lower (stem ++ ("if".toList ++ c :: letters)) ∉ words := by
  obtain ⟨rfl, rfl, rfl⟩ | ⟨rfl, rfl, rfl⟩ := stems_cases h <;> simp [words, lower]

theorem kindOfWord_of_notMem {word : List Char} (h : word ∉ words) :
    kindOfWord (String.ofList word) = none := by
  unfold kindOfWord
  split
  all_goals first | rfl | exact absurd (String.ofList_injective ‹_›) (by simp_all [words])

theorem ofLine_joined (h : (stem, alone, paired) ∈ stems) (rest : List Char) :
    ofLine ('#' :: (stem ++ ("if".toList ++ rest))) =
      if rest.head?.any Char.isAlpha then
        ⟨none, stem ++ ("if".toList ++ rest.takeWhile Char.isAlpha),
          trim (rest.dropWhile Char.isAlpha)⟩
      else ⟨some paired, stem ++ "if".toList, trim rest⟩ := by
  have hname : ("if".toList ++ rest).takeWhile Char.isAlpha
      = "if".toList ++ rest.takeWhile Char.isAlpha := rfl
  have hrest : ("if".toList ++ rest).dropWhile Char.isAlpha = rest.dropWhile Char.isAlpha := rfl
  rw [ofLine_stem h, hname, hrest]
  cases rest with
  | nil => obtain ⟨rfl, rfl, rfl⟩ | ⟨rfl, rfl, rfl⟩ := stems_cases h <;> rfl
  | cons c rest =>
    cases hc : c.isAlpha with
    | false =>
      obtain ⟨rfl, rfl, rfl⟩ | ⟨rfl, rfl, rfl⟩ := stems_cases h <;> simp [hc] <;> rfl
    | true =>
      have hword := notMem_words h c (rest.takeWhile Char.isAlpha)
      rw [List.takeWhile_cons_of_pos hc, List.head?_cons, Option.any_some, if_pos hc]
      dsimp only
      split
      · next heq _ =>
        have helse := String.ofList_injective (heq.trans (String.ofList_toList (s := "else")).symm)
        exact absurd (helse ▸ by simp [words]) hword
      · next heq _ =>
        have hend := String.ofList_injective (heq.trans (String.ofList_toList (s := "end")).symm)
        exact absurd (hend ▸ by simp [words]) hword
      · rw [kindOfWord_of_notMem hword]

/-! ### Both spellings -/

theorem isAlpha_of_not_glued {rest : List Char} (h : glued rest = false) :
    rest.head?.any Char.isAlpha = false := by
  cases rest with
  | nil => rfl
  | cons c rest =>
    simp only [glued, Char.isAlphanum, Bool.or_eq_false_iff] at h
    simpa using h.1.1

/-- Where something is glued to `if`, at least the arguments differ. -/
theorem meaning_ne_of_glued (h : (stem, alone, paired) ∈ stems) {rest : List Char}
    (hg : glued rest = true) : (ofLine ('#' :: (stem ++ ("if".toList ++ rest)))).meaning
      ≠ (ofLine ('#' :: (stem ++ (" if".toList ++ rest)))).meaning := by
  rw [ofLine_joined h, ofLine_spaced h, if_pos hg]
  intro heq
  cases hc : rest.head?.any Char.isAlpha with
  | false =>
    rw [hc] at heq
    obtain ⟨rfl, rfl, rfl⟩ | ⟨rfl, rfl, rfl⟩ := stems_cases h <;> cases congrArg Prod.fst heq
  | true =>
    rw [hc] at heq
    have hargs : (trim (rest.dropWhile Char.isAlpha)).length
        = (trim (" if".toList ++ rest)).length := congrArg (fun m => m.2.length) heq
    have hspaced : trim (" if".toList ++ rest) = trimRight ("if".toList ++ rest) := rfl
    obtain ⟨lead, hlead⟩ : trimLeft (rest.dropWhile Char.isAlpha) <:+ rest :=
      (List.dropWhile_suffix _).trans (List.dropWhile_suffix _)
    have hle := length_trimRight_le lead (trimLeft (rest.dropWhile Char.isAlpha))
    have hlt := length_trimRight_lt (a := 'i') (by decide) ['f'] rest
    rw [hlead] at hle
    rw [hspaced, trim] at hargs
    exact absurd hargs (Nat.ne_of_lt (Nat.lt_of_le_of_lt hle hlt))

theorem meaning_eq_iff (h : (stem, alone, paired) ∈ stems) (rest : List Char) :
    (ofLine ('#' :: (stem ++ ("if".toList ++ rest)))).meaning
      = (ofLine ('#' :: (stem ++ (" if".toList ++ rest)))).meaning ↔ glued rest = false := by
  constructor
  · intro heq
    cases hg : glued rest with
    | false => rfl
    | true => exact absurd heq (meaning_ne_of_glued h hg)
  · intro hg
    rw [ofLine_joined h, ofLine_spaced h, hg, isAlpha_of_not_glued hg]
    rfl

/-- With and without the blank, `#else if` and `#end if` mean the same exactly where no letter, digit
or underscore is glued to them. Where one is, `#else if` is an `#else` and `#end if` no directive, but
in one word only a letter makes them none. -/
theorem ofLine_spellings (rest : List Char) :
    ((ofLine ("#elseif".toList ++ rest)).meaning = (ofLine ("#else if".toList ++ rest)).meaning ↔
      glued rest = false) ∧
    ((ofLine ("#endif".toList ++ rest)).meaning = (ofLine ("#end if".toList ++ rest)).meaning ↔
      glued rest = false) ∧
    (ofLine ("#else if".toList ++ rest)).kind
      = (if glued rest then some .elseDir else some .elseIfDir) ∧
    (ofLine ("#end if".toList ++ rest)).kind = (if glued rest then none else some .endIfDir) ∧
    (ofLine ("#elseif".toList ++ rest)).kind
      = (if rest.head?.any Char.isAlpha then none else some .elseIfDir) ∧
    (ofLine ("#endif".toList ++ rest)).kind
      = (if rest.head?.any Char.isAlpha then none else some .endIfDir) := by
  have helse : ("else".toList, some .elseDir, .elseIfDir) ∈ stems := by simp [stems]
  have hend : ("end".toList, none, .endIfDir) ∈ stems := by simp [stems]
  refine ⟨meaning_eq_iff helse rest, meaning_eq_iff hend rest, ?_, ?_, ?_, ?_⟩
  · refine (congrArg kind (ofLine_spaced helse rest)).trans ?_
    cases glued rest <;> rfl
  · refine (congrArg kind (ofLine_spaced hend rest)).trans ?_
    cases glued rest <;> rfl
  · refine (congrArg kind (ofLine_joined helse rest)).trans ?_
    cases rest.head?.any Char.isAlpha <;> rfl
  · refine (congrArg kind (ofLine_joined hend rest)).trans ?_
    cases rest.head?.any Char.isAlpha <;> rfl

/-- A digit glued to `if` is an argument of `#elseif`, but makes an `#else` of `#else if`. -/
theorem ofLine_elseIf_digit :
    ¬ ∀ rest : List Char, '\n' ∉ rest →
      (ofLine ("#elseif".toList ++ rest)).meaning = (ofLine ("#else if".toList ++ rest)).meaning ∧
      (ofLine ("#endif".toList ++ rest)).meaning = (ofLine ("#end if".toList ++ rest)).meaning := by
  intro h
  have hkind := congrArg Prod.fst (h ['1'] (by decide)).1
  revert hkind
  decide

end Directive

end BrightCoverage
