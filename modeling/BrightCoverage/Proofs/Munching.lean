import Mathlib.Data.List.Nodup
import BrightCoverage.Proofs.CaseFolding
import BrightCoverage.Proofs.Relexing

/-! Longest matches. A text is cut from left to right, and what is cut off is always the longest text
that any rule matches there. Two rules match one text only if one of them is that of the identifiers
and the other that of a keyword or of the REM comment, so the rule that makes an item is known without
an order of the rules. The tokens of a text are what is cut off in this way, each at its place. -/

namespace BrightCoverage

open Directive (lower)

/-! ### Characters that a match starts with or contains -/

def CharClass.apart (k l : CharClass) : Bool :=
  !k.negated && !l.negated && k.ranges.all fun (a, b) => l.ranges.all fun (c, d) => b < c || d < a

theorem CharClass.not_contains_of_apart {k l : CharClass} {c : Char} (h : k.apart l = true)
    (hk : k.contains c = true) : ¬ l.contains c = true := by
  simp only [apart, Bool.and_eq_true, Bool.not_eq_true', List.all_eq_true, Bool.or_eq_true,
    decide_eq_true_eq, Prod.forall] at h
  obtain ⟨⟨hnk, hnl⟩, hranges⟩ := h
  simp only [contains, hnk, hnl, Bool.bne_false, List.any_eq_true, Bool.and_eq_true,
    decide_eq_true_eq, Prod.exists] at hk ⊢
  rintro ⟨low', high', hmem', hlow', hhigh'⟩
  obtain ⟨low, high, hmem, hlow, hhigh⟩ := hk
  rcases hranges low high hmem low' high' hmem' with hlt | hlt
  · exact Char.not_le.2 hlt (Char.le_trans hlow' hhigh)
  · exact Char.not_le.2 hlt (Char.le_trans hlow hhigh')

namespace Pattern

variable {p q : Pattern} {x : Text}

/-- The classes of the characters that matches start with. -/
def heads : Pattern → List CharClass
  | fail | empty => []
  | one k => [k]
  | seq p q => if p.nullable then p.heads ++ q.heads else p.heads
  | alt p q => p.heads ++ q.heads
  | star p => p.heads

theorem exists_head (h : p.Matches x) : ∀ c ∈ x.head?, ∃ k ∈ p.heads, k.contains c = true := by
  induction h with
  | empty | nil => simp
  | one hk => simpa [heads] using hk
  | @seq p q u v hp hq ihp ihq =>
    intro c hc
    cases u with
    | nil =>
      obtain ⟨k, hk, hcontains⟩ := ihq c hc
      refine ⟨k, ?_, hcontains⟩
      rw [heads, if_pos (nullable_iff.2 hp)]
      exact List.mem_append_right _ hk
    | cons d u =>
      obtain ⟨k, hk, hcontains⟩ := ihp c hc
      refine ⟨k, ?_, hcontains⟩
      rw [heads]
      split
      · exact List.mem_append_left _ hk
      · exact hk
  | left _ ih =>
    intro c hc
    obtain ⟨k, hk, hcontains⟩ := ih c hc
    exact ⟨k, List.mem_append_left _ hk, hcontains⟩
  | right _ ih =>
    intro c hc
    obtain ⟨k, hk, hcontains⟩ := ih c hc
    exact ⟨k, List.mem_append_right _ hk, hcontains⟩
  | @cons p u v _ _ ih ih' =>
    cases u with
    | nil => exact ih'
    | cons d u => exact ih

/-- Whether no matches of the two patterns start with the same character. -/
def apart (p q : Pattern) : Bool :=
  p.heads.all fun k => q.heads.all fun l => k.apart l

theorem not_matches_of_apart (h : p.apart q = true) (hx : x ≠ []) (hp : p.Matches x) :
    ¬ q.Matches x := by
  intro hq
  obtain ⟨c, u, rfl⟩ := List.exists_cons_of_ne_nil hx
  obtain ⟨k, hk, hcontains⟩ := exists_head hp c rfl
  obtain ⟨l, hl, hcontains'⟩ := exists_head hq c rfl
  have hapart := List.all_eq_true.1 (List.all_eq_true.1 h k hk) l hl
  exact CharClass.not_contains_of_apart hapart hcontains hcontains'

/-- Whether every match contains one of the characters, by the classes of the pattern. -/
def needs (chars : List Char) : Pattern → Bool
  | fail => true
  | empty | star _ => false
  | one k => !k.negated && k.ranges.all fun (low, high) => low = high && low ∈ chars
  | seq p q => p.needs chars || q.needs chars
  | alt p q => p.needs chars && q.needs chars

theorem exists_mem_of_needs {chars : List Char} (hp : p.needs chars = true) (h : p.Matches x) :
    ∃ c ∈ x, c ∈ chars := by
  induction h with
  | empty | nil | cons => cases hp
  | @one k c hk =>
    simp only [needs, Bool.and_eq_true, Bool.not_eq_true', List.all_eq_true, decide_eq_true_eq,
      Prod.forall] at hp
    simp only [CharClass.contains, hp.1, Bool.bne_false, List.any_eq_true, Bool.and_eq_true,
      decide_eq_true_eq, Prod.exists] at hk
    obtain ⟨low, high, hmem, hlow, hhigh⟩ := hk
    obtain ⟨rfl, hchars⟩ := hp.2 low high hmem
    obtain rfl := Char.le_antisymm hlow hhigh
    exact ⟨low, List.mem_cons_self, hchars⟩
  | seq _ _ ih ih' =>
    simp only [needs, Bool.or_eq_true] at hp
    rcases hp with hp | hp
    · obtain ⟨c, hc, hchars⟩ := ih hp
      exact ⟨c, List.mem_append_left _ hc, hchars⟩
    · obtain ⟨c, hc, hchars⟩ := ih' hp
      exact ⟨c, List.mem_append_right _ hc, hchars⟩
  | left _ ih => exact ih (Bool.and_eq_true_iff.1 hp).1
  | right _ ih => exact ih (Bool.and_eq_true_iff.1 hp).2

theorem Caseless.accepts_lower (h : p.Caseless) (x : Text) : p.accepts (lower x) = p.accepts x := by
  induction x generalizing p with
  | nil => rfl
  | cons c x ih =>
    show p.accepts (c.toLower :: lower x) = _
    rw [accepts, accepts, h.deriv_toLower, ih (h.deriv c)]

theorem lower_of_matches_caseless {text : String}
    (htext : text.toList.all fun c => c ∈ capitals.map Char.toLower)
    (h : (caseless text).Matches x) : lower x = text.toList := by
  have hletters : ∀ c ∈ capitals.map Char.toLower, c.toLower.toLower = c ∧ c.toUpper.toLower = c :=
    List.all_iff_forall_prop.1 (by decide)
  have hchars := List.all_iff_forall_prop.1 htext
  unfold caseless at h
  generalize text.toList = chars at h hchars
  induction chars generalizing x with
  | nil => rw [matches_empty.1 h]; rfl
  | cons c chars ih =>
    obtain ⟨hc, hchars⟩ := List.forall_mem_cons.1 hchars
    obtain ⟨hlower, hupper⟩ := hletters c hc
    obtain ⟨_, w, rfl, hone, hw⟩ := matches_seq.1 h
    obtain ⟨d, rfl, hd⟩ := matches_one.1 hone
    rw [CharClass.caseless, CharClass.contains_of] at hd
    show d.toLower :: lower w = _
    rw [ih hw hchars]
    simp only [List.mem_cons, List.not_mem_nil, or_false] at hd
    rcases hd with rfl | rfl
    · rw [hlower]
    · rw [hupper]

end Pattern

/-! ### Texts that two rules match -/

deriving instance DecidableEq for Rule

namespace Rule

variable {rule other : Rule} {x : Text}

/-- Of two rules that match one text, which of them counts: a keyword and the REM comment come before
an identifier. -/
def Beats (rule other : Rule) : Prop :=
  other.kind = some .identifier ∧ (rule.pattern = remark ∨ ∃ k, rule.kind = some (.keyword k))

theorem ne_nil_of_matches (hr : rule ∈ all) (h : rule.pattern.Matches x) : x ≠ [] := by
  have hnullable : ∀ rule ∈ all, ¬ rule.pattern.nullable = true := by decide
  rintro rfl
  exact hnullable rule hr (Pattern.nullable_iff.2 h)

def spelling : Rule → String
  | ⟨some (.keyword k), _⟩ => k.spelling
  | ⟨some (.symbol s), _⟩ => s.spelling
  | _ => ""

theorem lower_of_fixed (hr : rule ∈ keywords ++ symbols) (h : rule.pattern.Matches x) :
    lower x = rule.spelling.toList := by
  rcases List.mem_append.1 hr with hr | hr
  · obtain ⟨k, -, rfl⟩ := List.mem_map.1 hr
    exact Pattern.lower_of_matches_caseless (by cases k <;> decide) h
  · obtain ⟨s, -, rfl⟩ := List.mem_map.1 hr
    rw [Pattern.matches_literal.1 h]
    cases s <;> decide

theorem eq_of_fixed (hr : rule ∈ keywords ++ symbols) (ho : other ∈ keywords ++ symbols)
    (h : rule.pattern.Matches x) (h' : other.pattern.Matches x) : other = rule := by
  have hnodup : ((keywords ++ symbols).map spelling).Nodup := by decide +kernel
  have hspelling : other.spelling.toList = rule.spelling.toList :=
    (lower_of_fixed ho h').symm.trans (lower_of_fixed hr h)
  exact List.inj_on_of_nodup_map hnodup ho hr (String.toList_inj.1 hspelling)

theorem beats_of_fixed (hr : rule ∈ keywords ++ symbols) (ho : other ∈ skipped ++ classes)
    (h : rule.pattern.Matches x) (h' : other.pattern.Matches x) : rule.Beats other := by
  have hkeywords : ∀ rule ∈ keywords, ∀ other ∈ skipped ++ classes,
      other.pattern.accepts rule.spelling.toList = true → other.kind = some .identifier := by
    decide +kernel
  have hsymbols : ∀ rule ∈ symbols, ∀ other ∈ skipped ++ classes,
      ¬ other.pattern.accepts rule.spelling.toList = true := by
    decide +kernel
  have hall : other ∈ all := by
    simp only [all, List.mem_append] at ho ⊢
    exact ho.imp_left fun ho => .inl (.inl ho)
  have haccepts : other.pattern.accepts rule.spelling.toList = true := by
    rw [← lower_of_fixed hr h, (caseless_pattern other hall).accepts_lower]
    exact Pattern.accepts_iff.2 h'
  rcases List.mem_append.1 hr with hr | hr
  · obtain ⟨k, -, hk⟩ := List.mem_map.1 hr
    exact ⟨hkeywords rule hr other ho haccepts, .inr ⟨k, by rw [← hk]⟩⟩
  · exact absurd haccepts (hsymbols rule hr other ho)

theorem not_matches_integer (h : float.Matches x) : ¬ integer.Matches x := by
  have havoids : ∀ c ∈ ['.', 'E', 'e', '!', '#'], integer.avoids c = true :=
    List.all_iff_forall_prop.1 (by decide)
  have hneeds : float.needs ['.', 'E', 'e', '!', '#'] = true := by decide
  obtain ⟨c, hc, hchars⟩ := Pattern.exists_mem_of_needs hneeds h
  exact fun hinteger => Pattern.notMem_of_avoids (havoids c hchars) hinteger hc

theorem count_doubleQuotes (w : Text) : (doubleQuotes w).count '"' = 2 * w.count '"' := by
  induction w with
  | nil => rfl
  | cons c w ih =>
    unfold doubleQuotes
    split
    · next hc =>
      subst hc
      simp only [List.count_cons_self, ih]
      omega
    · next hc => rw [List.count_cons_of_ne hc, List.count_cons_of_ne hc, ih]

theorem not_matches_openQuote (h : string.Matches x) : ¬ openQuote.Matches x := by
  intro h'
  obtain ⟨w, rfl, -⟩ := matches_string.1 h
  obtain ⟨w', hw', -⟩ := matches_openQuote.1 h'
  have hcount := congrArg (List.count '"') hw'
  simp only [quote, List.cons_append, List.count_cons_self, List.count_append, count_doubleQuotes,
    List.count_nil] at hcount
  omega

theorem apart_or_paired : ∀ rule ∈ skipped ++ classes, ∀ other ∈ skipped ++ classes,
    rule = other ∨ rule.pattern.apart other.pattern = true ∨
      (rule.pattern, other.pattern) ∈ [(integer, float), (float, integer), (string, openQuote),
        (openQuote, string)] ∨
      (rule.pattern = remark ∧ other.kind = some .identifier) ∨
      (other.pattern = remark ∧ rule.kind = some .identifier) := by
  decide +kernel

/-- Where two rules match one text, one of them counts. -/
theorem beats_or_beats (hr : rule ∈ all) (ho : other ∈ all) (h : rule.pattern.Matches x)
    (h' : other.pattern.Matches x) : other = rule ∨ rule.Beats other ∨ other.Beats rule := by
  have hcases : ∀ rule ∈ all, rule ∈ keywords ++ symbols ∨ rule ∈ skipped ++ classes := by
    intro rule hrule
    simp only [all, List.mem_append] at hrule ⊢
    rcases hrule with ((hrule | hrule) | hrule) | hrule
    · exact .inr (.inl hrule)
    · exact .inl (.inl hrule)
    · exact .inl (.inr hrule)
    · exact .inr (.inr hrule)
  rcases hcases rule hr with hfixed | hopen <;> rcases hcases other ho with hfixed' | hopen'
  · exact .inl (eq_of_fixed hfixed hfixed' h h')
  · exact .inr (.inl (beats_of_fixed hfixed hopen' h h'))
  · exact .inr (.inr (beats_of_fixed hfixed' hopen h' h))
  rcases apart_or_paired rule hopen other hopen' with heq | hapart | hpaired | hbeats | hbeats
  · exact .inl heq.symm
  · exact absurd h' (Pattern.not_matches_of_apart hapart (ne_nil_of_matches hr h) h)
  · simp only [List.mem_cons, Prod.mk.injEq, List.not_mem_nil, or_false] at hpaired
    rcases hpaired with ⟨hp, hq⟩ | ⟨hp, hq⟩ | ⟨hp, hq⟩ | ⟨hp, hq⟩
    all_goals rw [hp] at h; rw [hq] at h'
    · exact absurd h (not_matches_integer h')
    · exact absurd h' (not_matches_integer h)
    · exact absurd h' (not_matches_openQuote h)
    · exact absurd h (not_matches_openQuote h')
  · exact .inr (.inl ⟨hbeats.2, .inl hbeats.1⟩)
  · exact .inr (.inr ⟨hbeats.2, .inl hbeats.1⟩)

/-- The rule makes an item of the text: it matches, and it counts before all others that do. -/
structure Decides (rule : Rule) (x : Text) : Prop where
  mem : rule ∈ all
  holds : rule.pattern.Matches x
  ties : ∀ other ∈ all, other.pattern.Matches x → other = rule ∨ rule.Beats other

theorem mem_of_beats (hr : rule ∈ all) (h : rule.Beats other) : rule ∈ skipped ++ keywords := by
  have hremark : ∀ rule ∈ symbols ++ classes, rule.pattern ≠ remark := by decide
  have hkeyword : ∀ k, ∀ rule ∈ symbols ++ classes, rule.kind ≠ some (.keyword k) := by
    intro k
    cases k <;> decide
  rw [all, List.append_assoc, List.mem_append] at hr
  refine hr.resolve_right fun hmem => ?_
  rcases h.2 with hpattern | ⟨k, hkind⟩
  · exact hremark rule hmem hpattern
  · exact hkeyword k rule hmem hkind

theorem not_beats_first? (hfirst : first? all x = some rule) (ho : other ∈ all)
    (h : other.pattern.Matches x) : ¬ other.Beats rule := by
  intro hbeats
  have hkind : ∀ rule ∈ skipped ++ keywords, rule.kind ≠ some .identifier := by decide
  obtain ⟨found, hfound⟩ : ∃ found, first? (skipped ++ keywords) x = some found := by
    rw [← Option.isSome_iff_exists, first?, List.find?_isSome]
    exact ⟨other, mem_of_beats ho hbeats, Pattern.accepts_iff.2 h⟩
  have hall : first? all x = some found := by
    rw [all, List.append_assoc, first?, List.find?_append, ← first?, hfound]
    rfl
  obtain rfl := Option.some.inj (hfirst.symm.trans hall)
  exact hkind rule (first?_some hfound).1 hbeats.1

/-- The first rule that matches a text is the one that makes an item of it. -/
theorem first?_eq_some_iff : first? all x = some rule ↔ rule.Decides x := by
  have hdecides : ∀ {rule}, first? all x = some rule → rule.Decides x := by
    intro rule hfirst
    obtain ⟨hmem, hmatches⟩ := first?_some hfirst
    refine ⟨hmem, hmatches, fun other ho h => ?_⟩
    rcases beats_or_beats hmem ho hmatches h with heq | hbeats | hbeats
    · exact .inl heq
    · exact .inr hbeats
    · exact absurd hbeats (not_beats_first? hfirst ho h)
  refine ⟨hdecides, fun h => ?_⟩
  obtain ⟨found, hfound⟩ : ∃ found, first? all x = some found := by
    rw [← Option.isSome_iff_exists, first?, List.find?_isSome]
    exact ⟨rule, h.mem, Pattern.accepts_iff.2 h.holds⟩
  obtain ⟨hmem, hmatches⟩ := first?_some hfound
  rcases h.ties found hmem hmatches with heq | hbeats
  · rw [hfound, heq]
  · exact absurd hbeats (not_beats_first? hfound h.mem h.holds)

end Rule

/-! ### What is cut off -/

section CutsOff

variable {text x : Text} {kind : Option TokenKind}

def Rule.Matched (x : Text) : Prop :=
  ∃ rule ∈ all, rule.pattern.Matches x

/-- No rule matches anything at the start of the text. -/
def Rule.Unmatched (text : Text) : Prop :=
  ∀ x, x ≠ [] → x <+: text → ¬ Matched x

/-- What is cut off at the start of a text: the longest text that a rule matches, or one character
that starts no match; a hash mark takes along the spaces and tabs behind it. -/
inductive CutsOff (text : Text) : Option TokenKind → Text → Prop
  | longest {rule : Rule} {x : Text} : x <+: text → rule.Decides x →
    (∀ y, y <+: text → Rule.Matched y → y.length ≤ x.length) → CutsOff text rule.kind x
  | unknown {c : Char} {rest : Text} : text = c :: rest → c ≠ '#' → Rule.Unmatched text →
    CutsOff text (some .unknown) [c]
  | hash {blanks rest : Text} : text = '#' :: blanks ++ rest → (∀ b ∈ blanks, b ∈ [' ', '\t']) →
    (∀ b ∈ rest.head?, b ∉ [' ', '\t']) → Rule.Unmatched text →
    CutsOff text (some .unknown) ('#' :: blanks)

theorem Rule.matched_iff : Rule.Matched x ↔ Rule.first? Rule.all x ≠ none := by
  rw [ne_eq, Rule.first?_eq_none]
  simp [Rule.Matched]

theorem Rule.unmatched_iff : Rule.Unmatched text ↔
    ∀ n, 0 < n → n ≤ text.length → Rule.first? Rule.all (text.take n) = none := by
  constructor
  · intro h n hn hle
    by_contra hmatched
    refine h (text.take n) (fun hnil => ?_) (List.take_prefix n text) (Rule.matched_iff.2 hmatched)
    have hlength := congrArg List.length hnil
    rw [List.length_take, List.length_nil] at hlength
    omega
  · intro h x hx hprefix hmatched
    refine Rule.matched_iff.1 hmatched ?_
    rw [List.prefix_iff_eq_take.1 hprefix]
    exact h _ (List.length_pos_iff.2 hx) hprefix.length_le

theorem Rule.contains_blank {b : Char} : Rule.blank.contains b = true ↔ b ∈ [' ', '\t'] :=
  CharClass.contains_of

theorem takeWhile_blanks {blanks rest : Text} (hblanks : ∀ b ∈ blanks, b ∈ [' ', '\t'])
    (hrest : ∀ b ∈ rest.head?, b ∉ [' ', '\t']) :
    (blanks ++ rest).takeWhile Rule.blank.contains = blanks := by
  have hstop : rest.takeWhile Rule.blank.contains = [] := by
    cases rest with
    | nil => rfl
    | cons c rest =>
      exact List.takeWhile_cons_of_neg fun hc => hrest c rfl (Rule.contains_blank.1 hc)
  rw [List.takeWhile_append_of_pos fun b hb => Rule.contains_blank.2 (hblanks b hb), hstop,
    List.append_nil]

theorem cutsOff_of_unmatched (hne : text ≠ []) (h : Rule.Unmatched text) :
    CutsOff text (some .unknown) (text.take (unknownLength text)) := by
  obtain ⟨c, rest, rfl⟩ := List.exists_cons_of_ne_nil hne
  by_cases hc : c = '#'
  · subst hc
    have htake : ('#' :: rest).take (unknownLength ('#' :: rest))
        = '#' :: rest.takeWhile Rule.blank.contains := by
      rw [unknownLength, Nat.add_comm, List.take_succ_cons,
        ← List.prefix_iff_eq_take.1 (List.takeWhile_prefix _)]
    have hsplit : '#' :: rest = ('#' :: rest.takeWhile Rule.blank.contains)
        ++ rest.dropWhile Rule.blank.contains := by
      rw [List.cons_append, List.takeWhile_append_dropWhile]
    rw [htake]
    refine .hash hsplit (fun b hb => ?_) (fun b hb hmem => ?_) h
    · exact Rule.contains_blank.1 (List.mem_takeWhile_imp hb)
    · have hnot := List.head?_dropWhile_not Rule.blank.contains rest
      rw [Option.mem_def.1 hb] at hnot
      exact Bool.eq_false_iff.1 hnot (Rule.contains_blank.2 hmem)
  · have hlength : unknownLength (c :: rest) = 1 := by simp [unknownLength, hc]
    rw [hlength]
    exact .unknown rfl hc h

theorem CutsOff.eq_of_first? (h : CutsOff text kind x) {rule : Rule} {n : Nat}
    (hn : 0 < n ∧ n ≤ text.length) (hfirst : Rule.first? Rule.all (text.take n) = some rule)
    (hmax : ∀ m, n < m → m ≤ text.length → Rule.first? Rule.all (text.take m) = none) :
    kind = rule.kind ∧ x = text.take n := by
  have hmatched : ¬ Rule.Unmatched text := fun hno => by
    rw [Rule.unmatched_iff.1 hno n hn.1 hn.2] at hfirst
    cases hfirst
  cases h with
  | @longest decided x hprefix hdecides hlongest =>
    have hx := List.prefix_iff_eq_take.1 hprefix
    have hle : n ≤ x.length := by
      have hmatches : Rule.Matched (text.take n) :=
        Rule.matched_iff.2 (by rw [hfirst]; exact Option.some_ne_none rule)
      have hlength := hlongest _ (List.take_prefix n text) hmatches
      rwa [List.length_take, Nat.min_eq_left hn.2] at hlength
    have hge : x.length ≤ n := by
      by_contra hlt
      have hlonger := hmax x.length (by omega) hprefix.length_le
      rw [← hx, Rule.first?_eq_some_iff.2 hdecides] at hlonger
      cases hlonger
    obtain rfl : n = x.length := Nat.le_antisymm hle hge
    rw [← hx, Rule.first?_eq_some_iff.2 hdecides] at hfirst
    exact ⟨congrArg Rule.kind (Option.some.inj hfirst), hx⟩
  | unknown _ _ hno => exact absurd hno hmatched
  | hash _ _ _ hno => exact absurd hno hmatched

theorem CutsOff.eq_of_unmatched (h : CutsOff text kind x) (hno : Rule.Unmatched text) :
    kind = some .unknown ∧ x = text.take (unknownLength text) := by
  cases h with
  | longest hprefix hdecides =>
    have hne := Rule.ne_nil_of_matches hdecides.mem hdecides.holds
    exact absurd ⟨_, hdecides.mem, hdecides.holds⟩ (hno _ hne hprefix)
  | unknown htext hc =>
    subst htext
    simp [unknownLength, hc]
  | hash htext hblanks hrest =>
    subst htext
    refine ⟨rfl, ?_⟩
    simp only [List.cons_append, unknownLength, takeWhile_blanks hblanks hrest]
    rw [Nat.add_comm, List.take_succ_cons, List.take_left]

theorem cutsOff_nextItem (hne : text ≠ []) :
    CutsOff text (nextItem text).1 (text.take (nextItem text).2) := by
  rcases nextItem_spec text with ⟨rule, n, hn, hfirst, hmax, hnext⟩ | ⟨hnone, hnext⟩
  · rw [hnext]
    refine .longest (List.take_prefix n text) (Rule.first?_eq_some_iff.1 hfirst) fun y hy hmatched => ?_
    rw [List.length_take, Nat.min_eq_left hn.2]
    by_contra hlt
    refine Rule.matched_iff.1 hmatched ?_
    rw [List.prefix_iff_eq_take.1 hy]
    exact hmax _ (by omega) hy.length_le
  · rw [hnext]
    exact cutsOff_of_unmatched hne (Rule.unmatched_iff.2 hnone)

theorem cutsOff_iff (hne : text ≠ []) : CutsOff text kind x ↔
    kind = (nextItem text).1 ∧ x = text.take (nextItem text).2 := by
  constructor
  · intro h
    rcases nextItem_spec text with ⟨rule, n, hn, hfirst, hmax, hnext⟩ | ⟨hnone, hnext⟩
    · rw [hnext]
      exact h.eq_of_first? hn hfirst hmax
    · rw [hnext]
      exact h.eq_of_unmatched (Rule.unmatched_iff.2 hnone)
  · rintro ⟨rfl, rfl⟩
    exact cutsOff_nextItem hne

end CutsOff

/-! ### The tokens of a text -/

def Token.behind (source front : Text) (kind : TokenKind) (x : Text) : Token :=
  ⟨kind, String.ofList x, ⟨byteLength front, byteLength (front ++ x)⟩,
    (LineIndex.ofText source).position (byteLength front),
    (LineIndex.ofText source).position (byteLength (front ++ x))⟩

/-- The tokens of the rest of a source, behind the front that has been cut up already: again and again
what is cut off becomes a token or is skipped. -/
inductive Munches (source : Text) : Text → Text → List Token → Prop
  | done {front : Text} : Munches source front [] []
  | token {front x rest : Text} {kind : TokenKind} {ts : List Token} :
    CutsOff (x ++ rest) (some kind) x → Munches source (front ++ x) rest ts →
    Munches source front (x ++ rest) (.behind source front kind x :: ts)
  | skip {front x rest : Text} {ts : List Token} : CutsOff (x ++ rest) none x →
    Munches source (front ++ x) rest ts → Munches source front (x ++ rest) ts

section Munches

variable {source front rest x : Text} {ts : List Token}

theorem Token.behind_eq (hsource : source = front ++ x ++ rest) (kind : TokenKind) :
    Token.behind source front kind x = ⟨kind, String.ofList x,
      (Mark.origin.advance front).extentTo ((Mark.origin.advance front).advance x)⟩ := by
  have hstart := position_advance front (x ++ rest)
  have hstop := position_advance (front ++ x) rest
  rw [← List.append_assoc, ← hsource, Mark.offset_origin_advance] at hstart
  rw [← hsource, Mark.offset_origin_advance] at hstop
  rw [Token.behind, hstart, hstop, ← Mark.offset_origin_advance, ← Mark.offset_origin_advance,
    Mark.advance_append]
  rfl

theorem CutsOff.ne_nil {text : Text} {kind : Option TokenKind} (h : CutsOff text kind x) : x ≠ [] := by
  cases h with
  | longest _ hdecides => exact Rule.ne_nil_of_matches hdecides.mem hdecides.holds
  | unknown | hash => exact List.cons_ne_nil _ _

theorem CutsOff.items_append {kind : Option TokenKind} (h : CutsOff (x ++ rest) kind x) :
    items (x ++ rest) = ⟨kind, x⟩ :: items rest := by
  have hne : x ++ rest ≠ [] := List.append_ne_nil_of_left_ne_nil h.ne_nil rest
  obtain ⟨hkind, hx⟩ := (cutsOff_iff hne).1 h
  have hlength : (nextItem (x ++ rest)).2 = x.length := by
    have hlength := congrArg List.length hx
    rw [List.length_take, Nat.min_eq_left (nextItem_le hne)] at hlength
    exact hlength.symm
  rw [items_ne_nil hne, ← hkind, hlength, List.take_left, List.drop_left]

theorem exists_cutsOff {text : Text} (hne : text ≠ []) :
    ∃ kind x rest, text = x ++ rest ∧ CutsOff (x ++ rest) kind x := by
  have hsplit := List.take_append_drop (nextItem text).2 text
  refine ⟨(nextItem text).1, _, _, hsplit.symm, ?_⟩
  rw [hsplit]
  exact cutsOff_nextItem hne

theorem Munches.place_eq (h : Munches source front rest ts) (hsource : source = front ++ rest) :
    place (Mark.origin.advance front) (items rest) = ts := by
  induction h with
  | done => rw [items_nil]; rfl
  | @token front x rest kind ts hcuts _ ih =>
    rw [← List.append_assoc] at hsource
    rw [hcuts.items_append, place, ← Mark.advance_append, ih hsource, Mark.advance_append,
      Token.behind_eq hsource]
  | @skip front x rest ts hcuts _ ih =>
    rw [← List.append_assoc] at hsource
    rw [hcuts.items_append, place, ← Mark.advance_append, ih hsource]

theorem munches_place (hsource : source = front ++ rest) :
    Munches source front rest (place (Mark.origin.advance front) (items rest)) := by
  -- Induction on the length of the rest, which gets shorter by what is cut off.
  induction hn : rest.length using Nat.strongRecOn generalizing front rest with
  | _ n ih =>
    by_cases hne : rest = []
    · rw [hne, items_nil]
      exact .done
    · obtain ⟨kind, x, rest, rfl, hcuts⟩ := exists_cutsOff hne
      have hless : rest.length < n := by
        have hpos := List.length_pos_iff.2 hcuts.ne_nil
        rw [← hn, List.length_append]
        omega
      rw [← List.append_assoc] at hsource
      have hrest := ih rest.length hless hsource rfl
      rw [Mark.advance_append] at hrest
      rw [hcuts.items_append]
      cases kind with
      | none => exact .skip hcuts hrest
      | some kind =>
        rw [place, ← Token.behind_eq hsource]
        exact .token hcuts hrest

end Munches

/-- The tokens of a text are those that longest matches of the rules cut off. -/
theorem lex_eq_iff_munches (source : Text) (ts : List Token) :
    lex source = ts ↔ Munches source [] source ts := by
  rw [lex_eq_place]
  constructor
  · rintro rfl
    exact munches_place (List.nil_append source).symm
  · intro h
    exact h.place_eq (List.nil_append source).symm

end BrightCoverage
