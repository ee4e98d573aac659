import BrightCoverage.Proofs.Wording

/-! Lexing a line that something has been put into. Most rules match no text with a blank or a
parenthesis inside; the loose ones do, but they do not stop in front of more text on the line. So the
items in front of a cut stay what they were when a blank or a parenthesis comes behind them. -/

namespace BrightCoverage

open Pattern

namespace Rule

def blanks : Pattern :=
  plus (one (CharClass.of [' ', '\t', '\r']))

def comment : Pattern :=
  seq (literal "'") restOfLine

def remark : Pattern :=
  seq (caseless "rem") (optional (seq (one blank) restOfLine))

def string : Pattern :=
  seq openQuote (literal "\"")

/-- The patterns of the rules that match texts with blanks and parentheses in them. -/
def loose : List Pattern :=
  [blanks, comment, remark, string, openQuote, directive]

/-- Characters that only loose patterns go on with. -/
def dividers : List Char :=
  [' ', '\t', '\r', '(', ')']

theorem loose_or_avoids : ∀ rule ∈ all, rule.pattern ∈ loose ∨ ∀ d ∈ dividers,
    rule.pattern.avoids d = true ∨ rule.pattern = literal (String.singleton d) := by
  simp only [dividers, List.forall_mem_cons, List.not_mem_nil, false_imp_iff, implies_true]
  decide

theorem loose_of_matches {rule : Rule} {x u : Text} {d : Char} (hr : rule ∈ all) (hx : x ≠ [])
    (hd : d ∈ dividers) (hu : d ∈ u) (h : rule.pattern.Matches (x ++ u)) : rule.pattern ∈ loose := by
  rcases loose_or_avoids rule hr with hloose | havoid
  · exact hloose
  · rcases havoid d hd with havoid | hlit
    · exact absurd (List.mem_append_right x hu) (notMem_of_avoids havoid h)
    · rw [hlit, matches_literal, String.toList_singleton] at h
      have hlength := congrArg List.length h
      have hxpos := List.length_pos_iff.2 hx
      have hupos := List.length_pos_of_mem hu
      simp only [List.length_append, List.length_singleton] at hlength
      omega

/-! ### What the loose patterns match -/

theorem matches_restOfLine {u : Text} : restOfLine.Matches u ↔ '\n' ∉ u := by
  rw [restOfLine, matches_star_one]
  simp only [CharClass.contains_except, List.mem_singleton]
  exact ⟨fun h hmem => h _ hmem rfl, fun h c hc heq => h (heq ▸ hc)⟩

theorem matches_blanks {u : Text} : blanks.Matches u ↔ u ≠ [] ∧ ∀ c ∈ u, c ∈ [' ', '\t', '\r'] := by
  rw [blanks, plus, matches_seq]
  simp only [matches_one, matches_star_one, CharClass.contains_of]
  constructor
  · rintro ⟨_, w, rfl, ⟨c, rfl, hc⟩, hw⟩
    exact ⟨List.cons_ne_nil _ _, List.forall_mem_cons.2 ⟨hc, hw⟩⟩
  · rintro ⟨hne, h⟩
    obtain ⟨c, w, rfl⟩ := List.exists_cons_of_ne_nil hne
    obtain ⟨hc, hw⟩ := List.forall_mem_cons.1 h
    exact ⟨[c], w, rfl, ⟨c, rfl, hc⟩, hw⟩

theorem matches_comment {u : Text} : comment.Matches u ↔ ∃ v, u = '\'' :: v ∧ '\n' ∉ v := by
  rw [comment, matches_seq]
  simp only [matches_literal, matches_restOfLine]
  constructor
  · rintro ⟨_, w, rfl, rfl, hw⟩
    exact ⟨w, rfl, hw⟩
  · rintro ⟨v, rfl, hv⟩
    exact ⟨['\''], v, rfl, rfl, hv⟩

theorem matches_remark {u : Text} : remark.Matches u ↔ ∃ w v, u = w ++ v ∧
    (caseless "rem").Matches w ∧
      (v = [] ∨ ∃ b z, v = b :: z ∧ blank.contains b = true ∧ '\n' ∉ z) := by
  rw [remark, matches_seq]
  refine exists_congr fun w => exists_congr fun v => and_congr_right fun _ => and_congr_right fun _ => ?_
  rw [Pattern.optional, matches_alt, matches_empty, matches_seq, or_comm]
  refine or_congr_right ⟨?_, ?_⟩
  · rintro ⟨_, z, rfl, hone, hz⟩
    obtain ⟨b, rfl, hb⟩ := matches_one.1 hone
    exact ⟨b, z, rfl, hb, matches_restOfLine.1 hz⟩
  · rintro ⟨b, z, rfl, hb, hz⟩
    exact ⟨[b], z, rfl, .one hb, matches_restOfLine.2 hz⟩

theorem doubleQuotes_append (u v : Text) :
    doubleQuotes (u ++ v) = doubleQuotes u ++ doubleQuotes v := by
  induction u with
  | nil => rfl
  | cons c u ih =>
    simp only [List.cons_append, doubleQuotes, ih]
    split <;> rfl

theorem matches_inside {u : Text} : inside.Matches u ↔ ∃ w, u = doubleQuotes w ∧ '\n' ∉ w := by
  constructor
  · generalize hp : inside = p
    intro h
    induction h with
    | nil => exact ⟨[], rfl, List.not_mem_nil⟩
    | @cons p u v hu _ _ ih =>
      obtain rfl := Pattern.star.inj hp
      obtain ⟨w, rfl, hw⟩ := ih hp
      rcases matches_alt.1 hu with hu | hu
      · obtain ⟨c, rfl, hc⟩ := matches_one.1 hu
        rw [CharClass.contains_except] at hc
        simp only [List.mem_cons, List.not_mem_nil, or_false, not_or] at hc
        exact ⟨c :: w, by simp [doubleQuotes, hc.1], by simpa using ⟨Ne.symm hc.2, hw⟩⟩
      · obtain rfl := matches_literal.1 hu
        exact ⟨'"' :: w, rfl, by simpa using hw⟩
    | _ => cases hp
  · rintro ⟨w, rfl, hw⟩
    have h := accepts_doubleQuotes (p := inside) rfl (fun _ => deriv_inside) hw []
    rw [List.append_nil] at h
    exact accepts_iff.1 (h.trans rfl)

theorem matches_openQuote {u : Text} :
    openQuote.Matches u ↔ ∃ w, u = '"' :: doubleQuotes w ∧ '\n' ∉ w := by
  rw [openQuote, matches_seq]
  constructor
  · rintro ⟨_, v, rfl, hq, hv⟩
    obtain rfl := matches_literal.1 hq
    obtain ⟨w, rfl, hw⟩ := matches_inside.1 hv
    exact ⟨w, rfl, hw⟩
  · rintro ⟨w, rfl, hw⟩
    exact ⟨['"'], doubleQuotes w, rfl, matches_literal.2 rfl, matches_inside.2 ⟨w, rfl, hw⟩⟩

theorem matches_string {u : Text} : string.Matches u ↔ ∃ w, u = quote w ∧ '\n' ∉ w := by
  rw [string, matches_seq]
  constructor
  · rintro ⟨v, _, rfl, hv, hq⟩
    obtain ⟨w, rfl, hw⟩ := matches_openQuote.1 hv
    obtain rfl := matches_literal.1 hq
    exact ⟨w, rfl, hw⟩
  · rintro ⟨w, rfl, hw⟩
    exact ⟨'"' :: doubleQuotes w, ['"'], rfl, matches_openQuote.2 ⟨w, rfl, hw⟩,
      matches_literal.2 rfl⟩

theorem matches_directive {u : Text} : directive.Matches u ↔ ∃ bs c z, u = '#' :: bs ++ c :: z ∧
    (∀ b ∈ bs, blank.contains b = true) ∧ letter.contains c = true ∧ '\n' ∉ z := by
  simp only [directive, Pattern.all, List.foldr_cons, List.foldr_nil, matches_seq, matches_literal,
    matches_star_one, matches_restOfLine, matches_one, matches_empty]
  constructor
  · rintro ⟨_, _, rfl, rfl, bs, _, rfl, hbs, _, _, rfl, ⟨c, rfl, hc⟩, z, _, rfl, hz, rfl⟩
    exact ⟨bs, c, z, by simp, hbs, hc, hz⟩
  · rintro ⟨bs, c, z, rfl, hbs, hc, hz⟩
    exact ⟨['#'], bs ++ c :: z, by simp, rfl, bs, c :: z, rfl, hbs, [c], z, rfl, ⟨c, rfl, hc⟩, z, [],
      by simp, hz, rfl⟩

/-! ### Where the loose patterns stop -/

variable {p : Pattern} {rule : Rule} {x u : Text} {c d : Char}

theorem matches_rem {w : Text} (h : (caseless "rem").Matches w) :
    w ≠ [] ∧ ∀ c ∈ w, letter.contains c = true := by
  have hpattern : caseless "rem" = seq (one (CharClass.caseless 'r'))
      (seq (one (CharClass.caseless 'e')) (seq (one (CharClass.caseless 'm')) empty)) := rfl
  have hletter : ∀ k ∈ ['r', 'e', 'm'], ∀ c, (CharClass.caseless k).contains c = true →
      letter.contains c = true := by
    intro k hk c hc
    rw [CharClass.caseless, CharClass.contains_of] at hc
    revert c
    revert k
    simp only [List.forall_mem_cons, List.not_mem_nil, false_imp_iff, implies_true]
    decide
  simp only [hpattern, matches_seq, matches_one, matches_empty] at h
  obtain ⟨_, _, rfl, ⟨r, rfl, hr⟩, _, _, rfl, ⟨e, rfl, he⟩, _, _, rfl, ⟨m, rfl, hm⟩, rfl⟩ := h
  refine ⟨List.cons_ne_nil _ _, ?_⟩
  simp only [List.cons_append, List.nil_append, List.forall_mem_cons, List.not_mem_nil,
    false_imp_iff, implies_true, and_true]
  exact ⟨hletter _ (by decide) r hr, hletter _ (by decide) e he, hletter _ (by decide) m hm⟩

theorem matches_identifier (hc : wordStart.contains c = true)
    (hu : ∀ c ∈ u, wordPart.contains c = true) : identifier.Matches (c :: u) := by
  have h : identifier.Matches ([c] ++ (u ++ ([] ++ []))) :=
    .seq (.one hc) (.seq (matches_star_one.2 hu) (.seq (.right .empty) .empty))
  simpa using h

theorem wordStart_of_letter (h : letter.contains c = true) : wordStart.contains c = true := by
  simp only [CharClass.contains, letter, wordStart, List.any_cons, List.any_nil] at h ⊢
  grind

theorem wordPart_of_wordStart (h : wordStart.contains c = true) : wordPart.contains c = true := by
  simp only [CharClass.contains, wordPart, wordStart, List.any_cons, List.any_nil] at h ⊢
  grind

theorem kind_eq_none (hp : p ∈ [blanks, comment, remark]) (h : p.Matches x)
    (hfirst : first? all x = some rule) : rule.kind = none := by
  have hskipped : ∃ rule, skipped.find? (fun rule => rule.pattern.accepts x) = some rule := by
    rw [← Option.isSome_iff_exists, List.find?_isSome]
    simp only [List.mem_cons, List.not_mem_nil, or_false] at hp
    rcases hp with rfl | rfl | rfl
    · exact ⟨_, List.mem_cons_self, accepts_iff.2 h⟩
    · exact ⟨_, List.mem_cons_of_mem _ List.mem_cons_self, accepts_iff.2 h⟩
    · exact ⟨_, List.mem_cons_of_mem _ (List.mem_cons_of_mem _ List.mem_cons_self), accepts_iff.2 h⟩
  obtain ⟨other, hother⟩ := hskipped
  have hall : first? all x = some other := by
    rw [first?, all, List.append_assoc, List.append_assoc, List.find?_append, hother]
    rfl
  rw [hall] at hfirst
  have hkind : ∀ rule ∈ skipped, rule.kind = none := by decide
  exact Option.some.inj hfirst ▸ hkind other (List.mem_of_find?_eq_some hother)

theorem quote_cases (hfirst : first? all ('"' :: u) = some rule) :
    (∃ w, '"' :: u = quote w ∧ '\n' ∉ w) ∨
      (rule.kind = some .openString ∧ ∃ w, u = doubleQuotes w ∧ '\n' ∉ w) := by
  rw [first?_cons, startingWith_quote] at hfirst
  obtain ⟨hmem, hmatches⟩ := first?_some hfirst
  simp only [List.mem_cons, List.not_mem_nil, or_false] at hmem
  rcases hmem with rfl | rfl
  · exact .inl (matches_string.1 hmatches)
  · obtain ⟨w, hw, hnl⟩ := matches_openQuote.1 hmatches
    exact .inr ⟨rfl, w, (List.cons.inj hw).2, hnl⟩

theorem notMem_snoc (hc : c ≠ '\n') (h : '\n' ∉ x ++ c :: u) : '\n' ∉ x ++ [c] := by
  simp only [List.mem_append, List.mem_singleton, not_or]
  exact ⟨fun hmem => h (List.mem_append_left _ hmem), hc.symm⟩

theorem snoc_of_quote (hx : first? all ('"' :: x) = some rule) (hc : c ≠ '\n')
    (h : first? all ('"' :: x ++ c :: u) ≠ none) :
    string.Matches ('"' :: x ++ [c]) ∨ openQuote.Matches ('"' :: x ++ [c]) := by
  have hopen : ∀ w, '\n' ∉ w → openQuote.Matches ('"' :: (doubleQuotes w ++ doubleQuotes [c])) :=
    fun w hw => matches_openQuote.2 ⟨w ++ [c], by rw [doubleQuotes_append],
      by simpa using ⟨hw, hc.symm⟩⟩
  rcases quote_cases hx with ⟨w, hw, hnl⟩ | ⟨-, w, rfl, hnl⟩
  · by_cases hq : c = '"'
    · right
      subst hq
      rw [hw, quote]
      simpa [doubleQuotes] using hopen w hnl
    · exact absurd (hw ▸ first?_quote_dead hnl hq u) h
  · by_cases hq : c = '"'
    · exact .inl (matches_string.2 ⟨w, by rw [hq, quote], hnl⟩)
    · right
      have h := hopen w hnl
      rwa [doubleQuotes, if_neg hq] at h

theorem snoc_of_remark (hne : x ≠ []) (hc : c ≠ '\n') (h : remark.Matches (x ++ c :: u)) :
    remark.Matches (x ++ [c]) ∨ identifier.Matches (x ++ [c]) := by
  obtain ⟨w, v, heq, hw, hv⟩ := matches_remark.1 h
  rcases List.append_eq_append_iff.1 heq with ⟨a, rfl, ha⟩ | ⟨a, rfl, rfl⟩
  · cases a with
    | nil =>
      left
      rw [List.append_nil] at hw
      rw [List.nil_append] at ha
      obtain rfl | ⟨b, z, rfl, hb, -⟩ := hv
      · cases ha
      · obtain ⟨rfl, -⟩ := List.cons.inj ha
        exact matches_remark.2 ⟨x, [c], rfl, hw, .inr ⟨c, [], rfl, hb, List.not_mem_nil⟩⟩
    | cons a as =>
      right
      obtain ⟨rfl, -⟩ := List.cons.inj ha
      have hletters : ∀ b ∈ x ++ [c], letter.contains b = true := fun b hb => by
        refine (matches_rem hw).2 b ?_
        simp only [List.mem_append, List.mem_cons, List.not_mem_nil, or_false] at hb ⊢
        tauto
      obtain ⟨b, x, rfl⟩ := List.exists_cons_of_ne_nil hne
      refine matches_identifier (wordStart_of_letter (hletters b (by simp))) fun b hb => ?_
      exact wordPart_of_wordStart (wordStart_of_letter (hletters b (List.mem_cons_of_mem _ hb)))
  · left
    obtain hnil | ⟨b, z, hbz, hb, hz⟩ := hv
    · simp at hnil
    · refine matches_remark.2 ⟨w, a ++ [c], by simp, hw, .inr ?_⟩
      cases a with
      | nil =>
        obtain ⟨rfl, -⟩ := List.cons.inj hbz
        exact ⟨c, [], rfl, hb, List.not_mem_nil⟩
      | cons a as =>
        obtain ⟨rfl, rfl⟩ := List.cons.inj hbz
        exact ⟨a, as ++ [c], rfl, hb, notMem_snoc hc hz⟩

theorem kind_of_hash (hx : first? all ('#' :: x) = some rule) :
    rule.kind = some .directive ∧ directive.Matches ('#' :: x) := by
  have hrules : startingWith '#' = [⟨some .directive, directive⟩] := rfl
  rw [first?_cons, hrules] at hx
  obtain ⟨hmem, hmatches⟩ := first?_some hx
  obtain rfl := List.mem_singleton.1 hmem
  exact ⟨rfl, hmatches⟩

theorem snoc_of_directive (hc : c ≠ '\n') (h : directive.Matches x) : directive.Matches (x ++ [c]) := by
  obtain ⟨bs, l, z, rfl, hbs, hl, hz⟩ := matches_directive.1 h
  refine matches_directive.2 ⟨bs, l, z ++ [c], by simp, hbs, hl, ?_⟩
  simpa using ⟨hz, hc.symm⟩

/-- A loose pattern that goes on behind an item on the same line shows that some rule goes on with
the next character alone. -/
theorem exists_matches_snoc (hp : p ∈ loose) (hne : x ≠ []) (hx : first? all x = some rule)
    (hc : c ≠ '\n') (h : p.Matches (x ++ c :: u)) : first? all (x ++ [c]) ≠ none := by
  have hsome : ∀ k q, ⟨k, q⟩ ∈ all → q.Matches (x ++ [c]) → first? all (x ++ [c]) ≠ none :=
    fun k q hmem hq hnone => first?_eq_none.1 hnone ⟨k, q⟩ hmem hq
  have hstring : ⟨some .string, string⟩ ∈ all := by simp [all, classes, string]
  have hopen : ⟨some .openString, openQuote⟩ ∈ all := by simp [all, classes]
  have hquoted : ∀ k q, ⟨k, q⟩ ∈ all → q.Matches (x ++ c :: u) → x.head? = some '"' →
      first? all (x ++ [c]) ≠ none := by
    intro k q hmem hq hhead
    obtain ⟨_, x, rfl⟩ := List.exists_cons_of_ne_nil hne
    obtain rfl := Option.some.inj hhead
    rcases snoc_of_quote hx hc fun hnone => first?_eq_none.1 hnone ⟨k, q⟩ hmem hq with h | h
    · exact hsome _ _ hstring h
    · exact hsome _ _ hopen h
  simp only [loose, List.mem_cons, List.not_mem_nil, or_false] at hp
  -- Blanks, comments, remarks, strings, open quotes and directives. With one more character a string may
  -- turn into an open quote and back, so `hquoted` settles both.
  rcases hp with rfl | rfl | rfl | rfl | rfl | rfl
  · obtain ⟨-, hblank⟩ := matches_blanks.1 h
    refine hsome none blanks (by simp [all, skipped, blanks]) (matches_blanks.2 ⟨by simp, ?_⟩)
    intro b hb
    refine hblank b ?_
    simp only [List.mem_append, List.mem_cons] at hb ⊢
    tauto
  · obtain ⟨v, hv, hnl⟩ := matches_comment.1 h
    obtain ⟨_, x, rfl⟩ := List.exists_cons_of_ne_nil hne
    obtain ⟨rfl, rfl⟩ := List.cons.inj hv
    exact hsome none comment (by simp [all, skipped, comment])
      (matches_comment.2 ⟨x ++ [c], rfl, notMem_snoc hc hnl⟩)
  · rcases snoc_of_remark hne hc h with h | h
    · exact hsome none remark (by simp [all, skipped, remark]) h
    · exact hsome (some .identifier) identifier (by simp [all, classes]) h
  · obtain ⟨w, hw, -⟩ := matches_string.1 h
    refine hquoted _ _ hstring h ?_
    obtain ⟨_, x, rfl⟩ := List.exists_cons_of_ne_nil hne
    exact congrArg some (List.cons.inj hw).1
  · obtain ⟨w, hw, -⟩ := matches_openQuote.1 h
    refine hquoted _ _ hopen h ?_
    obtain ⟨_, x, rfl⟩ := List.exists_cons_of_ne_nil hne
    exact congrArg some (List.cons.inj hw).1
  · obtain ⟨bs, l, z, hbs, -⟩ := matches_directive.1 h
    obtain ⟨_, x, rfl⟩ := List.exists_cons_of_ne_nil hne
    obtain ⟨rfl, -⟩ := List.cons.inj hbs
    exact hsome (some .directive) directive (by simp [all, classes])
      (snoc_of_directive hc (kind_of_hash hx).2)

theorem not_matches_divider {k : TokenKind} (hp : p ∈ loose) (hne : x ≠ [])
    (hx : first? all x = some rule) (hkind : rule.kind = some k) (hk : k ≠ .directive)
    (hk' : k ≠ .openString) (hd : d ∈ dividers) : ¬ p.Matches (x ++ d :: u) := by
  intro h
  have hskipped : ∀ q ∈ [blanks, comment, remark], ¬ q.Matches x := fun q hq hm => by
    rw [kind_eq_none hq hm hx] at hkind
    cases hkind
  have hquoted : ∀ q k, ⟨k, q⟩ ∈ all → q.Matches (x ++ d :: u) → x.head? ≠ some '"' := by
    intro q k hmem hq hhead
    obtain ⟨_, x, rfl⟩ := List.exists_cons_of_ne_nil hne
    obtain rfl := Option.some.inj hhead
    rcases quote_cases hx with ⟨w, hw, hnl⟩ | ⟨hopen, -⟩
    · rw [hw] at hq
      refine first?_eq_none.1 (first?_quote_dead hnl ?_ u) _ hmem hq
      rintro rfl
      revert hd
      decide
    · rw [hkind, Option.some.injEq] at hopen
      exact hk' hopen
  simp only [loose, List.mem_cons, List.not_mem_nil, or_false] at hp
  -- Blanks, comments and remarks would match what stands before the divider as well, which is then no
  -- token. What starts with a quote is a closed string, and no rule goes on behind it.
  rcases hp with rfl | rfl | rfl | rfl | rfl | rfl
  · obtain ⟨-, hblank⟩ := matches_blanks.1 h
    exact hskipped blanks (by simp) (matches_blanks.2 ⟨hne, fun b hb =>
      hblank b (List.mem_append_left _ hb)⟩)
  · obtain ⟨v, hv, hnl⟩ := matches_comment.1 h
    obtain ⟨_, x, rfl⟩ := List.exists_cons_of_ne_nil hne
    obtain ⟨rfl, rfl⟩ := List.cons.inj hv
    exact hskipped comment (by simp) (matches_comment.2 ⟨x, rfl, fun hmem =>
      hnl (List.mem_append_left _ hmem)⟩)
  · obtain ⟨w, v, heq, hw, hv⟩ := matches_remark.1 h
    have hletter : ∀ d ∈ dividers, letter.contains d = false :=
      List.all_iff_forall_prop.1 (by decide)
    refine hskipped remark (by simp) (matches_remark.2 ?_)
    rcases List.append_eq_append_iff.1 heq with ⟨a, rfl, ha⟩ | ⟨a, rfl, rfl⟩
    · cases a with
      | nil => exact ⟨x, [], by simp, by simpa using hw, .inl rfl⟩
      | cons a as =>
        obtain ⟨rfl, -⟩ := List.cons.inj ha
        have hd := hletter d hd
        rw [(matches_rem hw).2 d (by simp)] at hd
        cases hd
    · refine ⟨w, a, rfl, hw, ?_⟩
      cases a with
      | nil => exact .inl rfl
      | cons a as =>
        obtain hnil | ⟨b, z, hbz, hb, hz⟩ := hv
        · cases hnil
        · obtain ⟨rfl, rfl⟩ := List.cons.inj hbz
          exact .inr ⟨a, as, rfl, hb, fun hmem => hz (List.mem_append_left _ hmem)⟩
  · obtain ⟨w, hw, -⟩ := matches_string.1 h
    refine hquoted string (some .string) (by simp [all, classes, string]) h ?_
    obtain ⟨_, x, rfl⟩ := List.exists_cons_of_ne_nil hne
    exact congrArg some (List.cons.inj hw).1
  · obtain ⟨w, hw, -⟩ := matches_openQuote.1 h
    refine hquoted openQuote (some .openString) (by simp [all, classes]) h ?_
    obtain ⟨_, x, rfl⟩ := List.exists_cons_of_ne_nil hne
    exact congrArg some (List.cons.inj hw).1
  · obtain ⟨bs, l, z, hbs, -⟩ := matches_directive.1 h
    obtain ⟨_, x, rfl⟩ := List.exists_cons_of_ne_nil hne
    obtain ⟨rfl, -⟩ := List.cons.inj hbs
    rw [(kind_of_hash hx).1, Option.some.injEq] at hkind
    exact hk hkind.symm

end Rule

/-! ### Items in front of another text -/

namespace Item

variable {it : Item} {rest : Text} {k : TokenKind} {c d : Char}

theorem before_of_longest {text : Text} {rule : Rule} {n : Nat} (hn : 0 < n ∧ n ≤ text.length)
    (hfirst : Rule.first? Rule.all (text.take n) = some rule)
    (hmax : ∀ m, n < m → m ≤ text.length → Rule.first? Rule.all (text.take m) = none) :
    Item.Before ⟨rule.kind, text.take n⟩ (text.drop n) := by
  refine ⟨?_, ⟨rule, hfirst, rfl⟩, fun v hv hinitial => ?_⟩
  · rw [ne_eq, List.take_eq_nil_iff, not_or, ← List.length_eq_zero_iff]
    omega
  · have hlen := hinitial.length_le
    rw [List.length_drop] at hlen
    have htake : text.take n ++ v = text.take (n + v.length) := by
      rw [List.take_add, ← List.prefix_iff_eq_take.1 hinitial]
    rw [htake]
    have hvpos := List.length_pos_iff.2 hv
    exact hmax _ (by omega) (by omega)

theorem before_divider {rule : Rule} (hne : it.text ≠ [])
    (hfirst : Rule.first? Rule.all it.text = some rule) (hkind : rule.kind = it.kind)
    (hk : it.kind = some k) (hd : k ≠ .directive) (ho : k ≠ .openString) (hc : d ∈ Rule.dividers)
    (u : Text) : it.Before (d :: u) := by
  refine before_of_dead hne hfirst hkind fun c hc' v => ?_
  obtain rfl := Option.some.inj hc'
  rw [Rule.first?_eq_none]
  intro other hmem hm
  have hloose := Rule.loose_of_matches hmem hne hc List.mem_cons_self hm
  exact Rule.not_matches_divider hloose hne hfirst (hkind.trans hk) hd ho hc hm

theorem Before.further {w : Text} (h : it.Before (c :: w ++ rest)) (hc : c ≠ '\n')
    (hd : d ∈ Rule.dividers) (u : Text) : it.Before (c :: w ++ d :: u) := by
  obtain ⟨rule, hfirst, hkind⟩ := h.first
  refine ⟨h.ne_nil, h.first, fun v hv hinitial => ?_⟩
  obtain ⟨z, hz⟩ := hinitial
  rcases List.append_eq_append_iff.1 hz with ⟨w', hw, -⟩ | ⟨v', rfl, hv'⟩
  · exact h.longest v hv ⟨w' ++ rest, by rw [← List.append_assoc, hw]⟩
  · cases v' with
    | nil => exact h.longest _ hv ⟨rest, by rw [List.append_nil]⟩
    | cons e v' =>
      obtain ⟨rfl, -⟩ := List.cons.inj hv'
      rw [Rule.first?_eq_none]
      intro other hmem hm
      have hloose := Rule.loose_of_matches hmem h.ne_nil hd
        (List.mem_append_right (c :: w) List.mem_cons_self) hm
      exact Rule.exists_matches_snoc hloose h.ne_nil hfirst hc hm
        (h.longest [c] (List.cons_ne_nil _ _) ⟨w ++ rest, rfl⟩)

theorem Before.initial {rest' : Text} (h : it.Before rest) (hinitial : rest' <+: rest) :
    it.Before rest' :=
  ⟨h.ne_nil, h.first, fun v hv hv' => h.longest v hv (hv'.trans hinitial)⟩

theorem Before.newline (h : it.Before rest) (u : Text) : it.Before (rest ++ '\n' :: u) := by
  refine ⟨h.ne_nil, h.first, fun v hv hinitial => ?_⟩
  obtain ⟨z, hz⟩ := hinitial
  rcases List.append_eq_append_iff.1 hz with ⟨w, rfl, -⟩ | ⟨w, rfl, hw⟩
  · exact h.longest v hv ⟨w, rfl⟩
  · cases w with
    | nil => exact h.longest _ hv ⟨[], by simp⟩
    | cons c w =>
      obtain ⟨rfl, -⟩ := List.cons.inj hw
      rw [Rule.first?_eq_none]
      intro rule hmem hm
      have hclean := Rule.matches_newline hmem hm
      split at hclean
      · have hlength := congrArg List.length hclean
        have hpos := List.length_pos_iff.2 h.ne_nil
        simp only [List.length_append, List.length_cons, List.length_nil] at hlength
        omega
      · simp at hclean

end Item

/-- The items are cut off one after another in front of the rest. -/
inductive Cut (rest : Text) : List Item → Prop
  | nil : Cut rest []
  | cons {it : Item} {its : List Item} : it.Before (Item.join its ++ rest) → Cut rest its →
    Cut rest (it :: its)

section Cut

variable {it : Item} {its its' : List Item} {rest : Text} {k : TokenKind} {d : Char}

theorem Item.join_cons : Item.join (it :: its) = it.text ++ Item.join its := by
  rw [Item.join, List.flatMap_cons, ← Item.join]

theorem Item.join_append : Item.join (its ++ its') = Item.join its ++ Item.join its' :=
  List.flatMap_append

theorem Cut.join_ne_nil (h : Cut rest its) (hne : its ≠ []) : Item.join its ≠ [] := by
  cases h with
  | nil => exact absurd rfl hne
  | cons hbefore _ =>
    rw [Item.join_cons]
    exact List.append_ne_nil_of_left_ne_nil hbefore.ne_nil _

theorem Cut.items (h : Cut rest its) :
    BrightCoverage.items (Item.join its ++ rest) = its ++ BrightCoverage.items rest := by
  induction h with
  | nil => rfl
  | cons hbefore _ ih => rw [Item.join_cons, List.append_assoc, hbefore.items_append, ih]; rfl

theorem cut_append : Cut rest (its ++ its') ↔ Cut (Item.join its' ++ rest) its ∧ Cut rest its' := by
  induction its with
  | nil => exact ⟨fun h => ⟨.nil, h⟩, And.right⟩
  | cons it its ih =>
    rw [List.cons_append]
    constructor
    · rintro (_ | ⟨hbefore, hcut⟩)
      rw [Item.join_append, List.append_assoc] at hbefore
      exact ⟨.cons hbefore (ih.1 hcut).1, (ih.1 hcut).2⟩
    · rintro ⟨_ | ⟨hbefore, hcut⟩, hcut'⟩
      refine .cons ?_ (ih.2 ⟨hcut, hcut'⟩)
      rwa [← List.append_assoc, ← Item.join_append] at hbefore

theorem Cut.initial {rest' : Text} (h : Cut rest its) (hinitial : rest' <+: rest) : Cut rest' its := by
  induction h with
  | nil => exact .nil
  | cons hbefore _ ih => exact .cons (hbefore.initial ((List.prefix_append_right_inj _).2 hinitial)) ih

theorem Cut.newline (h : Cut rest its) (u : Text) : Cut (rest ++ '\n' :: u) its := by
  induction h with
  | nil => exact .nil
  | cons hbefore _ ih =>
    refine .cons ?_ ih
    rw [← List.append_assoc]
    exact hbefore.newline u

theorem cut_of_items {text : Text} (h : items text = its ++ its')
    (hknown : ∀ it ∈ its, it.kind ≠ some .unknown) : Cut (Item.join its') its := by
  induction its generalizing text with
  | nil => exact .nil
  | cons it its ih =>
    obtain ⟨hit, hits⟩ := List.forall_mem_cons.1 hknown
    have hne : text ≠ [] := by
      rintro rfl
      rw [items_nil] at h
      cases h
    rw [items_ne_nil hne, List.cons_append, List.cons.injEq] at h
    obtain ⟨rfl, htail⟩ := h
    refine .cons ?_ (ih htail hits)
    have hjoin : Item.join its ++ Item.join its' = text.drop (nextItem text).2 := by
      rw [← Item.join_append, ← htail, join_items]
    rw [hjoin]
    rcases nextItem_spec text with ⟨rule, n, hn, hfirst, hmax, hnext⟩ | ⟨-, hnext⟩
    · rw [hnext]
      exact Item.before_of_longest hn hfirst hmax
    · rw [hnext] at hit
      exact absurd rfl hit

theorem Cut.divider (h : Cut rest (its ++ [it])) (hlines : ∀ x ∈ its ++ [it], '\n' ∉ x.text)
    (hk : it.kind = some k) (hd : k ≠ .directive) (ho : k ≠ .openString) (hc : d ∈ Rule.dividers)
    (u : Text) : Cut (d :: u) (its ++ [it]) := by
  induction its with
  | nil =>
    obtain _ | ⟨hbefore, -⟩ := h
    obtain ⟨rule, hfirst, hkind⟩ := hbefore.first
    exact .cons (Item.before_divider hbefore.ne_nil hfirst hkind hk hd ho hc u) .nil
  | cons first its ih =>
    rw [List.cons_append] at h hlines ⊢
    obtain _ | ⟨hbefore, hcut⟩ := h
    obtain ⟨-, hlines⟩ := List.forall_mem_cons.1 hlines
    refine .cons ?_ (ih hcut hlines)
    obtain ⟨c, w, hcw⟩ := List.exists_cons_of_ne_nil (hcut.join_ne_nil (by simp))
    have hnl : c ≠ '\n' := by
      rintro rfl
      obtain ⟨x, hx, hmem⟩ := List.mem_flatMap.1 (hcw ▸ List.mem_cons_self : '\n' ∈ Item.join (its ++ [it]))
      exact hlines x hx hmem
    rw [hcw] at hbefore ⊢
    exact hbefore.further hnl hc u

end Cut

end BrightCoverage
