import BrightCoverage.Proofs.Passes
import BrightCoverage.Proofs.Relexing

/-! The words of a line and of what is put into it. A blank is no word, a carriage return at the end
of a line changes nothing that a token says, and a reporting call is lexed as it is meant: its name
cannot be a keyword or a comment. -/

namespace BrightCoverage

variable {it : Item} {its : List Item} {rest : Text}

def Item.words (its : List Item) : List (TokenKind × String) :=
  its.filterMap fun it => it.kind.map (·, String.ofList it.text)

theorem Item.words_append {its' : List Item} : words (its ++ its') = words its ++ words its' :=
  List.filterMap_append

theorem Cut.wording (h : Cut rest its) :
    wording (Item.join its ++ rest) = Item.words its ++ BrightCoverage.wording rest := by
  rw [BrightCoverage.wording, h.items]
  exact Item.words_append

/-! ### Blanks and line breaks -/

theorem Rule.startingWith_blank : ∀ c ∈ [' ', '\t', '\r'], startingWith c = [⟨none, blanks⟩] := by
  simp only [List.forall_mem_cons]
  exact ⟨rfl, rfl, rfl, List.forall_mem_nil _⟩

theorem wording_blanks {b : Text} (hb : ∀ c ∈ b, c ∈ [' ', '\t', '\r'])
    (hrest : ∀ c ∈ rest.head?, c ∉ [' ', '\t', '\r']) : wording (b ++ rest) = wording rest := by
  cases b with
  | nil => rfl
  | cons c b =>
    have hrules : ∀ v, Rule.first? Rule.all (c :: v) = Rule.first? [⟨none, Rule.blanks⟩] (c :: v) :=
      fun v => by rw [Rule.first?_cons, Rule.startingWith_blank c (hb c List.mem_cons_self)]
    have hfirst : Rule.first? Rule.all (c :: b) = some ⟨none, Rule.blanks⟩ := by
      have haccepts := Pattern.accepts_iff.2 (Rule.matches_blanks.2 ⟨List.cons_ne_nil c b, hb⟩)
      rw [hrules, Rule.first?, List.find?_cons, haccepts]
    refine wording_skipped (Item.before_of_dead (List.cons_ne_nil _ _) hfirst rfl fun d hd v => ?_)
    show Rule.first? Rule.all (c :: (b ++ d :: v)) = none
    rw [hrules, Rule.first?_eq_none]
    refine List.forall_mem_singleton.2 fun hm => hrest d hd ((Rule.matches_blanks.1 hm).2 d ?_)
    exact List.mem_cons_of_mem _ (List.mem_append_right _ List.mem_cons_self)

theorem wording_blank {c : Char} (hc : c ∈ [' ', '\t', '\r']) (u : Text) :
    wording (c :: u) = wording u := by
  have hhead : ∀ d ∈ (u.dropWhile (· ∈ [' ', '\t', '\r'])).head?, d ∉ [' ', '\t', '\r'] := by
    intro d hd
    have hnot := List.head?_dropWhile_not (· ∈ [' ', '\t', '\r']) u
    rw [Option.mem_def.1 hd] at hnot
    simpa using hnot
  have hblank : ∀ d ∈ u.takeWhile (· ∈ [' ', '\t', '\r']), d ∈ [' ', '\t', '\r'] := fun d hd => by
    simpa using List.mem_takeWhile_imp hd
  have hu := wording_blanks hblank hhead
  have hcu := wording_blanks (List.forall_mem_cons.2 ⟨hc, hblank⟩) hhead
  rw [List.cons_append, List.takeWhile_append_dropWhile] at hcu
  rw [List.takeWhile_append_dropWhile] at hu
  rw [hcu, hu]

theorem Item.newline_before (u : Text) : Item.Before ⟨some .newline, ['\n']⟩ u := by
  have hrules : ∀ v, Rule.first? Rule.all ('\n' :: v)
      = Rule.first? [⟨some .newline, Pattern.literal "\n"⟩] ('\n' :: v) :=
    fun v => Rule.first?_cons '\n' v
  refine Item.before_of_dead (List.cons_ne_nil _ _) rfl rfl fun d _ v => ?_
  show Rule.first? Rule.all ('\n' :: d :: v) = none
  rw [hrules, Rule.first?_eq_none]
  exact List.forall_mem_singleton.2 fun hm => by simpa using Pattern.matches_literal.1 hm

theorem wording_newline (u : Text) : wording ('\n' :: u) = (.newline, "\n") :: wording u :=
  wording_token (Item.newline_before u)

/-! ### Carriage returns -/

section Trim

variable {c : Char} (hc : isBlank c = true) (u : List Char)
include hc

theorem trimLeft_append_blank :
    trimLeft (u ++ [c]) = if trimLeft u = [] then [] else trimLeft u ++ [c] := by
  simp only [trimLeft, List.dropWhile_append, List.isEmpty_iff]
  simp [hc]

theorem trimRight_append_blank : trimRight (u ++ [c]) = trimRight u := by
  simp [trimRight, hc]

theorem trim_append_blank : trim (u ++ [c]) = trim u := by
  rw [trim, trimLeft_append_blank hc, trim]
  split
  · next h => rw [h]
  · rw [trimRight_append_blank hc]

end Trim

theorem Directive.afterIf_append_return (u : List Char) :
    afterIf (u ++ ['\r']) = (afterIf u).map (· ++ ['\r']) := by
  unfold afterIf
  rw [trimLeft_append_blank (by decide)]
  match trimLeft u with
  | [] => rfl
  | [i] =>
    have hword : lower [i, '\r'] ≠ ['i', 'f'] := by simp [lower]
    simp [hword]
  | [i, f] =>
    by_cases h : lower [i, f] = ['i', 'f'] <;> simp [h]
  | i :: f :: c :: rest =>
    simp only [reduceCtorEq, if_false, List.cons_append]
    split <;> rfl

section DropWhile

variable {p : Char → Bool} {u : List Char} {a : Char}

theorem mem_dropWhile (ha : a ∈ u) (hp : p a = false) : a ∈ u.dropWhile p := by
  rw [← List.takeWhile_append_dropWhile (p := p) (l := u), List.mem_append] at ha
  refine ha.resolve_left fun h => ?_
  rw [List.mem_takeWhile_imp h] at hp
  cases hp

theorem dropWhile_append_of_mem (ha : a ∈ u) (hp : p a = false) (v : List Char) :
    (u ++ v).dropWhile p = u.dropWhile p ++ v := by
  have hne : (u.dropWhile p).isEmpty = false := by
    rw [List.isEmpty_eq_false_iff]
    exact List.ne_nil_of_mem (mem_dropWhile ha hp)
  rw [List.dropWhile_append, hne]
  rfl

theorem takeWhile_concat (hp : p a = false) : (u ++ [a]).takeWhile p = u.takeWhile p := by
  induction u with
  | nil => simp [hp]
  | cons c u ih => simp only [List.cons_append, List.takeWhile_cons, ih]

theorem dropWhile_concat (hp : p a = false) : (u ++ [a]).dropWhile p = u.dropWhile p ++ [a] := by
  induction u with
  | nil => simp [hp]
  | cons c u ih =>
    simp only [List.cons_append, List.dropWhile_cons, ih]
    split <;> rfl

end DropWhile

theorem Directive.ofLine_append_return {x : Text} (h : Rule.directive.Matches x) :
    ofLine (x ++ ['\r']) = ofLine x := by
  obtain ⟨bs, l, z, rfl, -, hl, -⟩ := Rule.matches_directive.1 h
  -- The letter behind the hash mark keeps both trimmings away from the end of the line.
  have hmem : l ∈ '#' :: bs ++ l :: z := by simp
  have hhash : decide (l = '#') = false := by
    rw [decide_eq_false_iff_not]
    rintro rfl
    revert hl
    decide
  have hblank : isBlank l = false := by
    have hrange : 65 ≤ l.toNat ∧ l.toNat ≤ 90 ∨ 97 ≤ l.toNat ∧ l.toNat ≤ 122 := by
      simpa [Rule.letter, CharClass.contains, Char.le_def, UInt32.le_iff_toNat_le] using hl
    rw [isBlank, List.any_eq_false]
    simp only [blankRanges, List.forall_mem_cons, Bool.and_eq_true, decide_eq_true_eq]
    refine ⟨?_, ?_, ?_, ?_, ?_, ?_, ?_, ?_, ?_, ?_, List.forall_mem_nil _⟩ <;> omega
  have hbody : trimLeft (('#' :: bs ++ l :: z ++ ['\r']).dropWhile (· = '#'))
      = trimLeft (('#' :: bs ++ l :: z).dropWhile (· = '#')) ++ ['\r'] := by
    rw [dropWhile_append_of_mem hmem hhash]
    exact dropWhile_append_of_mem (mem_dropWhile hmem hhash) hblank _
  unfold ofLine
  rw [hbody]
  generalize trimLeft (('#' :: bs ++ l :: z).dropWhile (· = '#')) = body
  have hreturn : isBlank '\r' = true := by decide
  have hletter : Char.isAlpha '\r' = false := by decide
  simp only [takeWhile_concat hletter, dropWhile_concat hletter, afterIf_append_return]
  cases afterIf (body.dropWhile Char.isAlpha) with
  | none => simp [trim_append_blank hreturn]
  | some args =>
    generalize String.ofList (lower (body.takeWhile Char.isAlpha)) = word
    simp only [Option.map_some, trim_append_blank hreturn]
    by_cases helse : word = "else"
    · simp [helse, trim_append_blank hreturn]
    · by_cases hend : word = "end" <;> simp [helse, hend, trim_append_blank hreturn]

theorem Rule.remark_of_append_return {x : Text} (h : remark.Matches (x ++ ['\r'])) : remark.Matches x := by
  obtain ⟨w, v, heq, hw, rfl | ⟨b, z, rfl, hb, hz⟩⟩ := matches_remark.1 h
  · rw [List.append_nil] at heq
    exact absurd ((matches_rem hw).2 '\r' (heq ▸ by simp)) (by decide)
  · rcases List.eq_nil_or_concat z with rfl | ⟨z, c, rfl⟩
    · obtain ⟨rfl, hr⟩ := List.append_inj' heq rfl
      rw [← (List.cons.inj hr).1] at hb
      exact absurd hb (by decide)
    · rw [List.concat_eq_append] at heq hz
      obtain ⟨rfl, -⟩ := List.append_inj' (heq.trans (by simp : _ = (w ++ b :: z) ++ [c])) rfl
      exact matches_remark.2 ⟨w, b :: z, rfl, hw, .inr ⟨b, z, rfl, hb, fun hmem =>
        hz (List.mem_append_left _ hmem)⟩⟩

theorem Rule.directive_of_append_return {x : Text} (h : directive.Matches (x ++ ['\r'])) :
    directive.Matches x := by
  obtain ⟨bs, l, z, heq, hbs, hl, hz⟩ := matches_directive.1 h
  rcases List.eq_nil_or_concat z with rfl | ⟨z, c, rfl⟩
  · obtain ⟨-, hr⟩ := List.append_inj' heq rfl
    rw [← (List.cons.inj hr).1] at hl
    exact absurd hl (by decide)
  · rw [List.concat_eq_append] at heq hz
    obtain ⟨rfl, -⟩ := List.append_inj' (heq.trans (by simp : _ = ('#' :: bs ++ l :: z) ++ [c])) rfl
    exact matches_directive.2 ⟨bs, l, z, rfl, hbs, hl, fun hmem => hz (List.mem_append_left _ hmem)⟩

theorem Rule.openQuote_of_append_return {x : Text} (h : openQuote.Matches (x ++ ['\r'])) :
    openQuote.Matches x := by
  obtain ⟨w, heq, hw⟩ := matches_openQuote.1 h
  rcases List.eq_nil_or_concat w with rfl | ⟨w, c, rfl⟩
  · have heq' : x ++ ['\r'] = [] ++ ['"'] := heq
    exact absurd (List.append_inj' heq' rfl).2 (by decide)
  · rw [List.concat_eq_append] at heq hw
    rw [doubleQuotes_append, ← List.cons_append] at heq
    by_cases hc : c = '"'
    · subst hc
      exact absurd (List.append_inj' (heq.trans (List.append_cons _ '"' ['"'])) rfl).2 (by decide)
    · rw [show doubleQuotes [c] = [c] by simp [doubleQuotes, hc]] at heq
      refine matches_openQuote.2 ⟨w, (List.append_inj' heq rfl).1, fun hmem => hw ?_⟩
      exact List.mem_append_left _ hmem

theorem Rule.kind_of_openQuote {x : Text} {rule : Rule} (h : openQuote.Matches x)
    (hfirst : first? all x = some rule) : rule.kind = some .openString := by
  obtain ⟨w, rfl, hw⟩ := matches_openQuote.1 h
  have hstring := accepts_string hw []
  have hopen := accepts_openQuote hw []
  rw [List.append_nil] at hstring hopen
  rw [first?_cons, startingWith_quote, first?, List.find?_cons, List.find?_singleton, hstring, hopen]
    at hfirst
  cases hfirst
  rfl

/-- An item that goes on to the end of its line, whatever stands there. -/
def Item.GoesOn (it : Item) : Prop :=
  it.kind = none ∨ it.kind = some .directive ∧ Rule.directive.Matches it.text ∨
    it.kind = some .openString ∧ Rule.openQuote.Matches it.text

theorem Item.Before.dropReturn {x : Text} (h : it.Before rest) (htext : it.text = x ++ ['\r']) :
    (x = [] ∧ it.kind = none) ∨ (Item.Before ⟨it.kind, x⟩ [] ∧ Item.GoesOn ⟨it.kind, x⟩) := by
  obtain ⟨rule, hfirst, hkind⟩ := h.first
  obtain ⟨hmem, hm⟩ := Rule.first?_some hfirst
  by_cases hx : x = []
  · left
    subst hx
    rw [htext] at hfirst
    refine ⟨rfl, hkind ▸ Rule.kind_eq_none (p := Rule.blanks) (by simp) ?_ hfirst⟩
    exact Rule.matches_blanks.2 ⟨by simp, by simp⟩
  · right
    rw [htext] at hm hfirst
    have hwhole : ∀ other, Rule.first? Rule.all x = some other → other.kind = it.kind →
        Item.Before ⟨it.kind, x⟩ [] := fun other hother hk =>
      before_of_dead hx hother hk fun _ hc => by cases hc
    have hskipped : ∀ p ∈ [Rule.blanks, Rule.comment, Rule.remark], p = rule.pattern →
        p.Matches x → it.kind = none ∧ Item.Before ⟨it.kind, x⟩ [] := by
      intro p hp hrule hpx
      have hnone : it.kind = none := hkind ▸ Rule.kind_eq_none hp (hrule ▸ hm) hfirst
      obtain ⟨other, hother⟩ := Option.ne_none_iff_exists'.1
        fun hnone => Rule.first?_eq_none.1 hnone rule hmem (hrule ▸ hpx)
      exact ⟨hnone, hwhole other hother (hnone ▸ Rule.kind_eq_none hp hpx hother)⟩
    have hloose := Rule.loose_of_matches hmem hx (d := '\r') (by decide) (by simp) hm
    simp only [Rule.loose, List.mem_cons, List.not_mem_nil, or_false] at hloose
    -- A string cannot end in a return. The other five rules match what is left without it.
    rcases hloose with hp | hp | hp | hp | hp | hp
    all_goals rw [hp] at hm
    · obtain ⟨-, hblank⟩ := Rule.matches_blanks.1 hm
      have hs := hskipped _ (by simp) hp.symm (Rule.matches_blanks.2 ⟨hx, fun c hc =>
        hblank c (List.mem_append_left _ hc)⟩)
      exact ⟨hs.2, .inl hs.1⟩
    · obtain ⟨v, hv, hnl⟩ := Rule.matches_comment.1 hm
      obtain ⟨c, x, rfl⟩ := List.exists_cons_of_ne_nil hx
      obtain ⟨rfl, rfl⟩ := List.cons.inj hv
      have hs := hskipped _ (by simp) hp.symm (Rule.matches_comment.2 ⟨x, rfl, fun hmem =>
        hnl (List.mem_append_left _ hmem)⟩)
      exact ⟨hs.2, .inl hs.1⟩
    · have hs := hskipped _ (by simp) hp.symm (Rule.remark_of_append_return hm)
      exact ⟨hs.2, .inl hs.1⟩
    · obtain ⟨w, hw, -⟩ := Rule.matches_string.1 hm
      exact absurd (List.append_inj' hw rfl).2 (by decide)
    · have hopen := Rule.openQuote_of_append_return hm
      have hkind' : it.kind = some .openString := hkind ▸ Rule.kind_of_openQuote hm hfirst
      obtain ⟨other, hother⟩ := Option.ne_none_iff_exists'.1
        fun hnone => Rule.first?_eq_none.1 hnone rule hmem (hp ▸ hopen)
      exact ⟨hwhole other hother (hkind' ▸ Rule.kind_of_openQuote hopen hother),
        .inr (.inr ⟨hkind', hopen⟩)⟩
    · have hdirective := Rule.directive_of_append_return hm
      obtain ⟨bs, l, z, rfl, -⟩ := Rule.matches_directive.1 hdirective
      have hdir : it.kind = some .directive := hkind ▸ (Rule.kind_of_hash hfirst).1
      obtain ⟨other, hother⟩ := Option.ne_none_iff_exists'.1
        fun hnone => Rule.first?_eq_none.1 hnone rule hmem (hp ▸ hdirective)
      exact ⟨hwhole other hother (hdir ▸ (Rule.kind_of_hash hother).1),
        .inr (.inl ⟨hdir, hdirective⟩)⟩

/-- What a token says: of a directive the parts of its line, of any other token its text. -/
inductive Sense where
  | token (kind : TokenKind) (text : String)
  | line (directive : Directive)

def sense (word : TokenKind × String) : Sense :=
  if word.1 = .directive then .line (.ofLine word.2.toList) else .token word.1 word.2

theorem Item.Before.sense_dropReturn {x : Text} (h : it.Before rest) (htext : it.text = x ++ ['\r'])
    (ho : it.kind ≠ some .openString) (u : Text) :
    (wording (x ++ '\n' :: u)).map sense
      = (Item.words [it]).map sense ++ (wording ('\n' :: u)).map sense := by
  obtain ⟨kind, text⟩ := it
  rcases h.dropReturn htext with ⟨rfl, rfl : kind = none⟩ | ⟨hbefore, hkind⟩
  · rfl
  · have hcut : Cut ([] ++ '\n' :: u) [⟨kind, x⟩] := (Cut.cons hbefore .nil).newline u
    have hwording := hcut.wording
    rw [Item.join_cons] at hwording
    simp only [Item.join, List.flatMap_nil, List.append_nil, List.nil_append] at hwording
    rw [hwording, List.map_append]
    congr 1
    rcases hkind with rfl | ⟨rfl, hdirective⟩ | ⟨rfl, -⟩
    · rfl
    · obtain rfl : text = x ++ ['\r'] := htext
      simp [Item.words, sense, Directive.ofLine_append_return hdirective]
    · exact absurd rfl ho

theorem senses_dropReturn (h : Cut [] its) (ho : ∀ it ∈ its, it.kind ≠ some .openString) (u : Text) :
    (wording (dropReturn (Item.join its) ++ '\n' :: u)).map sense
      = (Item.words its).map sense ++ (wording ('\n' :: u)).map sense := by
  unfold dropReturn
  split
  · next hlast =>
    rcases List.eq_nil_or_concat its with rfl | ⟨its, it, rfl⟩
    · cases hlast
    · rw [List.concat_eq_append] at *
      obtain ⟨hits, _ | ⟨hbefore, -⟩⟩ := cut_append.1 h
      have hjoin : Item.join (its ++ [it]) = Item.join its ++ it.text := by
        simp [Item.join]
      rw [hjoin, List.getLast?_append_of_ne_nil _ hbefore.ne_nil] at hlast
      obtain ⟨x, hx⟩ := List.getLast?_eq_some_iff.1 hlast
      have hcut : Cut (x ++ '\n' :: u) its := by
        refine (hits.initial ⟨['\r'], ?_⟩).newline u
        simp [Item.join, hx]
      rw [hjoin, hx, ← List.append_assoc, List.dropLast_concat, List.append_assoc, hcut.wording,
        List.map_append, hbefore.sense_dropReturn hx (ho it (by simp)), ← List.append_assoc,
        ← List.map_append, Item.words_append]
  · have hwording : wording (Item.join its ++ '\n' :: u) = _ := (h.newline u).wording
    rw [hwording, List.map_append]
    rfl

/-! ### Reporting calls -/

/-- A word without a mark of its type at its end. -/
def IsPlain (text : Text) : Prop :=
  ∃ c rest, text = c :: rest ∧ Rule.wordStart.contains c = true ∧
    ∀ d ∈ rest, Rule.wordPart.contains d = true

theorem Rule.avoids_underscore : ∀ rule ∈ all, rule.pattern.avoids '_' = true ∨
    rule.pattern ∈ loose ∨ rule.kind = some .identifier := by
  decide

theorem IsPlain.first? {text : Text} (h : IsPlain text) (hmem : '_' ∈ text) :
    ∃ rule, Rule.first? Rule.all text = some rule ∧ rule.kind = some .identifier := by
  obtain ⟨c, rest, rfl, hc, hrest⟩ := h
  have hidentifier : ⟨some .identifier, Rule.identifier⟩ ∈ Rule.all := by
    simp [Rule.all, Rule.classes]
  obtain ⟨rule, hrule⟩ := Option.ne_none_iff_exists'.1 fun hnone =>
    Rule.first?_eq_none.1 hnone _ hidentifier (Rule.matches_identifier hc hrest)
  obtain ⟨hall, hm⟩ := Rule.first?_some hrule
  have hhead : ∀ k, Rule.wordStart.contains k = false → c ≠ k := by
    rintro k hk rfl
    rw [hc] at hk
    cases hk
  refine ⟨rule, hrule, (Rule.avoids_underscore rule hall).elim (fun havoid => ?_) fun h =>
    h.resolve_left fun hloose => ?_⟩
  · exact absurd hmem (Pattern.notMem_of_avoids havoid hm)
  · simp only [Rule.loose, List.mem_cons, List.not_mem_nil, or_false] at hloose
    rcases hloose with hp | hp | hp | hp | hp | hp
    all_goals rw [hp] at hm
    · exact absurd ((Rule.matches_blanks.1 hm).2 '_' hmem) (by decide)
    · obtain ⟨v, hv, -⟩ := Rule.matches_comment.1 hm
      exact hhead '\'' (by decide) (List.cons.inj hv).1
    · obtain ⟨w, v, heq, hw, rfl | ⟨b, z, rfl, hb, -⟩⟩ := Rule.matches_remark.1 hm
      · rw [List.append_nil] at heq
        exact absurd ((Rule.matches_rem hw).2 '_' (heq ▸ hmem)) (by decide)
      · have hpart : ∀ d ∈ c :: rest, Rule.wordPart.contains d = true :=
          List.forall_mem_cons.2 ⟨Rule.wordPart_of_wordStart hc, hrest⟩
        have hblank : ∀ b ∈ [' ', '\t'], Rule.wordPart.contains b = false :=
          List.all_iff_forall_prop.1 (by decide)
        have hbpart := hpart b (heq ▸ by simp)
        rw [hblank b (CharClass.contains_of.1 hb)] at hbpart
        cases hbpart
    · obtain ⟨w, hw, -⟩ := Rule.matches_string.1 hm
      exact hhead '"' (by decide) (List.cons.inj hw).1
    · obtain ⟨w, hw, -⟩ := Rule.matches_openQuote.1 hm
      exact hhead '"' (by decide) (List.cons.inj hw).1
    · obtain ⟨bs, l, z, hz, -⟩ := Rule.matches_directive.1 hm
      exact hhead '#' (by decide) (List.cons.inj hz).1

theorem isAlpha_eq (c : Char) : c.isAlpha
    = (decide ('A' ≤ c ∧ c ≤ 'Z') || decide ('a' ≤ c) && decide (c ≤ 'z')) := rfl

theorem isDigit_eq (c : Char) : c.isDigit = (decide ('0' ≤ c) && decide (c ≤ '9')) := rfl

theorem isWordStart_of_contains {c : Char} (h : Rule.wordStart.contains c = true) :
    Token.isWordStart c = true := by
  have hunderscore : '_' ≤ c → c ≤ '_' → c = '_' := fun h h' => Char.le_antisymm h' h
  simp only [Rule.wordStart, CharClass.contains, Token.isWordStart, isAlpha_eq, List.any_cons,
    List.any_nil] at h ⊢
  grind

theorem isWordPart_of_contains {c : Char} (h : Rule.wordPart.contains c = true) :
    Token.isWordPart c = true := by
  have hunderscore : '_' ≤ c → c ≤ '_' → c = '_' := fun h h' => Char.le_antisymm h' h
  have halphanum : c.isAlphanum = (c.isAlpha || c.isDigit) := rfl
  simp only [Rule.wordPart, CharClass.contains, Token.isWordPart, halphanum, isAlpha_eq, isDigit_eq,
    List.any_cons, List.any_nil] at h ⊢
  grind

namespace Reporter

variable {r : Reporter} (hr : IsPlain r.stem.toList)
include hr

theorem isPlain_functionName : IsPlain r.functionName.toList := by
  obtain ⟨c, rest, hstem, hc, hrest⟩ := hr
  have hdigit : ∀ d < 10, Rule.wordPart.contains (Nat.digitChar d) = true := by decide
  have hend : ∀ d ∈ "_reportLine".toList, Rule.wordPart.contains d = true :=
    List.all_iff_forall_prop.1 (by decide)
  have hline : ∀ d ∈ "_".toList, Rule.wordPart.contains d = true :=
    List.all_iff_forall_prop.1 (by decide)
  refine ⟨c, rest ++ "_".toList ++ Nat.toDigits 10 r.id ++ "_reportLine".toList, ?_, hc, ?_⟩
  · simp [functionName, hstem]
  · simp only [List.forall_mem_append]
    refine ⟨⟨⟨hrest, hline⟩, fun d hd => ?_⟩, hend⟩
    obtain ⟨n, hn, rfl⟩ := (isDecimal_toDigits r.id).2 d hd
    exact hdigit n hn

omit hr in
theorem underscore_mem_functionName : '_' ∈ r.functionName.toList := by
  simp [functionName]

theorem name_functionName : Name r.functionName := by
  obtain ⟨c, rest, hname, hc, hrest⟩ := isPlain_functionName hr
  refine ⟨⟨c, rest, hname, isWordStart_of_contains hc,
    isWordPart_of_contains (Rule.wordPart_of_wordStart hc),
    List.all_eq_true.2 fun d hd => isWordPart_of_contains (hrest d hd)⟩, ?_⟩
  have hkeyword : ∀ k ∈ Keyword.all, '_' ∉ k.spelling.toList := by decide
  refine List.find?_eq_none.2 fun k hk heq => hkeyword k hk ?_
  rw [of_decide_eq_true heq]
  exact List.mem_map.2 ⟨'_', underscore_mem_functionName, rfl⟩

theorem wording_functionName (u : Text) : wording (r.functionName.toList ++ '(' :: u)
    = (Lexeme.word r.functionName).face :: wording ('(' :: u) := by
  obtain ⟨rule, hrule, hkind⟩ := (isPlain_functionName hr).first? underscore_mem_functionName
  have hne : r.functionName.toList ≠ [] := List.ne_nil_of_mem underscore_mem_functionName
  have hitem : Item.Before ⟨some .identifier, r.functionName.toList⟩ ('(' :: u) :=
    Item.before_divider hne hrule hkind rfl (by decide) (by decide) (by decide) u
  rw [wording_token hitem, Lexeme.face, Lexeme.kind, (name_functionName hr).2, Lexeme.text,
    String.ofList_toList]
  rfl

theorem wording_call (line : Nat) (kind : LineKind) (rest : Text) :
    wording ((r.call line kind).toList ++ rest)
      = (r.report line kind).map Lexeme.face ++ wording rest := by
  have hparen : ∀ u, wording ('(' :: u) = _ := wording_symbol (s := .leftParen) (by decide)
  have hcomma : ∀ u, wording (',' :: u) = _ := wording_symbol (s := .comma) (by decide)
  have hclose : ∀ u, wording (')' :: u) = _ := wording_symbol (s := .rightParen) (by decide)
  have havoid : ∀ c ∈ [',', ')'], Rule.integer.avoids c = true ∧ Rule.float.avoids c = true :=
    List.all_iff_forall_prop.1 (by decide)
  have hinteger : ∀ n c u, c ∈ [',', ')'] → wording (Nat.toDigits 10 n ++ c :: u) = _ :=
    fun n c u hc => wording_integer (isDecimal_toDigits n) fun d hd =>
      Option.some.inj hd ▸ havoid c hc
  simp only [call, String.toList_append, toString_toList, List.append_assoc]
  show wording (r.functionName.toList ++ '(' :: (Nat.toDigits 10 line ++ ',' :: ' ' ::
    (Nat.toDigits 10 kind.toNat ++ ')' :: rest))) = _
  rw [wording_functionName hr, hparen, hinteger _ _ _ (by decide), hcomma, wording_blank (by decide),
    hinteger _ _ _ (by decide), hclose]
  have hrepr : ∀ n, String.ofList (Nat.toDigits 10 n) = n.repr := fun n =>
    Nat.toString_eq_ofList_toDigits.symm
  simp [report, Lexeme.face, Lexeme.kind, Lexeme.text, hrepr]

end Reporter

end BrightCoverage
