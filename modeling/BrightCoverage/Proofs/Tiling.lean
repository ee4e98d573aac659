import BrightCoverage.Proofs.LineTokens
import BrightCoverage.Proofs.Munching

/-! Tokens tile their source. Each token is written where its span says, the spans follow each other
without overlap, and what stands in front of the first token, between two tokens and behind the last
one is a gap: blanks and comments, one after another, and nothing else. -/

namespace BrightCoverage

open Directive (lower)

/-- The text is written in the source at the span, with `behind` after it. -/
def Stands (source : Text) (span : Span) (x behind : Text) : Prop :=
  ∃ before, source = before ++ x ++ behind ∧ span = ⟨byteLength before, byteLength (before ++ x)⟩

/-- What is skipped in front of `behind`: a whole run of blanks, a comment up to the end of its line,
the word REM alone, or that word and a blank up to the end of the line. -/
inductive Skips (behind : Text) : Text → Prop
  | blanks {x : Text} : x ≠ [] → (∀ c ∈ x, c ∈ [' ', '\t', '\r']) →
    (∀ c ∈ behind.head?, c ∉ [' ', '\t', '\r']) → Skips behind x
  | comment {x : Text} : '\n' ∉ x → (∀ c ∈ behind.head?, c = '\n') → Skips behind ('\'' :: x)
  | rem {w : Text} : lower w = "rem".toList →
    (∀ c ∈ behind.head?, c ∉ [' ', '\t'] ∧ Token.isWordPart c = false) → Skips behind w
  | remark {w x : Text} {b : Char} : lower w = "rem".toList → b ∈ [' ', '\t'] → '\n' ∉ x →
    (∀ c ∈ behind.head?, c = '\n') → Skips behind (w ++ b :: x)

/-- Skipped texts one after another in front of `behind`. -/
inductive SkipsAll (behind : Text) : Text → Prop
  | nil : SkipsAll behind []
  | cons {x rest : Text} : Skips (rest ++ behind) x → SkipsAll behind rest →
    SkipsAll behind (x ++ rest)

def gapSpans (source : Text) : Nat → List Token → List Span
  | offset, [] => [⟨offset, byteLength source⟩]
  | offset, t :: ts => ⟨offset, t.span.start⟩ :: gapSpans source t.span.stop ts

/-- The tokens stand in the source in order, with gaps around them. -/
structure Tiled (source : Text) (ts : List Token) : Prop where
  standing : ∀ t ∈ ts, ∃ behind, Stands source t.span t.text.toList behind
  nonempty : ∀ t ∈ ts, t.span.start < t.span.stop
  inside : ∀ t ∈ ts, t.span.stop ≤ byteLength source
  located : ∀ t ∈ ts, t.extent.location = ⟨(LineIndex.ofText source).position t.span.start,
    (LineIndex.ofText source).position t.span.stop⟩
  ascending : ts.Pairwise fun a b => a.span.start < b.span.start ∧ a.span.stop < b.span.stop
  apart : ts.Pairwise fun a b => a.span.stop ≤ b.span.start
  gaps : ∀ span ∈ gapSpans source 0 ts, ∃ x behind, Stands source span x behind ∧ SkipsAll behind x

theorem Stands.stop_le {source x behind : Text} {span : Span} (h : Stands source span x behind) :
    span.stop ≤ byteLength source := by
  obtain ⟨before, rfl, rfl⟩ := h
  rw [byteLength_append (before ++ x)]
  exact Nat.le_add_right _ _

/-! ### What is skipped -/

section Skips

variable {kind : Option TokenKind} {w x rest : Text} {c : Char}

/-- What is skipped is matched by a skipping rule, and by no rule together with what follows. -/
theorem CutsOff.skipped (h : CutsOff (x ++ rest) kind x) (hkind : kind = none) :
    (∃ rule ∈ Rule.all, rule.kind = none ∧ rule.pattern.Matches x) ∧
      ∀ c ∈ rest.head?, ¬ Rule.Matched (x ++ [c]) := by
  cases h with
  | longest _ hdecides hlongest =>
    refine ⟨⟨_, hdecides.mem, hkind, hdecides.holds⟩, fun c hc hmatched => ?_⟩
    obtain ⟨rest, rfl⟩ := List.head?_eq_some_iff.1 hc
    have hlength := hlongest (x ++ [c]) (by simp) hmatched
    rw [List.length_append] at hlength
    exact Nat.not_succ_le_self _ hlength
  | unknown | hash => cases hkind

theorem Rule.matched_of_skipped {p : Pattern} (hp : p ∈ [blanks, comment, remark])
    (h : p.Matches x) : Matched x := by
  have hmem : ∀ p ∈ [blanks, comment, remark], ⟨none, p⟩ ∈ skipped := by decide
  refine ⟨⟨none, p⟩, ?_, h⟩
  simp only [all, List.mem_append]
  exact .inl (.inl (.inl (hmem p hp)))

theorem Rule.matched_rem_snoc (hw : (Pattern.caseless "rem").Matches w)
    (hc : Token.isWordPart c = true) : Matched (w ++ [c]) := by
  have hrule : ⟨some .identifier, identifier⟩ ∈ all := by
    simp [all, classes]
  have hpart : wordPart.contains c = true ∨ c ∈ ['$', '%', '!', '#', '&'] := by
    have halphanum : c.isAlphanum = (c.isAlpha || c.isDigit) := rfl
    simp only [Token.isWordPart, halphanum, isAlpha_eq, isDigit_eq, wordPart, CharClass.contains,
      List.any_cons, List.any_nil, List.mem_cons] at hc ⊢
    grind
  obtain ⟨hne, hletters⟩ := matches_rem hw
  obtain ⟨d, w, rfl⟩ := List.exists_cons_of_ne_nil hne
  obtain ⟨hd, hrest⟩ := List.forall_mem_cons.1 hletters
  have hrest : ∀ b ∈ w, wordPart.contains b = true := fun b hb =>
    wordPart_of_wordStart (wordStart_of_letter (hrest b hb))
  refine ⟨_, hrule, ?_⟩
  rcases hpart with hpart | hsuffix
  · apply matches_identifier (wordStart_of_letter hd)
    intro b hb
    rcases List.mem_append.1 hb with hb | hb
    · exact hrest b hb
    · exact List.mem_singleton.1 hb ▸ hpart
  · have hmatches : identifier.Matches ([d] ++ (w ++ ([c] ++ []))) :=
      .seq (.one (wordStart_of_letter hd)) (.seq (Pattern.matches_star_one.2 hrest)
        (.seq (.left (.one (CharClass.contains_of.2 hsuffix))) .empty))
    simpa using hmatches

theorem notMem_concat {a b : Char} (hx : a ∉ x) (hb : b ≠ a) : a ∉ x ++ [b] := by
  rw [List.mem_append, List.mem_singleton, not_or]
  exact ⟨hx, hb.symm⟩

theorem CutsOff.skips (h : CutsOff (x ++ rest) none x) : Skips rest x := by
  obtain ⟨⟨rule, hr, hkind, hx⟩, hsnoc⟩ := h.skipped rfl
  have hpatterns : ∀ rule ∈ Rule.all, rule.kind = none →
      rule.pattern = Rule.blanks ∨ rule.pattern = Rule.comment ∨ rule.pattern = Rule.remark := by
    decide
  have hstop : ∀ p ∈ [Rule.blanks, Rule.comment, Rule.remark], ∀ c ∈ rest.head?,
      ¬ p.Matches (x ++ [c]) := fun p hp c hc hmatches =>
    hsnoc c hc (Rule.matched_of_skipped hp hmatches)
  rcases hpatterns rule hr hkind with hpattern | hpattern | hpattern
  all_goals rw [hpattern] at hx
  · obtain ⟨hne, hblanks⟩ := Rule.matches_blanks.1 hx
    refine .blanks hne hblanks fun c hc hmem => hstop Rule.blanks (by simp) c hc ?_
    rw [Rule.matches_blanks]
    exact ⟨by simp, List.forall_mem_append.2 ⟨hblanks, List.forall_mem_singleton.2 hmem⟩⟩
  · obtain ⟨v, rfl, hv⟩ := Rule.matches_comment.1 hx
    refine .comment hv fun c hc => ?_
    by_contra hne
    refine hstop Rule.comment (by simp) c hc (Rule.matches_comment.2 ⟨v ++ [c], rfl, ?_⟩)
    exact notMem_concat hv hne
  · obtain ⟨w, v, rfl, hw, rfl | ⟨b, z, rfl, hb, hz⟩⟩ := Rule.matches_remark.1 hx
    · rw [List.append_nil] at hsnoc hstop ⊢
      refine .rem (Pattern.lower_of_matches_caseless (by decide) hw) fun c hc => ⟨fun hmem => ?_, ?_⟩
      · refine hstop Rule.remark (by simp) c hc (Rule.matches_remark.2 ⟨w, [c], rfl, hw, .inr ?_⟩)
        exact ⟨c, [], rfl, Rule.contains_blank.2 hmem, List.not_mem_nil⟩
      · exact Bool.eq_false_iff.2 fun hpart => hsnoc c hc (Rule.matched_rem_snoc hw hpart)
    · refine .remark (Pattern.lower_of_matches_caseless (by decide) hw) (Rule.contains_blank.1 hb) hz
        fun c hc => ?_
      by_contra hne
      refine hstop Rule.remark (by simp) c hc (Rule.matches_remark.2 ⟨w, b :: (z ++ [c]), ?_, hw, .inr ?_⟩)
      · simp
      · exact ⟨b, z ++ [c], rfl, hb, notMem_concat hz hne⟩

end Skips

/-! ### The tokens of a source and its gaps -/

/-- Tokens and gaps by turns, from `front` to the end of the source. -/
inductive Tiles (source : Text) : Text → Text → List Token → Prop
  | done {front gap : Text} : SkipsAll [] gap → Tiles source front gap []
  | token {front gap x rest : Text} {kind : TokenKind} {ts : List Token} :
    SkipsAll (x ++ rest) gap → Tiles source (front ++ gap ++ x) rest ts →
    Tiles source front (gap ++ (x ++ rest)) (.behind source (front ++ gap) kind x :: ts)

section Tiles

variable {source front rest : Text} {ts : List Token}

theorem Munches.tiles (h : Munches source front rest ts) : Tiles source front rest ts := by
  induction h with
  | done => exact .done .nil
  | @token front x rest kind ts _ _ ih =>
    have htiles : Tiles source front ([] ++ (x ++ rest)) (.behind source (front ++ []) kind x :: ts) :=
      .token .nil (by rwa [List.append_nil])
    rwa [List.nil_append, List.append_nil] at htiles
  | @skip front x rest ts hcuts _ ih =>
    have hskips := hcuts.skips
    -- what is skipped joins the gap that follows it
    cases ih with
    | done hgap =>
      rw [← List.append_nil rest] at hskips
      exact .done (.cons hskips hgap)
    | @token _ gap y rest kind ts hgap hrest =>
      have htiles : Tiles source front (x ++ gap ++ (y ++ rest))
          (.behind source (front ++ (x ++ gap)) kind y :: ts) :=
        .token (.cons hskips hgap) (by rwa [← List.append_assoc front])
      rwa [List.append_assoc x, ← List.append_assoc front] at htiles

theorem Tiles.standing (h : Tiles source front rest ts) (hsource : source = front ++ rest) :
    ∀ t ∈ ts, ∃ behind, Stands source t.span t.text.toList behind := by
  induction h with
  | done => exact List.forall_mem_nil _
  | @token front gap x rest kind ts _ _ ih =>
    rw [← List.append_assoc, ← List.append_assoc] at hsource
    refine List.forall_mem_cons.2 ⟨⟨rest, front ++ gap, ?_, ?_⟩, ih hsource⟩
    · rwa [Token.behind, String.toList_ofList]
    · rw [Token.behind, String.toList_ofList]
      rfl

theorem Tiles.gaps (h : Tiles source front rest ts) (hsource : source = front ++ rest) :
    ∀ span ∈ gapSpans source (byteLength front) ts,
      ∃ x behind, Stands source span x behind ∧ SkipsAll behind x := by
  induction h with
  | @done front gap hgap =>
    refine List.forall_mem_singleton.2 ⟨gap, [], ⟨front, ?_, ?_⟩, hgap⟩
    · rwa [List.append_nil]
    · rw [hsource]
  | @token front gap x rest kind ts hgap _ ih =>
    have hbehind : source = front ++ gap ++ x ++ rest := by
      rwa [← List.append_assoc, ← List.append_assoc] at hsource
    refine List.forall_mem_cons.2 ⟨⟨gap, x ++ rest, ⟨front, ?_, rfl⟩, hgap⟩, ih hbehind⟩
    rwa [List.append_assoc]

end Tiles

theorem Ordered.apart {source : Text} {ts : List Token} (h : Ordered source ts) :
    ts.Pairwise fun a b => a.span.stop ≤ b.span.start := by
  rw [List.pairwise_iff_getElem]
  intro i j hi hj hij
  exact h.stop_le_start hij (List.getElem?_eq_getElem hi) (List.getElem?_eq_getElem hj)

/-- The tokens of a source tile it, and more steps of the scanner find no more of them. -/
theorem lex_tiles (source : Text) : Tiled source (lex source) ∧
    ∀ more, scan (source.length + more) Mark.origin source = lex source := by
  have hordered := lex_ordered source
  have htiles : Tiles source [] source (lex source) := by
    rw [lex_eq_place]
    exact (munches_place (List.nil_append source).symm).tiles
  have hstanding := htiles.standing (List.nil_append source).symm
  have hascending : (lex source).Pairwise fun a b =>
      a.span.start < b.span.start ∧ a.span.stop < b.span.stop := by
    refine hordered.apart.imp_of_mem fun {a b} ha hb hapart => ?_
    have := (hordered.placed a ha).lt
    have := (hordered.placed b hb).lt
    omega
  refine ⟨?_, fun more => ?_⟩
  · exact {
      standing := hstanding
      nonempty := fun t ht => (hordered.placed t ht).lt
      inside := fun t ht => (hstanding t ht).elim fun _ h => h.stop_le
      located := fun t ht => (hordered.placed t ht).location
      ascending := hascending
      apart := hordered.apart
      gaps := htiles.gaps (List.nil_append source).symm }
  · rw [lex_eq_place]
    exact scan_eq_place _ _ _ (Nat.le_add_right _ _)

end BrightCoverage
