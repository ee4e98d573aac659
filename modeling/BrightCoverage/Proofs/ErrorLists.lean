import Mathlib.Data.List.Forall2
import BrightCoverage.Proofs.Blame
import BrightCoverage.Proofs.JoinedTexts
import BrightCoverage.Proofs.Totality

/-! The errors of a file. The tokens that are none come first; after them each round of reading
statements that fails adds one error, and the next round starts behind what that error blames. So the
places that are blamed go up through the text, and once an error is for the end of the text no round is
left. -/

namespace BrightCoverage

open BrightCoverage.Parser

/-- Errors that blame one token of a list after another. Behind an error at least one token is given
up, and where none is left no error follows. -/
inductive Blaming : List Token → List ParseError → Prop
  | nil {ts : List Token} : Blaming ts []
  | skip {ts us : List Token} {es : List ParseError} : us <:+ ts → Blaming us es → Blaming ts es
  | cons {ts us vs : List Token} {e : ParseError} {es : List ParseError} : ts ≠ [] → us <:+ ts →
    Blamed ts e us → vs <:+ us.tail → Blaming vs es → Blaming ts (e :: es)

namespace Blaming

variable {ts : List Token} {es : List ParseError}

theorem eq_nil (h : Blaming ts es) (ht : ts = []) : es = [] := by
  induction h with
  | nil => rfl
  | skip hu _ ih => exact ih (List.suffix_nil.1 (ht ▸ hu))
  | cons hne => exact absurd ht hne

theorem known (h : Blaming ts es) : ∀ e ∈ es, ∀ t, e ≠ .invalidCharacter t := by
  induction h with
  | nil => simp
  | skip _ _ ih => exact ih
  | cons _ _ hblamed _ _ ih => exact List.forall_mem_cons.2 ⟨hblamed.known, ih⟩

theorem final (h : Blaming ts es) {before after : List ParseError} {e : ParseError}
    (hes : es = before ++ e :: after) (he : e.isFinal = true) : after = [] := by
  induction h generalizing before with
  | nil => simp at hes
  | skip _ _ ih => exact ih hes
  | @cons ts us vs e' es _ _ hblamed hvs hrest ih =>
    cases before with
    | nil =>
      cases hes
      have hus := hblamed.final he
      exact hrest.eq_nil (List.suffix_nil.1 (by simpa [hus] using hvs))
    | cons b before =>
      cases hes
      exact ih rfl

theorem seen (h : Blaming ts es) :
    ∀ e ∈ es, ∀ s, e.span = some s → ∃ t ∈ ts, s.start = t.span.start := by
  induction h with
  | nil => simp
  | skip hu _ ih =>
    intro e he s hs
    obtain ⟨t, ht, hstart⟩ := ih e he s hs
    exact ⟨t, hu.subset ht, hstart⟩
  | @cons ts us vs e es _ hus hblamed hvs _ ih =>
    refine List.forall_mem_cons.2 ⟨fun s hs => ?_, fun e' he' s hs => ?_⟩
    · obtain ⟨t, _, ht, -, hstart⟩ := hblamed.seen s hs
      exact ⟨t, ht.subset (List.mem_cons_self ..), hstart⟩
    · obtain ⟨t, ht, hstart⟩ := ih e' he' s hs
      exact ⟨t, ((hvs.trans (List.tail_suffix us)).trans hus).subset ht, hstart⟩

/-- In tokens that go up through the text, the places that are blamed do so too. -/
theorem ascending (h : Blaming ts es) (ht : ts.Pairwise fun a b => a.span.start < b.span.start) :
    (es.filterMap ParseError.span).Pairwise fun a b => a.start < b.start := by
  induction h with
  | nil => exact .nil
  | skip hu _ ih => exact ih (ht.sublist hu.sublist)
  | @cons ts us vs e es _ hus hblamed hvs hrest ih =>
    have hvs' := hvs.trans ((List.tail_suffix us).trans hus)
    have hlater := ih (ht.sublist hvs'.sublist)
    cases hspan : e.span with
    | none => rwa [List.filterMap_cons_none hspan]
    | some s =>
      rw [List.filterMap_cons_some hspan]
      refine .cons (fun s' hs' => ?_) hlater
      obtain ⟨e', he', hspan'⟩ := List.mem_filterMap.1 hs'
      obtain ⟨t, us', htail, hseen, hstart⟩ := hblamed.seen s hspan
      obtain ⟨t', ht', hstart'⟩ := hrest.seen e' he' s' hspan'
      -- what is read after the error lies behind the token that it blames
      have hbehind : vs <:+ us' := by
        rcases List.suffix_cons_iff.1 hseen with rfl | hseen
        · exact hvs
        · exact (hvs.trans (List.tail_suffix us)).trans hseen
      rw [hstart, hstart']
      exact List.rel_of_pairwise_cons (ht.sublist htail.sublist) (hbehind.subset ht')

end Blaming

theorem Cursor.synchronize_suffix (c : Cursor) : c.synchronize.rest <:+ c.rest.tail := by
  obtain ⟨last, _ | ⟨t, ts⟩⟩ := c
  · exact List.suffix_rfl
  · exact resume_suffix t ts

theorem blaming_readStatements (depth rounds : Nat) (c : Cursor) :
    Blaming c.rest (readStatements (.ofDepth depth) rounds c).errors := by
  induction rounds generalizing c with
  | zero => exact .nil
  | succ rounds ih =>
    have hskip : c.skipSeparators.rest <:+ c.rest := Cursor.skip_suffix _ c.last c.rest
    simp only [readStatements]
    split
    · exact .nil
    · next hne =>
      have hfollows := wholeStatement_follows (Recursion.follows_answered (.ofDepth 0) depth)
      cases hw : wholeStatement (.ofDepth depth) c.skipSeparators with
      | ok s c₁ => exact .skip ((hfollows.ok hw).1.trans hskip) (ih c₁)
      | error e c₁ =>
        have hblames : Blames c.skipSeparators.rest [] (wholeStatement (.ofDepth depth)) :=
          wholeStatement_blames (blames_ofDepth _ depth)
        have hblamed := hblames c.skipSeparators List.suffix_rfl (by simp)
        rw [hw] at hblamed
        exact .skip hskip (.cons (by simpa using hne) (hfollows.error hw) hblamed
          c₁.synchronize_suffix (ih _))

/-- A round that fails at a cursor, with its error. -/
def FailsAt (self : Recursion) (c place : Cursor) (e : ParseError) : Prop :=
  Rounds self c place ∧ ∃ c', wholeStatement self place = .error e c'

theorem readStatements_rounds (depth rounds : Nat) (c : Cursor) :
    ∃ places : List Cursor,
      List.Forall₂ (FailsAt (.ofDepth depth) c) places
        (readStatements (.ofDepth depth) rounds c).errors ∧
      (∀ place ∈ places, place.rest.length ≤ c.rest.length) ∧
      places.Pairwise fun a b => b.rest.length < a.rest.length := by
  induction rounds generalizing c with
  | zero => exact ⟨[], .nil, by simp, .nil⟩
  | succ rounds ih =>
    have hskip := (Cursor.skip_suffix [.newline, .symbol .colon] c.last c.rest).length_le
    simp only [readStatements]
    split
    · exact ⟨[], .nil, by simp, .nil⟩
    · next hne =>
      have hfollows := wholeStatement_follows (Recursion.follows_answered (.ofDepth 0) depth)
      have hrest : c.skipSeparators.rest ≠ [] := by simpa using hne
      cases hw : wholeStatement (.ofDepth depth) c.skipSeparators with
      | ok s c₁ =>
        obtain ⟨places, hplaces, hle, hlater⟩ := ih c₁
        have hread := (hfollows.ok hw).1.length_le
        refine ⟨places, hplaces.imp fun place e h => ⟨.read hrest hw h.1, h.2⟩,
          fun place h => ?_, hlater⟩
        exact (hle place h).trans (hread.trans hskip)
      | error e c₁ =>
        obtain ⟨places, hplaces, hle, hlater⟩ := ih c₁.synchronize
        have hread := (hfollows.error hw).length_le
        have hresume := c₁.synchronize_suffix.length_le
        have hpos := List.length_pos_iff.2 hrest
        rw [List.length_tail] at hresume
        have hbehind : ∀ place ∈ places, place.rest.length < c.skipSeparators.rest.length :=
          fun place h => (hle place h).trans_lt (by omega)
        refine ⟨c.skipSeparators :: places, .cons ⟨.here hrest, c₁, hw⟩ (hplaces.imp fun place e h =>
          ⟨.resume hrest hw h.1, h.2⟩), ?_, .cons hbehind hlater⟩
        exact List.forall_mem_cons.2 ⟨hskip, fun place h => (hbehind place h).le.trans hskip⟩

theorem start_lt_byteLength {source : Text} {t : Token} (ht : t ∈ lex source) :
    t.span.start < byteLength source := by
  have hplaced := ((lex_ordered source).placed t ht).lt
  rw [lex_eq_place] at ht
  obtain ⟨u, v, w, hjoin, hextent⟩ := extent_of_mem_place ht
  have hstop : t.span.stop = byteLength (u ++ v) := by
    rw [Token.span, hextent]
    exact Mark.offset_origin_advance (u ++ v)
  rw [join_items] at hjoin
  rw [hjoin, byteLength_append]
  omega

/-- The errors of a text behind the invalid characters. -/
structure Orderly (source : Text) (errs : List ParseError) : Prop where
  known : ∀ e ∈ errs, ∀ t, e ≠ .invalidCharacter t
  /-- The places go up through the text. -/
  ascending : (errs.filterMap ParseError.span).Pairwise fun a b => a.start < b.start
  /-- Each place is the start of a token. -/
  placed : ∀ e ∈ errs, ∀ s, e.span = some s →
    s.start < byteLength source ∧ ∃ t ∈ lex source, s.start = t.span.start
  /-- Each error is that of a round of its own, in the order of the rounds. -/
  rounds : ∃ places : List Cursor,
    List.Forall₂ (FailsAt (.ofDepth ((lex source).length + 1)) (.ofTokens (lex source))) places errs ∧
    places.Pairwise fun a b => b.rest.length < a.rest.length

theorem isFinal_of_mem_invalidCharacters {ts : List Token} {e : ParseError}
    (h : e ∈ invalidCharacters ts) : e.isFinal = false := by
  obtain ⟨t, -, rfl⟩ := List.mem_map.1 h
  rfl

theorem parseTokens_error {ts : List Token} {errs : List ParseError}
    (h : parseTokens ts = .error errs) : errs = invalidCharacters ts ++
      (readStatements (.ofDepth (ts.length + 1)) (ts.length + 1) (.ofTokens ts)).errors := by
  simp only [parseTokens] at h
  split at h
  · cases h
  · cases h
    rfl

/-- A text that is not accepted has an error for each token that is none, in order, and then those of
the rounds that failed. Only the last error can be one for the end of the text. With the list of errors
at hand the run comes to the same list, and no round adds more than one error to it. -/
theorem parse_errors {source : Text} {errs : List ParseError} (h : parse source = .error errs) :
    (∃ later, errs = invalidCharacters (lex source) ++ later ∧ Orderly source later) ∧
      (∀ before e after, errs = before ++ e :: after → e.isFinal = true → after = []) ∧
      Indexed.parseTokens (lex source) = some (.error errs) ∧
      ∀ i ≤ (lex source).length,
        Indexed.RoundRecords (lex source) i (Indexed.ofDepth ((lex source).length + 1)) := by
  have herrs := parseTokens_error h
  have hblaming := blaming_readStatements ((lex source).length + 1) ((lex source).length + 1)
    (.ofTokens (lex source))
  obtain ⟨places, hplaces, -, hlater⟩ := readStatements_rounds ((lex source).length + 1)
    ((lex source).length + 1) (.ofTokens (lex source))
  refine ⟨⟨_, herrs, hblaming.known, hblaming.ascending (lex_ordered source).pairwise,
    fun e he s hs => ?_, places, hplaces, hlater⟩, fun before e after hsplit he => ?_, ?_,
    fun i hi => Indexed.roundRecords_lex hi (by omega)⟩
  · obtain ⟨t, ht, hstart⟩ := hblaming.seen e he s hs
    exact ⟨hstart ▸ start_lt_byteLength ht, t, ht, hstart⟩
  · rw [herrs] at hsplit
    rcases List.append_eq_append_iff.1 hsplit with ⟨before', -, hread⟩ | ⟨last, hinvalid, hread⟩
    · exact hblaming.final hread he
    · cases last with
      | nil => exact hblaming.final (show _ = [] ++ e :: after from hread.symm) he
      | cons e' last =>
        cases hread
        have hmem : e ∈ invalidCharacters (lex source) := by simp [hinvalid]
        rw [isFinal_of_mem_invalidCharacters hmem] at he
        cases he
  · rw [Indexed.parseTokens_lex, h]

/-- A character that is no token and no expression either, and an `#if` that is not closed. -/
theorem parse_errors_compileIf :
    let source := "x = ~\n#if a\n".toList
    let found : Token := ⟨.unknown, "~", ⟨⟨4, 5⟩, ⟨⟨1, 4⟩, ⟨1, 5⟩⟩⟩⟩
    let errs := [.invalidCharacter found, .notExpression found, .missingEnd .compileIf ⟨6, 11⟩]
    parse source = .error errs ∧
      (∃ later, errs = invalidCharacters (lex source) ++ later ∧ Orderly source later) ∧
      (∀ before e after, errs = before ++ e :: after → e.isFinal = true → after = []) ∧
      Indexed.parseTokens (lex source) = some (.error errs) ∧
      ∀ i ≤ (lex source).length,
        Indexed.RoundRecords (lex source) i (Indexed.ofDepth ((lex source).length + 1)) :=
  ⟨rfl, parse_errors rfl⟩

end BrightCoverage
