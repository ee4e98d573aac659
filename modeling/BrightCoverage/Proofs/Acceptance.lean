import BrightCoverage.Proofs.Failures
import BrightCoverage.Proofs.Legible
import BrightCoverage.Proofs.TreePositions

/-! Nothing of an accepted file is lost. All its tokens are spelled by the tree, so none of them is
unknown or a string without its end; outside of the statements, and between two statements of one
list, there are separators only. -/

namespace BrightCoverage

open BrightCoverage.Parser

section Spelled

variable {α : Type} {ts rest : List Token}

/-- Whether no string without its end can be a token of the phrase. The kinds of tokens and the lists
of phrases that a phrase is made with are left open by its type. -/
def Phrase.isClosed : Phrase α → Bool
  | .list _ phrases | .more phrases | .items _ phrases => phrases.all isItem
  | .maybe kind phrase => kind ≠ .openString && phrase.all isItem
  | .accepted kind => kind ≠ .openString
  | _ => true

theorem Phrase.isClosed_of_isItem {ph : Phrase α} (h : ph.isItem = true) : ph.isClosed = true := by
  cases ph <;> trivial

theorem Phrase.all_isItem_map {β : Type} {f : β → Phrase α} (h : ∀ b, (f b).isItem = true)
    (o : Option β) : (o.map f).all isItem = true := by
  cases o with
  | none => rfl
  | some b => exact h b

def Part.isClosed : Part α → Bool
  | .token kind _ => kind ≠ .openString
  | .skip kinds => .openString ∉ kinds
  | .phrase ph => ph.isClosed
  | _ => true

theorem ne_openString {β : Type} {f : TokenKind → Option β} (hf : f .openString = none)
    {k : TokenKind} {b : β} (h : f k = some b) : k ≠ .openString := by
  rintro rfl
  rw [hf] at h
  cases h

theorem Form.isClosed {ph : Phrase α} {ps : List (Part α)} (h : Form ph ps)
    (hp : ph.isClosed = true) : ps.all Part.isClosed = true := by
  cases h
  case binary h _ => simp [Part.isClosed, Phrase.isClosed, ne_openString rfl h]
  case unary h _ => simp [Part.isClosed, Phrase.isClosed, ne_openString rfl h]
  case assign h => simp [Part.isClosed, Phrase.isClosed, ne_openString rfl h]
  case assignMember h => simp [Part.isClosed, Phrase.isClosed, ne_openString rfl h]
  case assignIndex h => simp [Part.isClosed, Phrase.isClosed, ne_openString rfl h]
  case lastSeparator h => simp [Part.isClosed, Phrase.isClosed, ne_openString rfl h]
  case separator h => simp [Part.isClosed, Phrase.isClosed, ne_openString rfl h]
  case print k h =>
    have hk : k ≠ .openString := by
      rintro rfl
      simp at h
    simp [Part.isClosed, Phrase.isClosed, hk]
  case listCons | moreCons | itemsLast | itemsComma | itemsNewline =>
    obtain ⟨hitem, hitems⟩ := Bool.and_eq_true_iff.1 hp
    simp only [List.all_cons, List.all_nil, Part.isClosed, Phrase.isClosed_of_isItem hitem,
      Bool.and_true]
    exact hitems
  case maybeSome =>
    obtain ⟨hk, hitem⟩ := Bool.and_eq_true_iff.1 hp
    simp [Part.isClosed, Phrase.isClosed_of_isItem hitem, of_decide_eq_true hk]
  case accepted =>
    simp only [List.all_cons, List.all_nil, Bool.and_true]
    exact hp
  case call | array | assoc | dim => simp [Part.isClosed, Phrase.isClosed, Phrase.isItem]
  case parameter default type =>
    have hdefault := Phrase.all_isItem_map (f := Phrase.value (α := α)) (fun _ => rfl) default
    have htype := Phrase.all_isItem_map (f := Phrase.word (α := α)) (fun _ => rfl) type
    simp [Part.isClosed, Phrase.isClosed, hdefault, htype]
  case procedure returns _ =>
    have hreturns := Phrase.all_isItem_map (f := Phrase.word (α := α)) (fun _ => rfl) returns
    simp [Part.isClosed, Phrase.isClosed, Phrase.isItem, hreturns]
  case blockBranch body =>
    have hbody := Phrase.all_isItem_map (f := Phrase.block (α := α) (.block .branch))
      (fun _ => rfl) body
    simp [Part.isClosed, Phrase.isClosed, hbody]
  case forLoop step _ =>
    have hstep := Phrase.all_isItem_map (f := Phrase.value (α := α)) (fun _ => rfl) step
    simp [Part.isClosed, Phrase.isClosed, hstep]
  all_goals rfl

/-- Of the tokens up to a rest, only words are strings without an end. -/
def Ended (ts rest : List Token) : Prop :=
  ∀ t ∈ ts, t ∈ rest ∨ (t.kind = .openString → t.isWord = true)

theorem Fits.ended {P : Phrase α → List Token → List Token → Prop} {ps : List (Part α)}
    (h : Fits P ps ts rest) (hps : ps.all Part.isClosed = true)
    (hP : ∀ ph us vs, P ph us vs → ph.isClosed = true → Ended us vs) : Ended ts rest := by
  induction h with
  | nil => exact fun t ht => .inl ht
  | token hk _ _ ih | word _ _ _ ih | line hk _ _ ih =>
    obtain ⟨hp, hps⟩ := Bool.and_eq_true_iff.1 hps
    intro t ht
    rcases List.mem_cons.1 ht with rfl | ht
    · right
      simp_all [Part.isClosed]
    · exact ih hps t ht
  | @skip ks _ ts _ _ ih =>
    obtain ⟨hp, hps⟩ := Bool.and_eq_true_iff.1 hps
    intro t ht
    rw [← List.takeWhile_append_dropWhile (p := fun t : Token => decide (t.kind ∈ ks)) (l := ts),
      List.mem_append] at ht
    rcases ht with ht | ht
    · have hk := List.mem_takeWhile_imp ht
      right
      intro ho
      rw [decide_eq_true_iff, ho] at hk
      exact absurd hk (of_decide_eq_true hp)
    · exact ih hps t ht
  | ahead _ _ ih => exact ih (Bool.and_eq_true_iff.1 hps).2
  | phrase hs _ ih =>
    obtain ⟨hp, hps⟩ := Bool.and_eq_true_iff.1 hps
    intro t ht
    rcases hP _ _ _ hs hp t ht with ht | ht
    · exact ih hps t ht
    · exact .inr ht

theorem Spells.ended {N : Phrase α → List Token → List Token → Prop} {ph : Phrase α}
    (h : Spells N ph ts rest) (hp : ph.isClosed = true) : Ended ts rest :=
  Spells.induct (Q := fun ph ts rest => ph.isClosed = true → Ended ts rest)
    (fun _ _ _ _ form _ fits hp => fits.ended (form.isClosed hp) fun _ _ _ h => h.2) h hp

end Spelled

theorem lex_isWord (source : Text) : ∀ t ∈ lex source, t.kind = .openString → t.isWord = false := by
  rw [lex_eq_place]
  have hitems := items_openString source
  generalize items source = its at hitems
  generalize Mark.origin = m
  induction its generalizing m with
  | nil => exact fun t ht => absurd ht List.not_mem_nil
  | cons it its ih =>
    obtain ⟨hit, hits⟩ := List.forall_mem_cons.1 hitems
    obtain ⟨_ | kind, text⟩ := it
    · exact ih hits _
    · refine List.forall_mem_cons.2 ⟨fun hk => ?_, ih hits _⟩
      obtain ⟨rest, rfl⟩ := hit (by rw [← hk])
      simp only [Token.isWord, String.toList_ofList]
      rfl

section Lines

variable {ts : List Token} {body : List (Statement Extent)} {i j : Nat}

def Token.IsSeparator (t : Token) : Prop :=
  t.kind = .newline ∨ t.kind = .symbol .colon

theorem Gap.isSeparator (h : Gap ts i j) {x : Nat} {t : Token} (hx : ts[x]? = some t) (hi : i ≤ x)
    (hj : x < j) : t.IsSeparator := by
  show t.kind = _ ∨ t.kind = _
  simpa [kindAt, hx] using h.separators x hi hj

theorem Lines.cover (h : Lines ts (Laid ts) body i j) {x : Nat} {t : Token}
    (hx : ts[x]? = some t) (hi : i ≤ x) (hj : x < j) :
    t.IsSeparator ∨ ∃ s ∈ body, ∃ a b, a ≤ x ∧ x < b ∧ Laid ts (.statement s) a b := by
  induction h with
  | nil gap => exact .inl (gap.isSeparator hx hi hj)
  | @cons s rest i a b j gap laid _ ih =>
    rcases Nat.lt_or_ge x a with hxa | hax
    · exact .inl (gap.isSeparator hx hi hxa)
    · rcases Nat.lt_or_ge x b with hxb | hbx
      · exact .inr ⟨s, List.mem_cons_self .., a, b, hax, hxb, laid⟩
      · refine (ih hbx hj).imp_right fun ⟨s', hs', h⟩ => ⟨s', List.mem_cons_of_mem _ hs', h⟩

theorem Lines.gap {before after : List (Statement Extent)} {s s' : Statement Extent}
    (h : Lines ts (Laid ts) (before ++ s :: s' :: after) i j) :
    ∃ a b a' b', Laid ts (.statement s) a b ∧ Gap ts b a' ∧ Laid ts (.statement s') a' b' := by
  induction before generalizing i with
  | nil =>
    obtain _ | ⟨-, laid, _ | ⟨gap, laid', -⟩⟩ := h
    exact ⟨_, _, _, _, laid, gap, laid'⟩
  | cons s₀ before ih =>
    obtain _ | ⟨-, -, rest⟩ := h
    exact ih rest

theorem Row.lines_of_mem {ps : List Piece} (h : Row ts (Laid ts) ps i j)
    (hb : body ∈ ps.filterMap Piece.body?) : ∃ a b, Lines ts (Laid ts) body a b := by
  induction h with
  | nil => cases hb
  | expression _ _ _ ih | opening _ _ _ ih | clause _ _ _ _ _ _ ih => exact ih hb
  | statements _ lines _ ih =>
    rcases List.mem_cons.1 hb with rfl | hb
    · exact ⟨_, _, lines⟩
    · exact ih hb

end Lines

namespace Ordered

variable {source : Text} {ts : List Token} (h : Ordered source ts) {i j x : Nat} {t : Token}
include h

theorem inside_extentBetween (hx : ts[x]? = some t) (hi : i ≤ x) (hj : x < j)
    (hl : j ≤ ts.length) : (extentBetween ts i j).span.start ≤ t.span.start ∧
      t.span.stop ≤ (extentBetween ts i j).span.stop := by
  obtain ⟨a, b, ha, hb, he⟩ := exists_tokens (by omega : i < j) hl
  rw [he]
  exact ⟨h.start_le_start hi ha hx, h.stop_le_stop (by omega) hx hb⟩

theorem le_of_stop_le (hx : ts[x]? = some t) (hij : i < j) (hl : j ≤ ts.length)
    (hle : (extentBetween ts i j).span.stop ≤ t.span.start) : j ≤ x := by
  obtain ⟨a, b, ha, hb, he⟩ := exists_tokens hij hl
  rw [he] at hle
  by_contra hlt
  have := h.stop_le_stop (by omega : x ≤ j - 1) hx hb
  have := (h.placed_at hx).lt
  have : b.span.stop ≤ t.span.start := hle
  omega

theorem lt_of_stop_le (hx : ts[x]? = some t) (hij : i < j) (hl : j ≤ ts.length)
    (hle : t.span.stop ≤ (extentBetween ts i j).span.start) : x < i := by
  obtain ⟨a, b, ha, hb, he⟩ := exists_tokens hij hl
  rw [he] at hle
  by_contra hlt
  have := h.start_le_start (by omega : i ≤ x) ha hx
  have := (h.placed_at hx).lt
  have : t.span.stop ≤ a.span.start := hle
  omega

end Ordered

/-- The lists of statements of a file: its own, and those inside a node at any depth. -/
def IsBody (program body : List (Statement Extent)) : Prop :=
  body = program ∨ ∃ s ∈ program, ∃ n, Node.Below (.statement s) n ∧ body ∈ n.bodies

theorem IsBody.lines {ts : List Token} {program body : List (Statement Extent)} {i j : Nat}
    (hb : IsBody program body) (h : Lines ts (Laid ts) program i j) :
    ∃ a b, Lines ts (Laid ts) body a b := by
  obtain rfl | ⟨s, hs, n, hn, hmem⟩ := hb
  · exact ⟨i, j, h⟩
  · obtain ⟨a, b, -, -, laid⟩ := h.laid_of_mem hs
    obtain ⟨a', b', -, -, laid'⟩ := laid.of_below hn
    exact laid'.row.lines_of_mem hmem

/-- How the tokens of a text and the statements read from it stand to each other when nothing is
lost. -/
structure Complete (source : Text) (program : List (Statement Extent)) : Prop where
  known : ∀ t ∈ lex source, t.kind ≠ .unknown ∧ t.kind ≠ .openString
  covered : ∀ t ∈ lex source, t.IsSeparator ∨ ∃ s ∈ program,
    s.here.span.start ≤ t.span.start ∧ t.span.stop ≤ s.here.span.stop
  separated : ∀ before s s' after, IsBody program (before ++ s :: s' :: after) →
    ∀ t ∈ lex source, s.here.span.stop ≤ t.span.start → t.span.stop ≤ s'.here.span.start →
      t.IsSeparator
  /-- Whatever the parsers are made to do instead of failing, the same is read. -/
  answered : ∀ answer, readStatements (.answered answer ((lex source).length + 1))
    ((lex source).length + 1) (.ofTokens (lex source)) = ⟨program, []⟩

theorem parseTokens_eq_ok {ts : List Token} {program : List (Statement Extent)}
    (h : parseTokens ts = .ok program) : (∀ t ∈ ts, t.kind ≠ .unknown) ∧
      readStatements (.ofDepth (ts.length + 1)) (ts.length + 1) (.ofTokens ts) = ⟨program, []⟩ := by
  simp only [parseTokens] at h
  split at h
  · rename_i hnil
    cases h
    obtain ⟨hinvalid, herrors⟩ := List.append_eq_nil_iff.1 hnil
    refine ⟨by simpa [invalidCharacters] using hinvalid, ?_⟩
    rw [← herrors]
  · cases h

theorem complete_of_parse {source : Text} {program : List (Statement Extent)}
    (h : parse source = .ok program) : Complete source program := by
  have hlines := parseTokens_lines h
  have hordered := lex_ordered source
  obtain ⟨hknown, hread⟩ := parseTokens_eq_ok h
  refine ⟨fun t ht => ⟨hknown t ht, fun ho => ?_⟩, fun t ht => ?_, ?_, fun answer => ?_⟩
  · -- Every token is spelled, and what is spelled with this kind is a word.
    have hended := (parseTokens_spelled h).ended rfl t ht
    rw [lex_isWord source t ht ho] at hended
    simp [ho] at hended
  · obtain ⟨x, hx⟩ := List.getElem?_of_mem ht
    refine (hlines.cover hx (Nat.zero_le x) (List.getElem?_eq_some_iff.1 hx).1).imp_right ?_
    rintro ⟨s, hs, a, b, hax, hxb, laid⟩
    refine ⟨s, hs, ?_⟩
    rw [show s.here = extentBetween _ a b from laid.here_eq]
    exact hordered.inside_extentBetween hx hax hxb laid.le_length
  · intro before s s' after hbody t ht hstart hstop
    obtain ⟨i, j, hlines⟩ := hbody.lines hlines
    obtain ⟨a, b, a', b', laid, gap, laid'⟩ := hlines.gap
    obtain ⟨x, hx⟩ := List.getElem?_of_mem ht
    rw [show s.here = extentBetween _ a b from laid.here_eq] at hstart
    rw [show s'.here = extentBetween _ a' b' from laid'.here_eq] at hstop
    exact gap.isSeparator hx (hordered.le_of_stop_le hx laid.lt laid.le_length hstart)
      (hordered.lt_of_stop_le hx laid'.lt laid'.le_length hstop)
  · rw [readStatements_of_follows (Recursion.follows_answered answer _) (by rw [hread]), hread]

end BrightCoverage
