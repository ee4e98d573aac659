import BrightCoverage.Proofs.ErasedForms
import BrightCoverage.Proofs.Legible
import BrightCoverage.Proofs.WovenTrees

/-! Calls sown between lines. A call with its colon may be put behind any line break that stands
outside of all brackets: there it is a statement of the list of statements that goes on behind the
line break, whatever comes next. The tokens then spell a tree that differs from the one they spelled
before in nothing but these calls. -/

namespace BrightCoverage

variable {r : Reporter} {x : Eraser} {d e : Int} {t u : Token} {ts us rest vs : List Token}

/-! ### Brackets -/

/-- By how much a token of the kind changes the number of open brackets. -/
def TokenKind.turn : TokenKind → Int
  | .symbol .leftParen | .symbol .leftBracket | .symbol .leftBrace => 1
  | .symbol .rightParen | .symbol .rightBracket | .symbol .rightBrace => -1
  | _ => 0

/-- Neither a bracket nor a line break. -/
def TokenKind.Flat (kind : TokenKind) : Prop :=
  kind.turn = 0 ∧ kind ≠ .newline

instance (kind : TokenKind) : Decidable kind.Flat :=
  inferInstanceAs (Decidable (_ ∧ _))

theorem BinaryOp.flat_of_ofKind? {op : BinaryOp} {kind : TokenKind} (h : ofKind? kind = some op) :
    kind.Flat := by
  unfold ofKind? at h
  split at h
  all_goals
    cases h
    try decide

theorem UnaryOp.flat_of_ofKind? {op : UnaryOp} {kind : TokenKind} (h : ofKind? kind = some op) :
    kind.Flat := by
  unfold ofKind? at h
  split at h
  all_goals
    cases h
    try decide

theorem AssignOp.flat_of_ofKind? {op : AssignOp} {kind : TokenKind} (h : ofKind? kind = some op) :
    kind.Flat := by
  unfold ofKind? at h
  split at h
  all_goals
    cases h
    try decide

theorem PrintSeparator.flat_of_ofKind? {last : PrintSeparator} {kind : TokenKind}
    (h : ofKind? kind = some last) : kind.Flat := by
  unfold ofKind? at h
  split at h
  all_goals
    cases h
    try decide

/-! ### Calls behind line breaks -/

/-- A token and what it is copied to; a word is neither a bracket nor a line break. -/
structure Kept (t u : Token) : Prop where
  alike : Alike t u
  flat : t.isWord = true → t.kind.Flat

/-- The same tokens, with calls that report some lines behind line breaks outside of all brackets;
so many brackets are open in front. -/
inductive Sown (r : Reporter) (lines : Nat → Prop) : Int → List Token → List Token → Prop
  | nil {d : Int} : Sown r lines d [] []
  | cons {d : Int} {t u : Token} {ts us : List Token} : Kept t u →
    Sown r lines (d + t.kind.turn) ts us → Sown r lines d (t :: ts) (u :: us)
  | call {t u : Token} {ts us xs : List Token} {line : Nat} : t.kind = .newline → Kept t u →
    lines line → Printed (r.lead (some line)) xs us → Sown r lines 0 ts us →
    Sown r lines 0 (t :: ts) (u :: xs)

variable {lines : Nat → Prop}

namespace Sown

theorem kindOf_eq (h : Sown r lines d ts us) : kindOf us = kindOf ts := by
  cases h with
  | nil => rfl
  | cons hk _ => exact congrArg some hk.alike.kind.symm
  | call _ hk _ _ _ => exact congrArg some hk.alike.kind.symm

theorem agree (h : Sown r lines d ts us) : Agree ts us := by
  cases h with
  | nil => exact .nil
  | cons hk h =>
    refine .cons hk.alike fun w _ => ?_
    rw [h.kindOf_eq]
  | call ht hk _ _ _ => exact .cons hk.alike (samePartner_of_nil (ht ▸ rfl) _ _)

theorem uncons (h : Sown r lines d (t :: ts) us) (ht : t.kind ≠ .newline) :
    ∃ u us', us = u :: us' ∧ Kept t u ∧ Sown r lines (d + t.kind.turn) ts us' := by
  cases h with
  | cons hk h => exact ⟨_, _, rfl, hk, h⟩
  | call hn _ _ _ _ => exact absurd hn ht

theorem uncons_word (h : Sown r lines d (t :: ts) us) (ht : t.isWord = true) :
    ∃ u us', us = u :: us' ∧ Kept t u ∧ Sown r lines d ts us' := by
  cases h with
  | cons hk h =>
    rw [(hk.flat ht).1, Int.add_zero] at h
    exact ⟨_, _, rfl, hk, h⟩
  | call hn hk _ _ _ => exact absurd hn (hk.flat ht).2

theorem skip_newlines (h : Sown r lines d ts us) (hd : 0 < d) :
    Sown r lines d (ts.dropWhile (·.kind ∈ [TokenKind.newline]))
      (us.dropWhile (·.kind ∈ [TokenKind.newline])) := by
  induction h with
  | nil => exact .nil
  | @cons d t u ts us hk h ih =>
    by_cases ht : t.kind = .newline
    · have hturn : d + t.kind.turn = d := by rw [ht]; exact Int.add_zero d
      rw [hturn] at ih
      simpa [List.dropWhile_cons, ← hk.alike.kind, ht] using ih hd
    · simpa [List.dropWhile_cons, ← hk.alike.kind, ht] using Sown.cons hk h
  | call _ _ _ _ _ _ => exact absurd hd (by decide)

end Sown

theorem Agree.heeded (h : Agree ts us) (n : Nat) : Heeded n ts us := by
  match n with
  | 0 => trivial
  | 1 => exact .inl h
  | _ + 2 => exact h

/-! ### Forms and brackets -/

/-- Whether a phrase may stand where so many brackets are open: some phrases skip line breaks, which
only happens inside brackets. -/
def Phrase.Within (d : Int) : Phrase Extent → Prop
  | .argument _ => 0 < d
  | .list _ members | .more members | .items _ members => 0 < d ∧ ∀ ph ∈ members, ph.isItem = true
  | .maybe kind phrase =>
    kind.Flat ∧ ∀ ph ∈ phrase, ph.isItem = true ∧ ∀ e, ph ≠ .argument e
  | .accepted kind => kind.Flat
  | _ => True

theorem Phrase.within_of_isItem {ph : Phrase Extent} (h : ph.isItem = true) (hd : 0 < d) :
    ph.Within d := by
  cases ph <;> trivial

theorem Phrase.within_of_not_argument {ph : Phrase Extent}
    (h : ph.isItem = true ∧ ∀ e, ph ≠ .argument e) : ph.Within d := by
  cases ph <;> first | trivial | exact absurd rfl (h.2 _) | exact absurd h.1 Bool.false_ne_true

/-- The parts leave brackets open as they should, and line breaks are skipped inside of them. -/
def Nested (d e : Int) : List (Part Extent) → Prop
  | [] => d = e
  | .token kind _ :: ps => kind ≠ .newline ∧ Nested (d + kind.turn) e ps
  | .word _ :: ps | .line _ :: ps | .ahead _ :: ps => Nested d e ps
  | .skip kinds :: ps => (0 < d ∧ kinds = [.newline]) ∧ Nested d e ps
  | .phrase ph :: ps => (0 ≤ d ∧ ph.Within d) ∧ Nested d e ps

def Phrase.isBlock : Phrase Extent → Bool
  | .block .. => true
  | _ => false

section Nested

variable {ps : List (Part Extent)}

theorem nested_flat {kind : TokenKind} {p : String → Prop} (hk : kind.Flat) (h : Nested d e ps) :
    Nested d e (.token kind p :: ps) := by
  refine ⟨hk.2, ?_⟩
  rw [hk.1, Int.add_zero]
  exact h

theorem nested_phrase {ph : Phrase Extent} (hd : 0 ≤ d) (hph : ph.Within d) (h : Nested d e ps) :
    Nested d e (.phrase ph :: ps) :=
  ⟨⟨hd, hph⟩, h⟩

theorem within_items {α : Type} {f : α → Phrase Extent} (hf : ∀ a, (f a).isItem = true)
    (hd : 0 < d) (as : List α) : 0 < d ∧ ∀ ph ∈ as.map f, ph.isItem = true := by
  refine ⟨hd, fun ph hph => ?_⟩
  obtain ⟨a, -, rfl⟩ := List.mem_map.1 hph
  exact hf a

theorem within_maybe {α : Type} {f : α → Phrase Extent} {kind : TokenKind} (hk : kind.Flat)
    (hf : ∀ a, (f a).isItem = true ∧ ∀ e, f a ≠ .argument e) (o : Option α) :
    (Phrase.maybe kind (o.map f)).Within d := by
  refine ⟨hk, fun ph hph => ?_⟩
  obtain ⟨a, -, rfl⟩ := Option.map_eq_some_iff.1 hph
  exact hf a

theorem within_accepted {kind : TokenKind} (hk : kind.Flat) :
    (Phrase.accepted kind).Within d :=
  hk

end Nested

theorem Form.nested {ph : Phrase Extent} {ps : List (Part Extent)} (form : Form ph ps)
    (hd : 0 ≤ d) (hph : ph.Within d) (hblock : ph.isBlock = false) : Nested d d ps := by
  have hopen : 0 < d + 1 := by omega
  have hinner : 0 ≤ d + 1 := by omega
  have hshut : d + 1 + -1 = d := by omega
  -- A form shuts the brackets it opens, so it ends at the depth it starts at. It skips line breaks only
  -- where a bracket is open, one of its own or one around it.
  cases form
  case binary hk _ => exact nested_phrase hd trivial (nested_flat (BinaryOp.flat_of_ofKind? hk)
      (nested_phrase hd trivial rfl))
  case unary hk _ => exact nested_flat (UnaryOp.flat_of_ofKind? hk) (nested_phrase hd trivial rfl)
  case grouped =>
    exact ⟨by simp, ⟨hopen, rfl⟩, nested_phrase hinner trivial ⟨⟨hopen, rfl⟩, by simp, hshut⟩⟩
  case call =>
    exact nested_phrase hd trivial ⟨by simp, ⟨hopen, rfl⟩, nested_phrase hinner
      (within_items (fun _ => rfl) hopen _) ⟨by simp, hshut⟩⟩
  case index =>
    exact nested_phrase hd trivial ⟨by simp, ⟨hopen, rfl⟩, nested_phrase hinner trivial
      ⟨⟨hopen, rfl⟩, by simp, hshut⟩⟩
  case array =>
    exact ⟨by simp, nested_phrase hinner (within_items (fun _ => rfl) hopen _) ⟨by simp, hshut⟩⟩
  case assoc =>
    exact ⟨by simp, nested_phrase hinner (within_items (fun _ => rfl) hopen _) ⟨by simp, hshut⟩⟩
  case argument => exact ⟨⟨hph, rfl⟩, nested_phrase hd trivial ⟨⟨hph, rfl⟩, rfl⟩⟩
  case parameter =>
    exact nested_phrase hd (within_maybe (by decide) (by simp [Phrase.isItem]) _)
      (nested_phrase hd (within_maybe (by decide) (by simp [Phrase.isItem]) _) rfl)
  case listCons =>
    obtain ⟨hpos, hitems⟩ := hph
    obtain ⟨hitem, hitems⟩ := List.forall_mem_cons.1 hitems
    exact nested_phrase hd (Phrase.within_of_isItem hitem hpos)
      (nested_phrase hd ⟨hpos, hitems⟩ rfl)
  case moreCons =>
    obtain ⟨hpos, hitems⟩ := hph
    obtain ⟨hitem, hitems⟩ := List.forall_mem_cons.1 hitems
    exact nested_flat (by decide) (nested_phrase hd (Phrase.within_of_isItem hitem hpos)
      (nested_phrase hd ⟨hpos, hitems⟩ rfl))
  case itemsNil => exact ⟨⟨hph.1, rfl⟩, rfl⟩
  case itemsLast =>
    obtain ⟨hpos, hitems⟩ := hph
    obtain ⟨hitem, -⟩ := List.forall_mem_cons.1 hitems
    exact ⟨⟨hpos, rfl⟩, nested_phrase hd (Phrase.within_of_isItem hitem hpos) rfl⟩
  case itemsComma =>
    obtain ⟨hpos, hitems⟩ := hph
    obtain ⟨hitem, hitems⟩ := List.forall_mem_cons.1 hitems
    exact ⟨⟨hpos, rfl⟩, nested_phrase hd (Phrase.within_of_isItem hitem hpos)
      (nested_flat (by decide) (nested_phrase hd ⟨hpos, hitems⟩ rfl))⟩
  case itemsNewline =>
    obtain ⟨hpos, hitems⟩ := hph
    obtain ⟨hitem, hitems⟩ := List.forall_mem_cons.1 hitems
    exact ⟨⟨hpos, rfl⟩, nested_phrase hd (Phrase.within_of_isItem hitem hpos)
      (nested_phrase hd ⟨hpos, hitems⟩ rfl)⟩
  case maybeSome =>
    exact nested_flat hph.1 (nested_phrase hd (Phrase.within_of_not_argument (hph.2 _ rfl)) rfl)
  case accepted => exact nested_flat hph rfl
  case procedure =>
    have hbehind : 0 ≤ d + 1 + -1 := by omega
    exact ⟨by simp, nested_phrase hinner (within_items (fun _ => rfl) hopen _) ⟨by simp,
      nested_phrase hbehind (within_maybe (by decide) (by simp [Phrase.isItem]) _)
        (nested_phrase hbehind trivial (nested_phrase hbehind trivial hshut))⟩⟩
  case blockNil | blockCons => cases hblock
  case nextWord => exact nested_flat (by decide) (nested_phrase hd (within_accepted (by decide)) rfl)
  case blockBranch =>
    exact nested_flat (by decide) (nested_phrase hd trivial (nested_phrase hd (within_accepted (by decide))
      (nested_phrase hd trivial (nested_phrase hd trivial (nested_phrase hd
        (within_maybe (by decide) (by simp [Phrase.isItem]) _) (nested_phrase hd trivial rfl))))))
  case elseIfsOne =>
    exact nested_flat (by decide) (nested_phrase hd trivial (nested_phrase hd (within_accepted (by decide))
      (nested_phrase hd trivial (nested_phrase hd trivial rfl))))
  case elseIfsTwo =>
    exact nested_flat (by decide) (nested_flat (by decide) (nested_phrase hd trivial
      (nested_phrase hd (within_accepted (by decide)) (nested_phrase hd trivial (nested_phrase hd trivial rfl)))))
  case forLoop =>
    exact nested_flat (by decide) (nested_flat (by decide) (nested_flat (by decide)
      (nested_phrase hd trivial (nested_flat (by decide) (nested_phrase hd trivial (nested_phrase hd
        (within_maybe (by decide) (by simp [Phrase.isItem]) _) (nested_phrase hd trivial
          (nested_phrase hd trivial rfl))))))))
  case assign hk =>
    exact nested_phrase hd trivial (nested_flat (AssignOp.flat_of_ofKind? hk)
      (nested_phrase hd trivial rfl))
  case assignMember hk =>
    exact nested_phrase hd trivial (nested_flat (AssignOp.flat_of_ofKind? hk)
      (nested_phrase hd trivial rfl))
  case assignIndex hk =>
    exact nested_phrase hd trivial (nested_flat (AssignOp.flat_of_ofKind? hk)
      (nested_phrase hd trivial rfl))
  case print hk =>
    have hflat : ∀ k ∈ [TokenKind.keyword .printKw, .symbol .question], k.Flat := by decide
    exact nested_flat (hflat _ hk) (nested_phrase hd trivial (nested_phrase hd trivial rfl))
  case lastSeparator hk =>
    exact nested_flat (PrintSeparator.flat_of_ofKind? hk) (nested_phrase hd trivial rfl)
  case separator hk =>
    exact nested_flat (PrintSeparator.flat_of_ofKind? hk) (nested_phrase hd trivial rfl)
  case dim =>
    exact nested_flat (by decide) (nested_flat (by decide) ⟨by simp, nested_phrase hinner trivial
      (nested_phrase hinner (within_items (fun _ => rfl) hopen _) ⟨by simp, hshut⟩)⟩)
  all_goals simp [Nested, TokenKind.turn, Phrase.Within, hd]

/-! ### Trees with calls sown among their tokens -/

/-- With calls sown among them, the tokens up to a rest spell what they spelled, but for the calls. -/
def Grows (r : Reporter) (x : Eraser) (lines : Nat → Prop) (ph : Phrase Extent)
    (ts rest : List Token) : Prop :=
  ∀ d us, 0 ≤ d → ph.Within d → Sown r lines d ts us → ∃ ph' vs,
    ph'.erase x = ph.erase x ∧ Sown r lines d rest vs ∧ Spells Plain ph' us vs

theorem Fits.grown {ps : List (Part Extent)} {n : Nat}
    (h : Fits (Grows r x lines) ps ts rest) (hnested : Nested d e ps) (hchecked : Checked n ps)
    (hs : Sown r lines d ts us) :
    ∃ qs vs, Alters x ps qs ∧ Sown r lines e rest vs ∧ Fits (Spells Plain) qs us vs := by
  induction h generalizing d us with
  | nil =>
    obtain rfl : d = e := hnested
    exact ⟨[], us, .nil, hs, .nil⟩
  | @token k p ps t ts rest hk hp h ih =>
    obtain ⟨hnewline, hnested⟩ := hnested
    obtain ⟨u, us, rfl, hkept, hs⟩ := hs.uncons (hk ▸ hnewline)
    obtain ⟨qs, vs, halters, hrest, hfits⟩ := ih hnested hchecked.2 (hk ▸ hs)
    refine ⟨.token k p :: qs, vs, .same halters, hrest, ?_⟩
    refine .token (hkept.alike.kind.symm.trans hk) ?_ hfits
    rcases hkept.alike.text with ht | ⟨hd, -⟩
    · rwa [← ht]
    -- The text of a directive may differ, and no form asks for one.
    · exact hchecked.1 (hk ▸ hd) _
  | @word n ps t ts rest hw hn h ih =>
    obtain ⟨u, us, rfl, hkept, hs⟩ := hs.uncons_word hw
    obtain ⟨qs, vs, halters, hrest, hfits⟩ := ih hnested hchecked hs
    obtain ⟨hw', hn'⟩ := hkept.alike.word hw
    exact ⟨.word n :: qs, vs, .same halters, hrest, .word hw' (hn'.trans hn) hfits⟩
  | @line p ps t ts rest hk hp h ih =>
    obtain ⟨u, us, rfl, hkept, hs⟩ := hs.uncons (by simp [hk])
    rw [hk] at hs
    obtain ⟨qs, vs, halters, hrest, hfits⟩ := ih (d := d) hnested hchecked (Int.add_zero d ▸ hs)
    exact ⟨.line p :: qs, vs, .same halters, hrest,
      .line (hkept.alike.kind.symm.trans hk) (hkept.alike.ofLine ▸ hp) hfits⟩
  | @skip ks ps ts rest h ih =>
    obtain ⟨⟨hd, rfl⟩, hnested⟩ := hnested
    obtain ⟨qs, vs, halters, hrest, hfits⟩ := ih hnested hchecked.2 (hs.skip_newlines hd)
    exact ⟨.newlines :: qs, vs, .same halters, hrest, .skip hfits⟩
  | @ahead p ps ts rest hp h ih =>
    obtain ⟨qs, vs, halters, hrest, hfits⟩ := ih hnested hchecked.2 hs
    exact ⟨.ahead p :: qs, vs, .same halters, hrest,
      .ahead (hchecked.1 _ _ (hs.agree.heeded _) hp) hfits⟩
  | phrase hgrows h ih =>
    obtain ⟨⟨hd, hwithin⟩, hnested⟩ := hnested
    obtain ⟨ph', mid, herase, hmid, hspells⟩ := hgrows d us hd hwithin hs
    obtain ⟨qs, vs, halters, hrest, hfits⟩ := ih hnested hchecked.2 hmid
    exact ⟨.phrase ph' :: qs, vs, .phrase herase halters, hrest, .phrase hspells hfits⟩

/-- The calls that an eraser takes out are calls that can be read. -/
structure Eraser.Knows (x : Eraser) (r : Reporter) (lines : Nat → Prop) : Prop where
  name : Name r.functionName
  takes : ∀ line, lines line → line ≤ maxInteger ∧
    ∀ here, x.takesStatement (.call here (r.callExpr here line .code)) = true

section Blocks

variable {stop : Stop} {body : List (Statement Extent)}

theorem Sown.block (hx : x.Knows r lines) (h : Sown r lines d ts us)
    (hpast : ∀ us, Sown r lines d (pastSeparators ts) us → ∃ body' vs,
      eraseBody x body' = eraseBody x body ∧ Sown r lines d rest vs ∧
        Spells Plain (.block stop body') us vs) :
    ∃ body' vs, eraseBody x body' = eraseBody x body ∧ Sown r lines d rest vs ∧
      Spells Plain (.block stop body') us vs := by
  induction h with
  | nil => exact hpast [] .nil
  | @cons d t u ts us hk h ih =>
    by_cases ht : t.kind ∈ [TokenKind.newline, .symbol .colon]
    · have hdrop : pastSeparators (t :: ts) = pastSeparators ts :=
        List.dropWhile_cons_of_pos (by simpa using ht)
      have hflat : ∀ k ∈ [TokenKind.newline, .symbol .colon], k.turn = 0 := by decide
      rw [hflat _ ht, Int.add_zero] at ih
      rw [pastSeparators_cons ht] at hpast
      obtain ⟨body', vs, herase, hrest, hblock⟩ := ih hpast
      exact ⟨body', vs, herase, hrest, hblock.cons_block (hk.alike.kind ▸ ht)⟩
    · have hdrop : pastSeparators (t :: ts) = t :: ts :=
        pastSeparators_eq fun k hk hkind => ht (Option.some.inj hkind ▸ hk)
      rw [hdrop] at hpast
      exact hpast _ (.cons hk h)
  | @call t u ts us xs line ht hk hline hprinted h ih =>
    rw [pastSeparators_cons (by simp [ht])] at hpast
    obtain ⟨body', vs, herase, hrest, hblock⟩ := ih hpast
    obtain ⟨hmax, htakes⟩ := hx.takes line hline
    refine ⟨_, vs, ?_, hrest, (hprinted.lead_block u.extent hx.name hmax hblock).cons_block
      (by simp [← hk.alike.kind, ht])⟩
    rw [eraseBody, if_pos (htakes _), herase]

end Blocks

theorem Form.grown {ph : Phrase Extent} {ps : List (Part Extent)} (hx : x.Knows r lines)
    (form : Form ph ps) (fits : Fits (Grows r x lines) ps ts rest) : Grows r x lines ph ts rest := by
  intro d us hd hph hs
  cases hblock : ph.isBlock with
  -- Calls follow line breaks outside brackets. Among the parts of a form there are such line breaks in
  -- a block only.
  | false =>
    obtain ⟨qs, vs, halters, hrest, hfits⟩ := fits.grown (form.nested hd hph hblock) form.checked hs
    obtain ⟨ph', herase, form'⟩ := form.erased halters
    exact ⟨ph', vs, herase, hrest, form'.spells hfits⟩
  | true =>
    have hunseparated := unseparated_pastSeparators ts
    cases form
    case blockNil stop =>
      simp only [fits_skip, fits_ahead, fits_nil] at fits
      obtain ⟨hend, rfl⟩ := fits
      have hpast : ∀ us, Sown r lines d (pastSeparators ts) us → ∃ body' vs,
          eraseBody x body' = eraseBody x [] ∧ Sown r lines d (pastSeparators ts) vs ∧
            Spells Plain (.block stop body') us vs := by
        intro us hs
        refine ⟨[], us, rfl, hs, Form.blockNil.spells (.skip_none
          (Look.unseparated (.inl hs.agree) hunseparated) (.ahead ?_ .nil))⟩
        rwa [hs.agree.nil_iff, hs.agree.atEnd]
      obtain ⟨body', vs, herase, hrest, hspells⟩ := hs.block hx hpast
      exact ⟨.block stop body', vs, congrArg (Phrase.block stop) herase, hrest, hspells⟩
    case blockCons stop s body =>
      simp only [fits_skip, fits_ahead, fits_phrase, fits_nil] at fits
      obtain ⟨hopen, mid, hgrows, hend, rest, hbody, rfl⟩ := fits
      have hpast : ∀ us, Sown r lines d (pastSeparators ts) us → ∃ body' vs,
          eraseBody x body' = eraseBody x (s :: body) ∧ Sown r lines d rest vs ∧
            Spells Plain (.block stop body') us vs := by
        intro us hs
        obtain ⟨_, mid', herase, hmid, hstatement⟩ := hgrows d us hd trivial hs
        obtain ⟨s', rfl, herases⟩ := (wraps_statement _ _).1 herase
        obtain ⟨_, vs, herase, hrest, hspells⟩ := hbody d mid' hd trivial hmid
        obtain ⟨body', rfl, heraseb⟩ := (wraps_block stop _ _).1 herase
        refine ⟨s' :: body', vs, eraseBody_cons_congr herases heraseb, hrest, ?_⟩
        refine Form.blockCons.spells (.skip_none (Look.unseparated (.inl hs.agree) hunseparated)
          (.ahead ?_ (.phrase hstatement (.ahead ?_ (.phrase hspells .nil)))))
        · rwa [ne_eq, hs.agree.nil_iff, hs.agree.atEnd]
        · rwa [hmid.agree.atStatementEnd]
      obtain ⟨body', vs, herase, hrest, hspells⟩ := hs.block hx hpast
      exact ⟨.block stop body', vs, congrArg (Phrase.block stop) herase, hrest, hspells⟩
    all_goals cases hblock

/-- Calls may be sown among the tokens of any phrase. -/
theorem Spells.grown {N : Phrase Extent → List Token → List Token → Prop} {ph : Phrase Extent}
    (hx : x.Knows r lines) (h : Spells N ph ts rest) : Grows r x lines ph ts rest :=
  Spells.induct (Q := Grows r x lines)
    (fun _ _ _ _ form _ fits => form.grown hx (fits.imp fun _ _ _ h => h.2)) h

end BrightCoverage
