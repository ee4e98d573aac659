import BrightCoverage.Proofs.ReadingBack

/-! Tokens that are written alike spell the same. What a phrase looks at behind its own tokens has to
look the same too, and phrases differ in how much they look at: an expression looks at nothing, the
phrases at the end of a statement do not tell the end of the text from the end of a line, and the
others tell all there is to see. -/

namespace BrightCoverage

variable {t u : Token} {ts us rest vs mid : List Token}

/-- Tokens of one kind that are written alike. A directive may be written otherwise if it says the
same. -/
structure Alike (t u : Token) : Prop where
  kind : t.kind = u.kind
  text : t.text = u.text ∨ (t.kind = .directive ∧ t.isWord = false ∧
    Directive.ofLine t.text.toList = Directive.ofLine u.text.toList)

theorem Alike.refl (t : Token) : Alike t t :=
  ⟨rfl, .inl rfl⟩

theorem Alike.word (h : Alike t u) (hw : t.isWord = true) : u.isWord = true ∧ u.text = t.text := by
  rcases h.text with ht | ⟨-, hf, -⟩
  · exact ⟨by rw [← hw, Token.isWord, Token.isWord, ht], ht.symm⟩
  · rw [hf] at hw
    cases hw

theorem Alike.ofLine (h : Alike t u) :
    Directive.ofLine t.text.toList = Directive.ofLine u.text.toList := by
  rcases h.text with ht | ⟨-, -, hl⟩
  · rw [ht]
  · exact hl

/-- The words with which a kind of token is looked at together. -/
def partners : TokenKind → List Keyword
  | .keyword .endKw => [.ifKw, .forKw, .whileKw, .functionKw, .subKw]
  | .keyword .elseKw => [.ifKw]
  | _ => []

/-- The same partner comes behind a token of the kind, or none. -/
def SamePartner (kind : TokenKind) (ts us : List Token) : Prop :=
  ∀ w ∈ partners kind, kindOf ts = some (.keyword w) ↔ kindOf us = some (.keyword w)

/-- Two places that look alike from in front of them. -/
inductive Agree : List Token → List Token → Prop
  | nil : Agree [] []
  | cons {t u : Token} {ts us : List Token} : Alike t u → SamePartner t.kind ts us →
    Agree (t :: ts) (u :: us)

/-- Two places that look alike if the end of the text counts as the end of a line. -/
def Near (ts us : List Token) : Prop :=
  Agree ts us ∨ (ts = [] ∧ kindOf us = some .newline)

theorem kind?_ofTokens (ts : List Token) : (Cursor.ofTokens ts).kind? = kindOf ts := rfl

theorem kindAt?_one (ts : List Token) : (Cursor.ofTokens ts).kindAt? 1 = kindOf ts.tail := by
  simp [Cursor.kindAt?, Cursor.ofTokens, kindOf, List.head?_tail]

theorem Block.opener_mem_partners {b : Block} {w : Keyword} (h : b.opener? = some w) :
    w ∈ partners (.keyword .endKw) := by
  rcases b with _ | _ | _ | (_ | _) | _ <;> cases h <;> decide

namespace Agree

theorem kindOf_eq (h : Agree ts us) : kindOf us = kindOf ts := by
  cases h with
  | nil => rfl
  | cons h _ => exact congrArg some h.kind.symm

theorem nil_iff (h : Agree ts us) : us = [] ↔ ts = [] := by
  cases h <;> simp

theorem samePartner (h : Agree ts us) (kind : TokenKind) : SamePartner kind ts us := by
  intro w _
  rw [h.kindOf_eq]

theorem partner {k w : Keyword} (h : Agree ts us) (hw : w ∈ partners (.keyword k)) :
    (kindOf us = some (.keyword k) ∧ kindOf us.tail = some (.keyword w)) ↔
      (kindOf ts = some (.keyword k) ∧ kindOf ts.tail = some (.keyword w)) := by
  rw [h.kindOf_eq]
  refine and_congr_right fun hts => ?_
  cases h with
  | nil => rfl
  | cons h hp =>
    rw [Option.some.inj hts] at hp
    exact (hp w hw).symm

theorem block_atEnd (h : Agree ts us) (b : Block) :
    b.atEnd (.ofTokens us) = b.atEnd (.ofTokens ts) := by
  have hkind : (Cursor.ofTokens us).kind? = (Cursor.ofTokens ts).kind? := h.kindOf_eq
  have hpair : b.atPair (.ofTokens us) = b.atPair (.ofTokens ts) := by
    unfold Block.atPair
    split
    · next w hw =>
      rw [Bool.eq_iff_iff]
      simp only [Bool.and_eq_true, decide_eq_true_eq]
      rw [kindAt?_one, kindAt?_one]
      exact h.partner (Block.opener_mem_partners hw)
    · rfl
  simp only [Block.atEnd, Block.atCloser, Block.atNext, hkind, hpair]

theorem atElseIf (h : Agree ts us) :
    (Cursor.ofTokens us).atElseIf = (Cursor.ofTokens ts).atElseIf := by
  have hpair := h.partner (k := .elseKw) (w := .ifKw) (by decide)
  rw [Bool.eq_iff_iff]
  simp only [Cursor.atElseIf, Bool.or_eq_true, Bool.and_eq_true, decide_eq_true_eq]
  rw [kindAt?_one, kindAt?_one, kind?_ofTokens, kind?_ofTokens, hpair, h.kindOf_eq]

theorem next? (h : Agree ts us) :
    Directive.next? (.ofTokens us) = Directive.next? (.ofTokens ts) := by
  cases h with
  | nil => rfl
  | cons h _ =>
    simp only [Directive.next?, Cursor.head?, Cursor.ofTokens, List.head?_cons, Option.bind_some,
      Directive.ofToken?, h.kind, h.ofLine]

theorem atStatementEnd (h : Agree ts us) :
    (Cursor.ofTokens us).atStatementEnd = (Cursor.ofTokens ts).atStatementEnd := by
  simp only [Cursor.atStatementEnd, kind?_ofTokens, h.kindOf_eq]

theorem atBlockForm (h : Agree ts us) :
    (Cursor.ofTokens us).atBlockForm = (Cursor.ofTokens ts).atBlockForm := by
  simp only [Cursor.atBlockForm, kind?_ofTokens, h.kindOf_eq]

theorem atInlineEnd (h : Agree ts us) :
    (Cursor.ofTokens us).atInlineEnd = (Cursor.ofTokens ts).atInlineEnd := by
  simp only [Cursor.atInlineEnd, kind?_ofTokens, h.kindOf_eq]

theorem atEnd (h : Agree ts us) (stop : Stop) :
    stop.atEnd (.ofTokens us) = stop.atEnd (.ofTokens ts) := by
  have hkind : (Cursor.ofTokens us).kind? = (Cursor.ofTokens ts).kind? := h.kindOf_eq
  cases stop with
  | never => rfl
  | block b => exact h.block_atEnd b
  | branch =>
    simp only [Stop.atEnd, Cursor.atBranchEnd, h.atElseIf, h.block_atEnd, hkind]
  | directive => simp only [Stop.atEnd, Directive.atBranchEnd, h.next?]

end Agree

theorem Near.samePartner (h : Near ts us) (kind : TokenKind) : SamePartner kind ts us := by
  rcases h with h | ⟨rfl, h⟩
  · exact h.samePartner kind
  · intro w _
    rw [h]
    simp [kindOf]

/-- Tokens that are alike one by one, up to two rests. -/
inductive Alikes (rest vs : List Token) : List Token → List Token → Prop
  | rest : Alikes rest vs rest vs
  | cons {t u : Token} {ts us : List Token} : Alike t u → Alikes rest vs ts us →
    Alikes rest vs (t :: ts) (u :: us)

namespace Alikes

theorem suffix (h : Alikes rest vs ts us) : rest <:+ ts := by
  induction h with
  | rest => exact List.suffix_rfl
  | cons _ _ ih => exact ih.trans (List.suffix_cons ..)

theorem eq_rest (h : Alikes rest vs rest us) : us = vs := by
  generalize hr : rest = ts at h
  cases h with
  | rest => rfl
  | @cons t u ts us _ h =>
    have := h.suffix.length_le
    simp only [List.length_cons] at this
    omega

theorem uncons (h : Alikes rest vs (t :: ts) us) (hs : rest <:+ ts) :
    ∃ u us', us = u :: us' ∧ Alike t u ∧ Alikes rest vs ts us' := by
  cases h with
  | rest =>
    have := hs.length_le
    simp only [List.length_cons] at this
    omega
  | cons ha h => exact ⟨_, _, rfl, ha, h⟩

theorem near (h : Alikes rest vs ts us) (hr : Near rest vs) : Near ts us := by
  induction h with
  | rest => exact hr
  | cons ha _ ih => exact .inl (.cons ha (ih.samePartner _))

theorem agree (h : Alikes rest vs ts us) (hr : Agree rest vs) : Agree ts us := by
  cases h with
  | rest => exact hr
  | cons ha h => exact .cons ha ((h.near (.inl hr)).samePartner _)

theorem cut (h : Alikes rest vs ts us) (hm : mid <:+ ts) (hr : rest <:+ mid) :
    ∃ mid', Alikes mid mid' ts us ∧ Alikes rest vs mid mid' := by
  induction h with
  | rest =>
    obtain rfl := hm.eq_of_length (Nat.le_antisymm hm.length_le hr.length_le)
    exact ⟨vs, .rest, .rest⟩
  | cons ha h ih =>
    rcases List.suffix_cons_iff.1 hm with rfl | hm
    · exact ⟨_, .rest, .cons ha h⟩
    · obtain ⟨mid', h₁, h₂⟩ := ih hm
      exact ⟨mid', .cons ha h₁, h₂⟩

end Alikes

/-- A token up to the rest that is not looked at together with another. -/
def Anchored (ts rest : List Token) : Prop :=
  ∃ seg, ts = seg ++ rest ∧ ∃ t ∈ seg, partners t.kind = []

theorem Anchored.cons (h : Anchored ts rest) (t : Token) : Anchored (t :: ts) rest := by
  obtain ⟨seg, rfl, x, hx, hk⟩ := h
  exact ⟨t :: seg, rfl, x, List.mem_cons_of_mem _ hx, hk⟩

theorem anchored_of_kind (hs : rest <:+ ts) (h : partners t.kind = []) :
    Anchored (t :: ts) rest := by
  obtain ⟨seg, rfl⟩ := hs
  exact ⟨t :: seg, rfl, t, List.mem_cons_self .., h⟩

theorem Anchored.of_suffix (h : Anchored mid rest) (hs : mid <:+ ts) : Anchored ts rest := by
  obtain ⟨seg, rfl, x, hx, hk⟩ := h
  obtain ⟨seg', rfl⟩ := hs
  exact ⟨seg' ++ seg, by simp, x, List.mem_append_right _ hx, hk⟩

/-- In front of an anchor all that can be seen is alike. -/
theorem Alikes.agree_of_anchored (h : Alikes rest vs ts us) (ha : Anchored ts rest) :
    Agree ts us := by
  induction h with
  | rest =>
    obtain ⟨seg, hseg, t, ht, -⟩ := ha
    obtain rfl : seg = [] := by simpa using hseg
    cases ht
  | @cons t u ts us halike h ih =>
    refine .cons halike ?_
    obtain ⟨_ | ⟨t', seg⟩, hseg, x, hx, hk⟩ := ha
    · cases hx
    · obtain ⟨rfl, rfl⟩ := List.cons.inj hseg
      rcases List.mem_cons.1 hx with rfl | hx
      · simp [SamePartner, hk]
      · exact (ih ⟨seg, rfl, x, hx, hk⟩).samePartner _

/-- What has to look alike behind a phrase. -/
def Heeded : Nat → List Token → List Token → Prop
  | 0, _, _ => True
  | 1, rest, vs => Near rest vs
  | _, rest, vs => Agree rest vs

theorem Heeded.mono {m n : Nat} (h : Heeded n rest vs) (hmn : m ≤ n) : Heeded m rest vs := by
  match m, n with
  | 0, _ => trivial
  | 1, 0 => omega
  | 1, 1 => exact h
  | 1, n + 2 => exact .inl h
  | m + 2, 0 => omega
  | m + 2, 1 => omega
  | m + 2, n + 2 => exact h

theorem Alikes.heeded {n : Nat} (h : Alikes rest vs ts us) (hr : Heeded n rest vs) :
    Heeded n ts us := by
  match n with
  | 0 => trivial
  | 1 => exact h.near hr
  | n + 2 => exact h.agree hr

variable {α : Type} {N : Phrase α → List Token → List Token → Prop}

/-- How much a phrase looks at behind its tokens. -/
def Phrase.heed : Phrase α → Nat
  | .expression _ | .word _ | .procedure _ => 0
  | .close b => if b = .forLoop then 1 else 0
  | .accepted kind => if kind = .newline then 2 else 1
  | .value _ | .statement _ | .chained _ | .inline _ | .inlineMore _ | .inlineElse _
  | .separators _ | .printed _ => 1
  | _ => 2

theorem Phrase.heed_le (ph : Phrase α) : ph.heed ≤ 2 := by
  cases ph <;> simp only [heed] <;> (try split) <;> omega

/-- Whether the part has a token of its own that is not looked at together with another. -/
def Part.anchors : Part α → Bool
  | .token kind _ => (partners kind).isEmpty
  | .line _ => true
  | .phrase (.close _) => true
  | _ => false

/-- How much is alike in front of the parts. -/
def level (n : Nat) (ps : List (Part α)) : Nat :=
  if ps.any Part.anchors then 2 else n

/-- All that is asked of tokens and places by the parts stays true where everything is alike. -/
def Checked (n : Nat) : List (Part α) → Prop
  | [] => True
  | .token kind p :: ps => (kind = .directive → ∀ text, p text) ∧ Checked n ps
  | .word _ :: ps | .line _ :: ps => Checked n ps
  | .skip _ :: ps => level n ps = 2 ∧ Checked n ps
  | .ahead p :: ps => (∀ xs ys, Heeded (level n ps) xs ys → p xs → p ys) ∧ Checked n ps
  | .phrase ph :: ps => ph.heed ≤ level n ps ∧ Checked n ps

theorem Anchored.widen (h : Anchored ts mid) (hs : rest <:+ mid) : Anchored ts rest := by
  obtain ⟨seg, rfl, x, hx, hk⟩ := h
  obtain ⟨seg', rfl⟩ := hs
  exact ⟨seg ++ seg', by simp, x, List.mem_append_left _ hx, hk⟩

theorem Spells.close_anchored {b : Block} (h : Spells N (.close b) ts rest) :
    Anchored ts rest := by
  have hs := h.suffix
  obtain ⟨ps, form, fits⟩ := h.form
  cases form with
  | @closer _ k hb =>
    obtain ⟨t, us, rfl, hk, -, h⟩ := fits_token.1 fits
    obtain rfl := fits_nil.1 h
    refine anchored_of_kind List.suffix_rfl ?_
    rw [hk]
    rcases b with _ | _ | _ | (_ | _) | _ <;> cases hb <;> rfl
  | nextWord =>
    obtain ⟨t, us, rfl, hk, -, h⟩ := fits_token.1 fits
    exact anchored_of_kind (h.suffix fun _ _ _ h => h.suffix) (hk ▸ rfl)
  | @pair _ k hb =>
    obtain ⟨t, us, rfl, -, -, h⟩ := fits_token.1 fits
    obtain ⟨t', us, rfl, hk, -, h⟩ := fits_token.1 h
    obtain rfl := fits_nil.1 h
    refine (anchored_of_kind List.suffix_rfl ?_).cons t
    rw [hk]
    rcases b with _ | _ | _ | (_ | _) | _ <;> cases hb <;> rfl

theorem Fits.anchored {ps : List (Part α)} (h : Fits (Spells N) ps ts rest)
    (hps : ps.any Part.anchors = true) : Anchored ts rest := by
  induction h with
  | nil => cases hps
  | token hk _ h ih =>
    rcases Bool.or_eq_true_iff.1 hps with hp | hp
    · exact anchored_of_kind (h.suffix fun _ _ _ h => h.suffix)
        (hk ▸ List.isEmpty_iff.1 hp)
    · exact (ih hp).cons _
  | word _ _ _ ih => exact (ih (by simpa [Part.anchors] using hps)).cons _
  | line hk _ h _ => exact anchored_of_kind (h.suffix fun _ _ _ h => h.suffix) (hk ▸ rfl)
  | skip _ ih =>
    exact (ih (by simpa [Part.anchors] using hps)).of_suffix (List.dropWhile_suffix _)
  | ahead _ _ ih => exact ih (by simpa [Part.anchors] using hps)
  | @phrase ph ps ts mid rest hs h ih =>
    rcases Bool.or_eq_true_iff.1 hps with hp | hp
    · cases ph with
      | close b => exact hs.close_anchored.widen (h.suffix fun _ _ _ h => h.suffix)
      | _ => cases hp
    · exact (ih hp).of_suffix hs.suffix

theorem Fits.heeded {ps : List (Part α)} {n : Nat} (h : Fits (Spells N) ps ts rest)
    (ha : Alikes rest vs ts us) (hr : Heeded n rest vs) : Heeded (level n ps) ts us := by
  unfold level
  split
  · next hps => exact ha.agree_of_anchored (h.anchored hps)
  · exact ha.heeded hr

theorem Alikes.dropWhile {ks : List TokenKind} (h : Alikes rest vs ts us)
    (hs : rest <:+ ts.dropWhile (·.kind ∈ ks))
    (hr : Agree rest vs ∨ Anchored (ts.dropWhile (·.kind ∈ ks)) rest) :
    Alikes rest vs (ts.dropWhile (·.kind ∈ ks)) (us.dropWhile (·.kind ∈ ks)) := by
  induction h with
  | rest =>
    have hts : rest.dropWhile (·.kind ∈ ks) = rest :=
      (List.dropWhile_suffix _).eq_of_length_le hs.length_le
    rw [hts] at hr ⊢
    rcases hr with hr | ⟨seg, hseg, t, ht, -⟩
    · suffices vs.dropWhile (·.kind ∈ ks) = vs by
        rw [this]
        exact .rest
      cases hr with
      | nil => rfl
      | @cons t u ts us ha _ =>
        have hle := (List.dropWhile_suffix (l := ts) fun t => decide (t.kind ∈ ks)).length_le
        rw [List.dropWhile_cons] at hts ⊢
        rw [← ha.kind]
        split at hts
        · rw [hts, List.length_cons] at hle
          omega
        · next hk => rw [if_neg hk]
    · obtain rfl : seg = [] := by simpa using hseg
      cases ht
  | @cons t u ts us ha h ih =>
    rw [List.dropWhile_cons] at hs hr ⊢
    rw [List.dropWhile_cons, ← ha.kind]
    split
    · next hk =>
      rw [if_pos hk] at hs hr
      exact ih hs hr
    · exact .cons ha h

/-- Tokens that are alike spell the phrase, if what it looks at behind them is alike too. -/
def Transcribed (ph : Phrase Extent) (ts rest : List Token) : Prop :=
  ∀ us vs, Alikes rest vs ts us → Heeded ph.heed rest vs → Spells Plain ph us vs

variable {N : Phrase Extent → List Token → List Token → Prop}

theorem Fits.transcribed {ps : List (Part Extent)} {n : Nat}
    (h : Fits (fun ph us vs => Spells N ph us vs ∧ Transcribed ph us vs) ps ts rest)
    (hc : Checked n ps) (ha : Alikes rest vs ts us) (hr : Heeded n rest vs) :
    Fits (Spells Plain) ps us vs := by
  have himp : ∀ {ps ts}, Fits (fun ph us vs => Spells N ph us vs ∧ Transcribed ph us vs) ps ts rest →
      Fits (Spells N) ps ts rest := fun h => h.imp fun _ _ _ h => h.1
  have hsuffix : ∀ {ps ts}, Fits (fun ph us vs => Spells N ph us vs ∧ Transcribed ph us vs) ps ts
      rest → rest <:+ ts := fun h => h.suffix fun _ _ _ h => h.1.suffix
  induction h generalizing us with
  | nil => exact ha.eq_rest ▸ .nil
  | @token k p ps t ts rest hk hp h ih =>
    obtain ⟨u, us, rfl, halike, ha⟩ := ha.uncons (hsuffix h)
    refine .token (halike.kind.symm.trans hk) ?_ (ih hc.2 ha hr himp hsuffix)
    rcases halike.text with ht | ⟨hd, -⟩
    · rwa [← ht]
    · exact hc.1 (hk ▸ hd) _
  | word hw hn h ih =>
    obtain ⟨u, us, rfl, halike, ha⟩ := ha.uncons (hsuffix h)
    obtain ⟨hw', hn'⟩ := halike.word hw
    exact .word hw' (hn'.trans hn) (ih hc ha hr himp hsuffix)
  | line hk hp h ih =>
    obtain ⟨u, us, rfl, halike, ha⟩ := ha.uncons (hsuffix h)
    exact .line (halike.kind.symm.trans hk) (halike.ofLine ▸ hp) (ih hc ha hr himp hsuffix)
  | @skip ks ps ts rest h ih =>
    refine .skip (ih hc.2 (ha.dropWhile (hsuffix h) ?_) hr himp hsuffix)
    have hlevel := hc.1
    unfold level at hlevel
    split at hlevel
    · next hps => exact .inr ((himp h).anchored hps)
    · subst hlevel
      exact .inl hr
  | ahead hp h ih => exact .ahead (hc.1 _ _ ((himp h).heeded ha hr) hp) (ih hc.2 ha hr himp hsuffix)
  | phrase hs h ih =>
    obtain ⟨mid', h₁, h₂⟩ := ha.cut hs.1.suffix (hsuffix h)
    exact .phrase (hs.2 _ _ h₁ (((himp h).heeded h₂ hr).mono hc.1)) (ih hc.2 h₂ hr himp hsuffix)

section Checked

variable {n : Nat} {ps : List (Part α)} {p : List Token → Prop} {P : Option TokenKind → Prop}

@[simp] theorem level_two (ps : List (Part α)) : level 2 ps = 2 := by
  unfold level
  split <;> rfl

theorem Checked.ahead (hp : ∀ xs ys, Agree xs ys → p xs → p ys) (hn : level n ps = 2)
    (h : Checked n ps) : Checked n (.ahead p :: ps) :=
  ⟨fun xs ys hxy => hp xs ys (by rwa [hn] at hxy), h⟩

theorem Checked.aheadNear (hp : ∀ xs ys, Agree xs ys → p xs → p ys)
    (hend : p [] → ∀ ys, kindOf ys = some .newline → p ys) (h : Checked 1 ps) :
    Checked 1 (.ahead p :: ps) := by
  refine ⟨fun xs ys hxy hxs => ?_, h⟩
  have hnear : Heeded 1 xs ys := hxy.mono (by unfold level; split <;> omega)
  rcases hnear with hxy | ⟨rfl, hys⟩
  · exact hp xs ys hxy hxs
  · exact hend hxs ys hys

theorem Checked.next (hn : level n ps = 2) (h : Checked n ps) : Checked n (.next P :: ps) :=
  .ahead (fun xs ys hxy hp => by rwa [hxy.kindOf_eq]) hn h

theorem Checked.nextNear (hend : P none → P (some .newline)) (h : Checked 1 ps) :
    Checked 1 (.next P :: ps) :=
  .aheadNear (fun xs ys hxy hp => by rwa [hxy.kindOf_eq])
    (fun hp ys hys => by rw [hys]; exact hend hp) h

theorem Checked.phrase {ph : Phrase α} (hn : ph.heed ≤ n) (h : Checked n ps) :
    Checked n (.phrase ph :: ps) := by
  refine ⟨?_, h⟩
  unfold level
  split
  · exact ph.heed_le
  · exact hn

theorem Checked.skip {ks : List TokenKind} (h : Checked 2 ps) : Checked 2 (.skip ks :: ps) :=
  ⟨level_two ps, h⟩

theorem Checked.statementEnd (h : Checked 1 ps) :
    Checked 1 (.ahead (fun ts => (Cursor.ofTokens ts).atStatementEnd = true) :: ps) :=
  .aheadNear (fun xs ys hxy hp => by rwa [hxy.atStatementEnd])
    (fun _ ys hys => by simp [Cursor.atStatementEnd, kind?_ofTokens, hys]) h

theorem Checked.statementGoesOn (h : Checked 1 ps) :
    Checked 1 (.ahead (fun ts => (Cursor.ofTokens ts).atStatementEnd = false) :: ps) :=
  .aheadNear (fun xs ys hxy hp => by rwa [hxy.atStatementEnd]) (fun hp => by cases hp) h

end Checked

theorem Form.checked {ph : Phrase Extent} {ps : List (Part Extent)} (h : Form ph ps) :
    Checked ph.heed ps := by
  -- What a part sees of the tokens behind the form counts only if no token of the form stands in
  -- between. Then the part may look no further than the phrase heeds.
  cases h
  case value =>
    exact .phrase (Nat.zero_le _) (.nextNear
      (P := fun k => k ∉ attachments ∧ k.bind BinaryOp.ofKind? = none) (by decide) trivial)
  case wordKey => exact .next rfl ⟨by simp, .phrase (Nat.le_succ 1) trivial⟩
  case listNil => exact .next rfl trivial
  case listCons item items =>
    exact .next (level_two _) (.phrase item.heed_le (.phrase (Nat.le_refl 2) trivial))
  case moreNil => exact .next rfl trivial
  case moreCons item items =>
    exact ⟨by simp, .phrase item.heed_le (.phrase (Nat.le_refl 2) trivial)⟩
  case itemsNil => exact .skip (.next rfl trivial)
  case itemsLast item => exact .skip (.next (level_two _) (.phrase item.heed_le (.next rfl trivial)))
  case itemsComma item items =>
    exact .skip (.next (level_two _) (.phrase item.heed_le
      ⟨by simp, .phrase (Nat.le_refl 2) trivial⟩))
  case itemsNewline item items =>
    exact .skip (.next (level_two _) (.phrase item.heed_le (.next (level_two _)
      (.phrase (Nat.le_refl 2) trivial))))
  case maybeNone => exact .next rfl trivial
  case maybeSome item => exact ⟨by simp, .phrase item.heed_le trivial⟩
  case omitted k =>
    by_cases hk : k = .newline
    · simp only [Phrase.heed, if_pos hk]
      exact .next rfl trivial
    · simp only [Phrase.heed, if_neg hk]
      exact .nextNear (by simpa using Ne.symm hk) trivial
  case blockNil stop =>
    exact .skip (.ahead (fun xs ys h hp => by rwa [h.nil_iff, h.atEnd]) rfl trivial)
  case blockCons stop s body =>
    exact .skip (.ahead (fun xs ys h hp => by rwa [ne_eq, h.nil_iff, h.atEnd]) (level_two _)
      (.phrase (Nat.le_succ 1) (.ahead (fun xs ys h hp => by rwa [h.atStatementEnd]) (level_two _)
        (.phrase (Nat.le_refl 2) trivial))))
  case blockBranch =>
    exact ⟨by simp, Nat.le_succ 1, Nat.le_succ 1, .ahead (fun xs ys h hp => by
      rwa [h.atBlockForm]) rfl ⟨Nat.le_refl 2, Nat.le_refl 2, Nat.le_refl 2, Nat.zero_le _, trivial⟩⟩
  case inlineBranch =>
    exact ⟨by simp, Nat.le_succ 1, by simp, .aheadNear (fun xs ys h hp => by rwa [h.atBlockForm])
      (fun hp => by cases hp) (.phrase (Nat.le_refl 1) (.phrase (Nat.le_refl 1) trivial))⟩
  case elseIfsNil => exact .ahead (fun xs ys h hp => by rwa [h.atElseIf]) rfl trivial
  case inlineNil => exact .nextNear (by simp) trivial
  case inlineEnd =>
    exact ⟨by simp, .aheadNear (fun xs ys h hp => by rwa [h.atInlineEnd])
      (fun _ ys hys => by simp [Cursor.atInlineEnd, kind?_ofTokens, hys]) trivial⟩
  case inlineCons =>
    exact ⟨by simp, .aheadNear (fun xs ys h hp => by rwa [h.atInlineEnd]) (fun hp => by cases hp)
      (.phrase (Nat.le_refl 1) (.phrase (Nat.le_refl 1) trivial))⟩
  case noElse => exact .nextNear (by simp) trivial
  case inlineElseIf => exact .nextNear (by simp) (.phrase (Nat.le_refl 1) trivial)
  case callStatement =>
    exact .nextNear (by simp) (.phrase (Nat.zero_le _) (.nextNear (P := (· ∉ attachments))
      (by decide) (.nextNear (by simp [AssignOp.ofKind?]) trivial)))
  case assignMember | assignIndex =>
    exact .nextNear (by simp) (.phrase (Nat.zero_le _) ⟨by simp, .phrase (Nat.le_refl 1) trivial⟩)
  case increment | decrement => exact .next rfl ⟨Nat.zero_le _, by simp, trivial⟩
  case noSeparator => exact .nextNear (by simp [PrintSeparator.ofKind?]) trivial
  case printedNil => exact .statementEnd trivial
  case printedCons =>
    exact .statementGoesOn (.phrase (Nat.le_refl 1) (.phrase (Nat.le_refl 1)
      (.phrase (Nat.le_refl 1) trivial)))
  case giveNothing => exact ⟨by simp, .statementEnd trivial⟩
  case giveBack => exact ⟨by simp, .statementGoesOn (.phrase (Nat.le_refl 1) trivial)⟩
  case label => exact ⟨by simp, by simp, .nextNear (by simp) trivial⟩
  case endProgram => exact ⟨by simp, .nextNear (by simp) trivial⟩
  case compileElseIfsNil | compileElseNone =>
    exact .ahead (fun xs ys h hp => by rwa [h.next?]) rfl trivial
  all_goals simp [Checked, level, Part.anchors, partners, Phrase.heed]

/-- Tokens that are written alike spell the same. -/
theorem Spells.transcribed {ph : Phrase Extent} (h : Spells N ph ts rest) :
    Transcribed ph ts rest :=
  Spells.induct (Q := Transcribed)
    (fun _ _ _ _ form _ fits _ _ ha hr => form.spells (fits.transcribed form.checked ha hr)) h

theorem alikes_append (hs : rest <:+ ts) (xs : List Token) :
    Alikes rest (rest ++ xs) ts (ts ++ xs) := by
  obtain ⟨seg, rfl⟩ := hs
  induction seg with
  | nil => exact .rest
  | cons t seg ih => exact .cons (.refl t) ih

theorem near_append {xs : List Token} (h : kindOf xs = some .newline) : Near ts (ts ++ xs) := by
  induction ts with
  | nil => exact .inr ⟨rfl, h⟩
  | cons t ts ih => exact .inl (.cons (.refl t) (ih.samePartner _))

theorem Spells.append_newline {program : List (Statement Extent)} {nl : Token}
    (h : Spells Plain (.block .never program) ts []) (hnl : nl.kind = .newline) :
    Spells Plain (.block .never program) (ts ++ [nl]) [] := by
  have hnear : ∀ xs, Near xs (xs ++ [nl]) := fun xs => near_append (kindOf_cons hnl)
  have hdrop : ∀ xs : List Token,
      (xs ++ [nl]).dropWhile (·.kind ∈ [TokenKind.newline, .symbol .colon])
      = if xs.dropWhile (·.kind ∈ [TokenKind.newline, .symbol .colon]) = [] then []
        else xs.dropWhile (·.kind ∈ [TokenKind.newline, .symbol .colon]) ++ [nl] := by
    intro xs
    rw [List.dropWhile_append]
    simp [hnl]
  induction program generalizing ts with
  | nil =>
    obtain ⟨_, form, fits⟩ := h.form
    cases form
    simp only [fits_skip, fits_ahead, fits_nil] at fits
    refine Form.blockNil.spells (.skip ?_)
    rw [hdrop, if_pos fits.2]
    exact .ahead (.inl rfl) .nil
  | cons s program ih =>
    obtain ⟨_, form, fits⟩ := h.form
    cases form
    simp only [fits_skip, fits_ahead, fits_phrase, fits_nil] at fits
    obtain ⟨⟨hne, -⟩, mid, hs, hend, _, hblock, rfl⟩ := fits
    refine Form.blockCons.spells (.skip ?_)
    rw [hdrop, if_neg hne]
    have hstatement := hs.transcribed _ _ (alikes_append hs.suffix _) (hnear mid)
    refine .ahead ⟨by simp, rfl⟩ (.phrase hstatement (.ahead ?_ (.phrase (ih hblock) .nil)))
    rcases hnear mid with hmid | ⟨-, hmid⟩
    · rwa [hmid.atStatementEnd]
    · simp [Cursor.atStatementEnd, kind?_ofTokens, hmid]

end BrightCoverage
