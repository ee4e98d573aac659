import BrightCoverage.Proofs.Passes
import BrightCoverage.Proofs.Resemblance
import BrightCoverage.Proofs.RoundTrip

/-! Lexemes woven into tokens. A stitch is a token with the lexemes that are put in front of it and
behind it, and with the statement that starts at it and claims its line. `Weaves` says that there are
stitches for the tokens up to a rest, and what holds of all that they can be woven into; it goes
along the parts of a form from the last to the first. -/

namespace BrightCoverage

variable {t u : Token} {ts us rest vs mid : List Token}

/-- What there is at an offset: a statement that starts there, lexemes that are put in front of the
token that starts there, or behind the token that ends there. -/
inductive Seam where
  | start (offset : Nat) (s : Statement Extent)
  | before (offset : Nat) (lexemes : List Lexeme)
  | after (offset : Nat) (lexemes : List Lexeme)

/-- A token with the statement that starts at it, if that claims a line, and with the lexemes that
are put around it. -/
structure Stitch where
  token : Token
  statement : Option (Statement Extent)
  before : List Lexeme
  after : List Lexeme

def Seam.lead (offset : Nat) (lexemes : List Lexeme) : List Seam :=
  if lexemes.isEmpty then [] else [.before offset lexemes]

def Seam.trail (offset : Nat) (lexemes : List Lexeme) : List Seam :=
  if lexemes.isEmpty then [] else [.after offset lexemes]

namespace Stitch

def plain (t : Token) : Stitch :=
  ⟨t, none, [], []⟩

def seams (s : Stitch) : List Seam :=
  s.statement.toList.map (.start s.token.span.start) ++ Seam.lead s.token.span.start s.before
    ++ Seam.trail s.token.span.stop s.after

end Stitch

def seams (ws : List Stitch) : List Seam :=
  ws.flatMap Stitch.seams

/-- The tokens up to a rest are those of the stitches, with the lexemes around them. -/
inductive Woven : List Stitch → List Token → List Token → Prop
  | nil {vs : List Token} : Woven [] vs vs
  | cons {s : Stitch} {ws : List Stitch} {u : Token} {us us₁ us₂ vs : List Token} :
    Printed s.before us (u :: us₁) → Alike s.token u → Printed s.after us₁ us₂ → Woven ws us₂ vs →
    Woven (s :: ws) us vs

section Stitches

variable {ws ws' : List Stitch}

@[simp] theorem seams_append : seams (ws ++ ws') = seams ws ++ seams ws' :=
  List.flatMap_append

theorem seams_plain (seg : List Token) : seams (seg.map .plain) = [] := by
  simp [seams, Stitch.plain, Stitch.seams, Seam.lead, Seam.trail]

theorem map_token_plain (seg : List Token) : (seg.map Stitch.plain).map Stitch.token = seg := by
  rw [List.map_map]
  exact List.map_id seg

@[simp] theorem woven_nil : Woven [] us vs ↔ us = vs := by
  constructor
  · rintro ⟨⟩
    rfl
  · rintro rfl
    exact .nil

@[simp] theorem woven_cons {s : Stitch} : Woven (s :: ws) us vs ↔ ∃ u us₁ us₂,
    Printed s.before us (u :: us₁) ∧ Alike s.token u ∧ Printed s.after us₁ us₂ ∧
      Woven ws us₂ vs := by
  constructor
  · rintro (_ | ⟨hb, ha, hc, h⟩)
    exact ⟨_, _, _, hb, ha, hc, h⟩
  · rintro ⟨u, us₁, us₂, hb, ha, hc, h⟩
    exact .cons hb ha hc h

theorem woven_append :
    Woven (ws ++ ws') us vs ↔ ∃ mid, Woven ws us mid ∧ Woven ws' mid vs := by
  induction ws generalizing us with
  | nil => simp
  | cons s ws ih =>
    simp only [List.cons_append, woven_cons, ih]
    constructor
    · rintro ⟨u, us₁, us₂, hb, ha, hc, mid, h, h'⟩
      exact ⟨mid, ⟨u, us₁, us₂, hb, ha, hc, h⟩, h'⟩
    · rintro ⟨mid, ⟨u, us₁, us₂, hb, ha, hc, h⟩, h'⟩
      exact ⟨u, us₁, us₂, hb, ha, hc, mid, h, h'⟩

theorem Woven.alikes {seg : List Token} (h : Woven (seg.map .plain) us vs) (rest : List Token) :
    Alikes rest vs (seg ++ rest) us := by
  induction seg generalizing us with
  | nil =>
    obtain rfl := woven_nil.1 h
    exact .rest
  | cons t seg ih =>
    obtain ⟨u, us₁, us₂, hb, ha, hc, h⟩ := woven_cons.1 h
    obtain rfl := printed_nil.1 hb
    obtain rfl := printed_nil.1 hc
    exact .cons ha (ih h)

/-- Tokens with lexemes in front of the first and behind the last. -/
def frame (before after : List Lexeme) : List Token → List Stitch
  | [] => []
  | [t] => [⟨t, none, before, after⟩]
  | t :: t' :: ts => ⟨t, none, before, []⟩ :: frame [] after (t' :: ts)

theorem map_token_frame (before after : List Lexeme) (seg : List Token) :
    (frame before after seg).map Stitch.token = seg := by
  fun_induction frame before after seg with
  | case1 => rfl
  | case2 => rfl
  | case3 before t t' ts ih => rw [List.map_cons, ih]

theorem seams_frame {before after : List Lexeme} {first last : Token} {seg : List Token}
    (hf : seg.head? = some first) (hl : seg.getLast? = some last) :
    seams (frame before after seg) =
      Seam.lead first.span.start before ++ Seam.trail last.span.stop after := by
  fun_induction frame before after seg generalizing first with
  | case1 => cases hf
  | case2 before t =>
    cases hf
    cases hl
    simp [seams, Stitch.seams]
  | case3 before t t' ts ih =>
    cases hf
    rw [List.getLast?_cons_cons] at hl
    rw [seams, List.flatMap_cons, ← seams, ih rfl hl]
    simp [Stitch.seams, Seam.lead, Seam.trail]

theorem Woven.framed {before after : List Lexeme} {seg : List Token} (hseg : seg ≠ [])
    (h : Woven (frame before after seg) us vs) (rest : List Token) :
    ∃ xs ys, Printed before us xs ∧ Alikes rest ys (seg ++ rest) xs ∧ Printed after ys vs := by
  fun_induction frame before after seg generalizing us with
  | case1 => exact absurd rfl hseg
  | case2 before t =>
    obtain ⟨u, us₁, us₂, hb, ha, hc, h⟩ := woven_cons.1 h
    obtain rfl := woven_nil.1 h
    exact ⟨_, _, hb, .cons ha .rest, hc⟩
  | case3 before t t' ts ih =>
    obtain ⟨u, us₁, us₂, hb, ha, hc, h⟩ := woven_cons.1 h
    obtain rfl := printed_nil.1 hc
    obtain ⟨xs, ys, hx, halikes, hy⟩ := ih (List.cons_ne_nil _ _) h
    obtain rfl := printed_nil.1 hx
    exact ⟨_, ys, hb, .cons ha halikes, hy⟩

end Stitches

/-! ### Places that look alike -/

/-- The kinds of tokens with which a statement starts that can get a call in front of it. -/
def leaders : List TokenKind :=
  [.keyword .forKw, .keyword .whileKw, .keyword .printKw, .symbol .question, .keyword .returnKw,
    .identifier]

/-- A statement that can get a call in front of it starts here, and there a call does. -/
def Led (ts us : List Token) : Prop :=
  (∃ k ∈ leaders, kindOf ts = some k) ∧ kindOf us = some .identifier

/-- Two places that look alike, or at one of them a call has been put in. -/
def Look (ts us : List Token) : Prop :=
  Agree ts us ∨ Led ts us

def Anyhow (_ _ : List Token) : Prop :=
  True

namespace Look

theorem inert (h : Look ts us) (hi : Inert ts) : Inert us := by
  rcases h with h | ⟨-, h⟩
  · unfold Inert Unattached at *
    rwa [h.kindOf_eq]
  · unfold Inert Unattached
    rw [h]
    decide

theorem kind_ne {w : Keyword} (h : Look ts us) (hw : kindOf ts ≠ some (.keyword w)) :
    kindOf us ≠ some (.keyword w) := by
  rcases h with h | ⟨-, h⟩
  · rwa [h.kindOf_eq]
  · simp [h]

theorem samePartner (h : Look ts us) {kind : TokenKind} (hk : kind ≠ .keyword .endKw) :
    SamePartner kind ts us := by
  rcases h with h | ⟨⟨k, hk', hts⟩, hus⟩
  · exact h.samePartner kind
  · intro w hw
    have hw : w = .ifKw := by
      unfold partners at hw
      split at hw
      · exact absurd rfl hk
      · exact List.mem_singleton.1 hw
      · cases hw
    rw [hts, hus, hw]
    have hne : k ≠ .keyword .ifKw := by
      rintro rfl
      simp [leaders] at hk'
    simp [hne]

theorem agree (h : Look ts us) (hk : ∀ k ∈ leaders, kindOf ts ≠ some k) : Agree ts us := by
  rcases h with h | ⟨⟨k, hmem, h⟩, -⟩
  · exact h
  · exact absurd h (hk k hmem)

theorem agree_of_atStatementEnd (h : Look ts us)
    (hend : (Cursor.ofTokens ts).atStatementEnd = true) : Agree ts us := by
  refine h.agree fun k hk hts => ?_
  rw [Cursor.atStatementEnd, kind?_ofTokens, hts] at hend
  clear hts
  revert hend
  revert k
  decide

theorem atBlockForm (h : Look ts us) :
    (Cursor.ofTokens us).atBlockForm = (Cursor.ofTokens ts).atBlockForm := by
  rcases h with h | ⟨⟨k, hk, hts⟩, hus⟩
  · exact h.atBlockForm
  · simp only [Cursor.atBlockForm, kind?_ofTokens, hts, hus]
    clear hts
    revert k
    decide

end Look

theorem Alikes.agree_of_look (h : Alikes rest vs ts us) (hr : Look rest vs) (hne : ts ≠ rest)
    (hend : kindOf ts ≠ some (.keyword .endKw)) : Agree ts us := by
  cases h with
  | rest => exact absurd rfl hne
  | @cons t u ts us ha h =>
    refine .cons ha ?_
    cases h with
    | rest => exact hr.samePartner fun hk => hend (congrArg some hk)
    | cons ha' _ =>
      intro w _
      simp [kindOf, ha'.kind]

/-! ### Weaving -/

/-- There are stitches for the tokens up to a rest with just these seams, and whatever they are
woven into has the property, if what comes behind is as the relation says. -/
def Weaves (A : List Token → List Token → Prop) (is : List Seam) (ts rest : List Token)
    (P : List Token → List Token → Prop) : Prop :=
  ∃ ws : List Stitch, ts = ws.map Stitch.token ++ rest ∧ seams ws = is ∧
    ∀ us vs, Woven ws us vs → A rest vs → P us vs

/-- The same, where there is nothing at the start of the first token. -/
def Started (A : List Token → List Token → Prop) (is : List Seam) (ts rest : List Token)
    (P : List Token → List Token → Prop) : Prop :=
  ∃ (t : Token) (after : List Lexeme) (ws : List Stitch),
    ts = t :: ws.map Stitch.token ++ rest ∧ seams (⟨t, none, [], after⟩ :: ws) = is ∧
      ∀ us vs, Woven (⟨t, none, [], after⟩ :: ws) us vs → A rest vs → P us vs

section Weaves

variable {A B : List Token → List Token → Prop} {is js : List Seam}
  {P Q : List Token → List Token → Prop}

theorem Started.weaves (h : Started A is ts rest P) : Weaves A is ts rest P := by
  obtain ⟨t, after, ws, hts, his, h⟩ := h
  exact ⟨⟨t, none, [], after⟩ :: ws, hts, his, h⟩

theorem Weaves.imp (h : Weaves A is ts rest P) (hPQ : ∀ us vs, A rest vs → P us vs → Q us vs) :
    Weaves A is ts rest Q := by
  obtain ⟨ws, hts, his, h⟩ := h
  exact ⟨ws, hts, his, fun us vs hw ha => hPQ us vs ha (h us vs hw ha)⟩

theorem Started.imp (h : Started A is ts rest P) (hPQ : ∀ us vs, A rest vs → P us vs → Q us vs) :
    Started A is ts rest Q := by
  obtain ⟨t, after, ws, hts, his, h⟩ := h
  exact ⟨t, after, ws, hts, his, fun us vs hw ha => hPQ us vs ha (h us vs hw ha)⟩

theorem Weaves.congr (h : Weaves A is ts rest P) (his : is = js) : Weaves A js ts rest P :=
  his ▸ h

theorem Started.congr (h : Started A is ts rest P) (his : is = js) : Started A js ts rest P :=
  his ▸ h

theorem Weaves.nil (h : ∀ us, A rest us → P us us) : Weaves A [] rest rest P :=
  ⟨[], rfl, rfl, fun us vs hw ha => by
    obtain rfl := woven_nil.1 hw
    exact h us ha⟩

theorem Weaves.append (h : Weaves A js ts mid P) (h' : Weaves B is mid rest Q)
    (hA : ∀ us vs, Q us vs → A mid us) :
    Weaves B (js ++ is) ts rest fun us vs => ∃ mid', P us mid' ∧ Q mid' vs := by
  obtain ⟨ws, hts, rfl, h⟩ := h
  obtain ⟨ws', hmid, rfl, h'⟩ := h'
  refine ⟨ws ++ ws', by rw [hts, hmid]; simp, seams_append, fun us vs hw hb => ?_⟩
  obtain ⟨mid', hw, hw'⟩ := woven_append.1 hw
  have hq := h' _ _ hw' hb
  exact ⟨mid', h _ _ hw (hA _ _ hq), hq⟩

theorem Started.lead (h : Started A is ts rest P) (s : Statement Extent) (lead : List Lexeme)
    (ht : ts.head? = some t) :
    Weaves A (.start t.span.start s :: (Seam.lead t.span.start lead ++ is)) ts rest fun us vs =>
      ∃ us₁, Printed lead us us₁ ∧ P us₁ vs := by
  obtain ⟨t', after, ws, rfl, rfl, h⟩ := h
  obtain rfl := Option.some.inj ht
  refine ⟨⟨t', some s, lead, after⟩ :: ws, rfl, ?_, fun us vs hw ha => ?_⟩
  · simp [seams, Stitch.seams, Seam.lead]
  · obtain ⟨u, us₁, us₂, hb, halike, hc, hw⟩ := woven_cons.1 hw
    exact ⟨u :: us₁, hb, h _ _ (.cons .nil halike hc hw) ha⟩

theorem Weaves.cons (h : Weaves A is ts rest P) (t : Token) :
    Started A is (t :: ts) rest fun us vs => ∃ u us', us = u :: us' ∧ Alike t u ∧ P us' vs := by
  obtain ⟨ws, rfl, rfl, h⟩ := h
  refine ⟨t, [], ws, rfl, by simp [seams, Stitch.seams, Seam.lead, Seam.trail],
    fun us vs hw ha => ?_⟩
  obtain ⟨u, us₁, us₂, hb, halike, hc, hw⟩ := woven_cons.1 hw
  obtain rfl := printed_nil.1 hb
  obtain rfl := printed_nil.1 hc
  exact ⟨u, us₁, rfl, halike, h _ _ hw ha⟩

end Weaves

/-! ### Phrases that are left alone -/

section Plain

variable {N : Phrase Extent → List Token → List Token → Prop} {ph : Phrase Extent}
  {A : List Token → List Token → Prop} {P : List Token → List Token → Prop}

theorem Spells.weaves (h : Spells N ph ts rest)
    (hP : ∀ us vs, Alikes rest vs ts us → A rest vs → P us vs) : Weaves A [] ts rest P := by
  obtain ⟨seg, rfl⟩ := h.suffix
  exact ⟨seg.map .plain, by rw [map_token_plain], seams_plain seg,
    fun us vs hw ha => hP us vs (hw.alikes rest) ha⟩

theorem Spells.started (h : Spells N ph ts rest) (hne : ts ≠ rest)
    (hP : ∀ us vs, Alikes rest vs ts us → A rest vs → P us vs) : Started A [] ts rest P := by
  obtain ⟨_ | ⟨t, seg⟩, rfl⟩ := h.suffix
  · exact absurd rfl hne
  · refine ⟨t, [], seg.map .plain, by rw [map_token_plain], seams_plain (t :: seg),
      fun us vs hw ha => hP us vs ?_ ha⟩
    have hplain : Woven ((t :: seg).map .plain) us vs := hw
    exact hplain.alikes rest

theorem Spells.weaves_agree (h : Spells N ph ts rest) :
    Weaves Agree [] ts rest fun us vs => Agree ts us ∧ Spells Plain ph us vs :=
  h.weaves fun us vs ha hr => ⟨ha.agree hr, h.transcribed us vs ha (Heeded.mono (n := 2) hr ph.heed_le)⟩

def inexpressive : List TokenKind :=
  [.keyword .endKw, .newline]

theorem Form.expression_head {e : Expr Extent} {ps : List (Part Extent)}
    (h : Form (.expression e) ps) :
    (∃ k p ps', ps = .token k p :: ps' ∧ k ∉ inexpressive) ∨
      ∃ e' ps', ps = .phrase (.expression e') :: ps' := by
  cases h
  case unary k hk _ =>
    refine .inl ⟨_, _, _, rfl, fun hmem => ?_⟩
    have hall : ∀ k ∈ inexpressive, UnaryOp.ofKind? k = none := by decide
    rw [hall k hmem] at hk
    cases hk
  case anonymous decl =>
    refine .inl ⟨_, _, _, rfl, ?_⟩
    cases decl.keyword <;> decide
  all_goals simp [inexpressive]

theorem Spells.expression_head {e : Expr Extent} (h : Spells N (.expression e) ts rest) :
    ts ≠ rest ∧ ∀ k ∈ inexpressive, kindOf ts ≠ some k := by
  refine Spells.induct (Q := fun ph ts rest => match ph with
    | .expression _ => ts ≠ rest ∧ ∀ k ∈ inexpressive, kindOf ts ≠ some k
    | _ => True) (fun ph ps ts rest form _ fits => ?_) h
  cases ph with
  | expression e =>
    rcases form.expression_head with ⟨k, p, ps', rfl, hk⟩ | ⟨e', ps', rfl⟩
    · obtain ⟨t, us, rfl, rfl, -, fits⟩ := fits_token.1 fits
      have hs := (fits.imp fun _ _ _ h => h.1).suffix fun _ _ _ h => Spells.suffix h
      refine ⟨?_, fun k hmem heq => hk (Option.some.inj heq ▸ hmem)⟩
      rintro rfl
      have := hs.length_le
      simp only [List.length_cons] at this
      omega
    · obtain ⟨mid, ⟨hspells, hne, hk⟩, fits⟩ := fits_phrase.1 fits
      have hs := (fits.imp fun _ _ _ h => h.1).suffix fun _ _ _ h => Spells.suffix h
      refine ⟨?_, hk⟩
      rintro rfl
      exact hne (hspells.suffix.eq_of_length
        (Nat.le_antisymm hspells.suffix.length_le hs.length_le)).symm
  | _ => trivial

/-- A whole expression does not look at which statement comes behind it. -/
theorem Spells.value_of_look {e : Expr Extent} (h : Spells N (.value e) ts rest)
    (ha : Alikes rest vs ts us) (hr : Look rest vs) :
    Agree ts us ∧ Spells Plain (.value e) us vs := by
  obtain ⟨_, form, fits⟩ := h.form
  cases form
  simp only [fits_phrase, fits_ahead, fits_nil] at fits
  obtain ⟨_, he, hinert, rfl⟩ := fits
  obtain ⟨hne, hhead⟩ := he.expression_head
  exact ⟨ha.agree_of_look hr hne (hhead _ (by decide)),
    Form.value.spells (.phrase (he.transcribed us vs ha trivial) (.ahead (hr.inert hinert) .nil))⟩

theorem Spells.weaves_value {e : Expr Extent} (h : Spells N (.value e) ts rest) :
    Weaves Look [] ts rest fun us vs => Agree ts us ∧ Spells Plain (.value e) us vs :=
  h.weaves fun _ _ => h.value_of_look

theorem Spells.weaves_accepted {w : Keyword} (h : Spells N (.accepted (.keyword w)) ts rest)
    (hw : w ≠ .endKw) :
    Weaves Look [] ts rest fun us vs => Look ts us ∧ Spells Plain (.accepted (.keyword w)) us vs := by
  refine h.weaves fun us vs ha hr => ?_
  obtain ⟨_, form, fits⟩ := h.form
  cases form with
  | accepted =>
    simp only [fits_token, fits_nil] at fits
    obtain ⟨t, _, rfl, ht, -, rfl⟩ := fits
    obtain ⟨u, us', rfl, halike, ha'⟩ := ha.uncons List.suffix_rfl
    obtain rfl := ha'.eq_rest
    refine ⟨.inl (.cons halike (hr.samePartner ?_)), ?_⟩
    · rw [ht]
      simpa using hw
    · exact Form.accepted.spells (.token (halike.kind ▸ ht) trivial .nil)
  | omitted =>
    simp only [fits_ahead, fits_nil] at fits
    obtain ⟨hk, rfl⟩ := fits
    obtain rfl := ha.eq_rest
    exact ⟨hr, Form.omitted.spells (.ahead (hr.kind_ne hk) .nil)⟩

theorem Spells.weaves_maybe {w : Keyword} {p : Option (Phrase Extent)}
    (h : Spells N (.maybe (.keyword w) p) ts rest) (hw : w ≠ .endKw)
    (hp : ∀ ph, p = some ph → ∀ xs, Spells N ph xs rest → ∀ us vs, Alikes rest vs xs us →
      Look rest vs → Spells Plain ph us vs) :
    Weaves Look [] ts rest fun us vs =>
      Look ts us ∧ Spells Plain (.maybe (.keyword w) p) us vs := by
  refine h.weaves fun us vs ha hr => ?_
  obtain ⟨_, form, fits⟩ := h.form
  cases form with
  | maybeNone =>
    simp only [fits_ahead, fits_nil] at fits
    obtain ⟨hk, rfl⟩ := fits
    obtain rfl := ha.eq_rest
    exact ⟨hr, Form.maybeNone.spells (.ahead (hr.kind_ne hk) .nil)⟩
  | @maybeSome _ ph =>
    simp only [fits_token, fits_phrase, fits_nil] at fits
    obtain ⟨t, xs, rfl, ht, -, mid, hph, hmid⟩ := fits
    rw [hmid] at hph
    obtain ⟨u, us', rfl, halike, ha'⟩ := ha.uncons hph.suffix
    have hend : kindOf (t :: xs) ≠ some (.keyword .endKw) := by
      simpa [kindOf, ht] using hw
    have hne : t :: xs ≠ rest := by
      rintro rfl
      have := hph.suffix.length_le
      simp only [List.length_cons] at this
      omega
    refine ⟨.inl (ha.agree_of_look hr hne hend), ?_⟩
    exact Form.maybeSome.spells (.token (halike.kind ▸ ht) trivial
      (.phrase (hp ph rfl xs hph us' vs ha' hr) .nil))

end Plain

/-! ### Parts of a form -/

/-- What is left of a form can be woven, and so that the relation holds in front of it. -/
def Threads (R : List Token → List Token → Prop) (ps : List (Part Extent)) (is : List Seam)
    (ts rest : List Token) : Prop :=
  Weaves Agree is ts rest fun us vs => R ts us ∧ Fits (Spells Plain) ps us vs

section Threads

variable {A R S : List Token → List Token → Prop} {ps : List (Part Extent)} {is js : List Seam}
  {ph : Phrase Extent}

theorem Threads.nil : Threads Agree [] [] rest rest :=
  Weaves.nil fun _ ha => ⟨ha, .nil⟩

theorem Threads.started_token {k : TokenKind} {p : String → Prop} (h : Threads R ps is ts rest)
    (hk : t.kind = k) (hp : p t.text) (hd : k = .directive → ∀ text, p text)
    (hR : ∀ us, R ts us → SamePartner k ts us) :
    Started Agree is (t :: ts) rest fun us vs =>
      Agree (t :: ts) us ∧ Fits (Spells Plain) (.token k p :: ps) us vs := by
  refine (Weaves.cons h t).imp ?_
  rintro _ vs - ⟨u, us, rfl, halike, hr, fits⟩
  refine ⟨.cons halike (hk ▸ hR _ hr), .token (halike.kind.symm.trans hk) ?_ fits⟩
  rcases halike.text with ht | ⟨hdir, -⟩
  · exact ht ▸ hp
  · exact hd (hk ▸ hdir) _

theorem Threads.started_line {p : Directive → Prop} (h : Threads R ps is ts rest)
    (hk : t.kind = .directive) (hp : p (.ofLine t.text.toList)) :
    Started Agree is (t :: ts) rest fun us vs =>
      Agree (t :: ts) us ∧ Fits (Spells Plain) (.line p :: ps) us vs := by
  refine (Weaves.cons h t).imp ?_
  rintro _ vs - ⟨u, us, rfl, halike, -, fits⟩
  refine ⟨.cons halike fun w hw => ?_, .line (halike.kind.symm.trans hk) (halike.ofLine ▸ hp) fits⟩
  rw [hk] at hw
  cases hw

theorem Threads.kind {k : TokenKind} (h : Threads R ps is ts rest) (hk : t.kind = k)
    (hR : ∀ us, R ts us → SamePartner k ts us) : Threads Agree (.kind k :: ps) is (t :: ts) rest :=
  (h.started_token hk trivial (fun _ _ => trivial) hR).weaves

theorem Threads.name {n : String} (h : Threads R ps is ts rest) (hk : t.kind = .identifier)
    (hn : t.text = n) : Threads Agree (.name n :: ps) is (t :: ts) rest :=
  (h.started_token hk hn (fun h => by cases h) fun _ _ _ hw => by cases hw).weaves

theorem Threads.phrase
    (h : Weaves A js ts mid fun us vs => S ts us ∧ Spells Plain ph us vs)
    (h' : Threads R ps is mid rest) (hA : ∀ us, R mid us → A mid us) :
    Threads S (.phrase ph :: ps) (js ++ is) ts rest :=
  (h.append h' fun us _ hq => hA us hq.1).imp fun _ _ _ ⟨_, ⟨hs, hph⟩, _, fits⟩ =>
    ⟨hs, .phrase hph fits⟩

theorem Threads.plain
    (h : Weaves A [] ts mid fun us vs => S ts us ∧ Spells Plain ph us vs)
    (h' : Threads R ps is mid rest) (hA : ∀ us, R mid us → A mid us) :
    Threads S (.phrase ph :: ps) is ts rest :=
  Threads.phrase h h' hA

theorem Threads.ahead {p : List Token → Prop} (h : Threads R ps is ts rest)
    (hp : ∀ us, R ts us → p us) : Threads R (.ahead p :: ps) is ts rest :=
  Weaves.imp h fun us _ _ h => ⟨h.1, .ahead (hp us h.1) h.2⟩

end Threads

end BrightCoverage
