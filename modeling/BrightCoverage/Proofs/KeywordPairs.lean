import BrightCoverage.Proofs.Acceptance
import BrightCoverage.Proofs.Resemblance

/-! Keywords of one word. `endif` and its like may be written as two words wherever they are read as
keywords, and the tree stays the same. `SpellsNaming` is the grammar with the places where names are
read, and `Split` writes keywords at other places as their two words. What is looked at ahead does
not tell the two spellings apart, so most forms carry over part by part; the forms that read such a
keyword turn into those that read its two words. -/

namespace BrightCoverage

variable {α : Type}

/-! ### Names -/

/-- The tokens up to a rest fit the parts, and these are the places where a name is read. `P` says
what the phrases among the parts spell, and where they read names. -/
inductive FitsNaming (P : Phrase α → List Token → List Token → List (List Token) → Prop) :
    List (Part α) → List Token → List Token → List (List Token) → Prop
  | nil {ts : List Token} : FitsNaming P [] ts ts []
  | token {k : TokenKind} {p : String → Prop} {ps : List (Part α)} {t : Token}
      {ts rest : List Token} {names : List (List Token)} : t.kind = k → p t.text →
    FitsNaming P ps ts rest names → FitsNaming P (.token k p :: ps) (t :: ts) rest names
  | word {n : String} {ps : List (Part α)} {t : Token} {ts rest : List Token}
      {names : List (List Token)} : t.isWord = true → t.text = n → FitsNaming P ps ts rest names →
    FitsNaming P (.word n :: ps) (t :: ts) rest ((t :: ts) :: names)
  | line {p : Directive → Prop} {ps : List (Part α)} {t : Token} {ts rest : List Token}
      {names : List (List Token)} : t.kind = .directive → p (.ofLine t.text.toList) →
    FitsNaming P ps ts rest names → FitsNaming P (.line p :: ps) (t :: ts) rest names
  | skip {ks : List TokenKind} {ps : List (Part α)} {ts rest : List Token}
      {names : List (List Token)} : FitsNaming P ps (ts.dropWhile (·.kind ∈ ks)) rest names →
    FitsNaming P (.skip ks :: ps) ts rest names
  | ahead {p : List Token → Prop} {ps : List (Part α)} {ts rest : List Token}
      {names : List (List Token)} : p ts → FitsNaming P ps ts rest names →
    FitsNaming P (.ahead p :: ps) ts rest names
  | phrase {ph : Phrase α} {ps : List (Part α)} {ts mid rest : List Token}
      {names names' : List (List Token)} : P ph ts mid names → FitsNaming P ps mid rest names' →
    FitsNaming P (.phrase ph :: ps) ts rest (names ++ names')

inductive SpellsNaming : Phrase α → List Token → List Token → List (List Token) → Prop
  | mk {ph : Phrase α} {ps : List (Part α)} {ts rest : List Token} {names : List (List Token)} :
    Form ph ps → FitsNaming SpellsNaming ps ts rest names → SpellsNaming ph ts rest names

section SpellsNaming

variable {ph : Phrase α} {ps qs : List (Part α)} {ts rest : List Token} {names : List (List Token)}

theorem FitsNaming.fits {P : Phrase α → List Token → List Token → List (List Token) → Prop}
    {Q : Phrase α → List Token → List Token → Prop} (h : FitsNaming P ps ts rest names)
    (hpq : ∀ ph us vs ns, P ph us vs ns → Q ph us vs) : Fits Q ps ts rest := by
  induction h with
  | nil => exact .nil
  | token hk hp _ ih => exact .token hk hp ih
  | word hw hn _ ih => exact .word hw hn ih
  | line hk hp _ ih => exact .line hk hp ih
  | skip _ ih => exact .skip ih
  | ahead hp _ ih => exact .ahead hp ih
  | phrase hp _ ih => exact .phrase (hpq _ _ _ _ hp) ih

theorem FitsNaming.append {P : Phrase α → List Token → List Token → List (List Token) → Prop}
    (h : FitsNaming P (ps ++ qs) ts rest names) : ∃ mid names₁ names₂,
      FitsNaming P ps ts mid names₁ ∧ FitsNaming P qs mid rest names₂ ∧ names = names₁ ++ names₂ := by
  induction ps generalizing ts names with
  | nil => exact ⟨ts, [], names, .nil, h, rfl⟩
  | cons part ps ih =>
    cases h with
    | token hk hp h =>
      obtain ⟨mid, _, _, hps, hqs, rfl⟩ := ih h
      exact ⟨mid, _, _, .token hk hp hps, hqs, rfl⟩
    | word hw hn h =>
      obtain ⟨mid, _, _, hps, hqs, rfl⟩ := ih h
      exact ⟨mid, _, _, .word hw hn hps, hqs, rfl⟩
    | line hk hp h =>
      obtain ⟨mid, _, _, hps, hqs, rfl⟩ := ih h
      exact ⟨mid, _, _, .line hk hp hps, hqs, rfl⟩
    | skip h =>
      obtain ⟨mid, _, _, hps, hqs, rfl⟩ := ih h
      exact ⟨mid, _, _, .skip hps, hqs, rfl⟩
    | ahead hp h =>
      obtain ⟨mid, _, _, hps, hqs, rfl⟩ := ih h
      exact ⟨mid, _, _, .ahead hp hps, hqs, rfl⟩
    | phrase hp h =>
      obtain ⟨mid, _, _, hps, hqs, rfl⟩ := ih h
      exact ⟨mid, _, _, .phrase hp hps, hqs, by rw [List.append_assoc]⟩

theorem Fits.append {P : Phrase α → List Token → List Token → Prop} {mid : List Token}
    (h : Fits P ps ts mid) (h' : Fits P qs mid rest) : Fits P (ps ++ qs) ts rest := by
  induction h with
  | nil => exact h'
  | token hk hp _ ih => exact .token hk hp (ih h')
  | word hw hn _ ih => exact .word hw hn (ih h')
  | line hk hp _ ih => exact .line hk hp (ih h')
  | skip _ ih => exact .skip (ih h')
  | ahead hp _ ih => exact .ahead hp (ih h')
  | phrase hp _ ih => exact .phrase hp (ih h')

theorem SpellsNaming.induct {Q : Phrase α → List Token → List Token → List (List Token) → Prop}
    (h : ∀ ph ps ts rest names, Form ph ps →
      FitsNaming (fun ph us vs ns => SpellsNaming ph us vs ns ∧ Q ph us vs ns) ps ts rest names →
      Q ph ts rest names)
    (hr : SpellsNaming ph ts rest names) : Q ph ts rest names :=
  @SpellsNaming.rec α (fun ph ts rest names _ => Q ph ts rest names)
    (fun ps ts rest names _ =>
      FitsNaming (fun ph us vs ns => SpellsNaming ph us vs ns ∧ Q ph us vs ns) ps ts rest names)
    (fun form _ fits => h _ _ _ _ _ form fits)
    .nil (fun hk hp _ => .token hk hp) (fun hw hn _ => .word hw hn) (fun hk hp _ => .line hk hp)
    (fun _ => .skip) (fun hp _ => .ahead hp) (fun hr _ hq => .phrase ⟨hr, hq⟩) ph ts rest names hr

theorem Fits.naming {P : Phrase α → List Token → List Token → Prop}
    {Q : Phrase α → List Token → List Token → List (List Token) → Prop} (h : Fits P ps ts rest)
    (hpq : ∀ ph us vs, P ph us vs → ∃ ns, Q ph us vs ns) :
    ∃ names, FitsNaming Q ps ts rest names := by
  induction h with
  | nil => exact ⟨_, .nil⟩
  | token hk hp _ ih => exact ih.imp fun _ h => .token hk hp h
  | word hw hn _ ih => exact ih.elim fun _ h => ⟨_, .word hw hn h⟩
  | line hk hp _ ih => exact ih.imp fun _ h => .line hk hp h
  | skip _ ih => exact ih.imp fun _ h => .skip h
  | ahead hp _ ih => exact ih.imp fun _ h => .ahead hp h
  | phrase hp _ ih =>
    obtain ⟨names, hnames⟩ := ih
    obtain ⟨names', hread⟩ := hpq _ _ _ hp
    exact ⟨_, .phrase hread hnames⟩

theorem Spells.naming {N : Phrase α → List Token → List Token → Prop} (h : Spells N ph ts rest) :
    ∃ names, SpellsNaming ph ts rest names :=
  Spells.induct (Q := fun ph ts rest => ∃ names, SpellsNaming ph ts rest names)
    (fun _ _ _ _ form _ fits => (fits.naming fun _ _ _ h => h.2).imp fun _ h => .mk form h) h

theorem SpellsNaming.spells {ph : Phrase Extent} (h : SpellsNaming ph ts rest names) :
    Spells Plain ph ts rest :=
  SpellsNaming.induct (Q := fun ph ts rest _ => Spells Plain ph ts rest)
    (fun _ _ _ _ _ form fits => form.spells (fits.fits fun _ _ _ _ h => h.2)) h

end SpellsNaming

/-! ### Two words for one -/

/-- A keyword of one word and its two words. -/
structure Compound where
  one : Keyword
  first : Keyword
  second : Keyword
deriving DecidableEq

def compounds : List Compound :=
  [⟨.endIfKw, .endKw, .ifKw⟩, ⟨.endForKw, .endKw, .forKw⟩, ⟨.endWhileKw, .endKw, .whileKw⟩,
    ⟨.endSubKw, .endKw, .subKw⟩, ⟨.endFunctionKw, .endKw, .functionKw⟩,
    ⟨.elseIfKw, .elseKw, .ifKw⟩, ⟨.exitWhileKw, .exitKw, .whileKw⟩]

def TokenKind.isCompound : TokenKind → Bool
  | .keyword k => compounds.any (·.one = k)
  | _ => false

/-- The second tokens are the first, where some keywords of one word that are no names are written as
their two words. -/
inductive Split (names : List (List Token)) : List Token → List Token → Prop
  | nil : Split names [] []
  | keep {t u : Token} {ts us : List Token} : u.kind = t.kind → u.text = t.text →
    Split names ts us → Split names (t :: ts) (u :: us)
  | split {w : Compound} {t a b : Token} {ts us : List Token} : w ∈ compounds →
    t.kind = .keyword w.one → t :: ts ∉ names → a.kind = .keyword w.first →
    b.kind = .keyword w.second → Split names ts us → Split names (t :: ts) (a :: b :: us)

variable {names : List (List Token)} {t : Token} {ts us rest : List Token}

namespace Split

theorem known (h : Split names ts us) (ht : ∀ t ∈ ts, t.kind ≠ .unknown) :
    ∀ u ∈ us, u.kind ≠ .unknown := by
  induction h with
  | nil => simp
  | keep hk _ _ ih =>
    obtain ⟨hhead, htail⟩ := List.forall_mem_cons.1 ht
    exact List.forall_mem_cons.2 ⟨hk ▸ hhead, ih htail⟩
  | split _ _ _ ha hb _ ih =>
    refine List.forall_mem_cons.2 ⟨by simp [ha], List.forall_mem_cons.2 ⟨by simp [hb], ih ?_⟩⟩
    exact fun t h => ht t (List.mem_cons_of_mem _ h)

theorem kept (h : Split names (t :: ts) us)
    (ht : t :: ts ∈ names ∨ t.kind.isCompound = false) :
    ∃ u us', us = u :: us' ∧ u.kind = t.kind ∧ u.text = t.text ∧ Split names ts us' := by
  have hone : ∀ w ∈ compounds, (TokenKind.keyword w.one).isCompound = true := by decide
  cases h with
  | keep hk htext h => exact ⟨_, _, rfl, hk, htext, h⟩
  | split hw hk hn =>
    rcases ht with ht | ht
    · exact absurd ht hn
    · rw [hk, hone _ hw] at ht
      cases ht

theorem compound {w : Compound} (h : Split names (t :: ts) us) (hw : w ∈ compounds)
    (ht : t.kind = .keyword w.one) :
    (∃ u us', us = u :: us' ∧ u.kind = .keyword w.one ∧ Split names ts us') ∨
      ∃ a b us', us = a :: b :: us' ∧ a.kind = .keyword w.first ∧ b.kind = .keyword w.second ∧
        Split names ts us' := by
  have hunique : ∀ w ∈ compounds, ∀ w' ∈ compounds, w.one = w'.one → w = w' := by decide
  cases h with
  | keep hk _ h => exact .inl ⟨_, _, rfl, hk.trans ht, h⟩
  | split hw' hk _ ha hb h =>
    obtain rfl := hunique _ hw' w hw (by simpa [ht] using hk.symm)
    exact .inr ⟨_, _, _, rfl, ha, hb, h⟩

theorem kindOf_cases (h : Split names ts us) : kindOf us = kindOf ts ∨
    ∃ w ∈ compounds, kindOf ts = some (.keyword w.one) ∧ kindOf us = some (.keyword w.first) := by
  cases h with
  | nil => exact .inl rfl
  | keep hk => exact .inl (congrArg some hk)
  | split hw hk _ ha => exact .inr ⟨_, hw, congrArg some hk, congrArg some ha⟩

@[elab_as_elim]
theorem kindOf_rec {motive : Option TokenKind → Option TokenKind → Prop} (h : Split names ts us)
    (same : ∀ k, motive k k)
    (compound : ∀ w ∈ compounds, motive (some (.keyword w.one)) (some (.keyword w.first))) :
    motive (kindOf ts) (kindOf us) := by
  rcases h.kindOf_cases with heq | ⟨w, hw, hts, hus⟩
  · rw [heq]
    exact same _
  · rw [hts, hus]
    exact compound w hw

theorem nil_iff (h : Split names ts us) : us = [] ↔ ts = [] := by
  cases h <;> simp

theorem dropWhile {ks : List TokenKind} (h : Split names ts us)
    (hks : ∀ w ∈ compounds, .keyword w.one ∉ ks ∧ .keyword w.first ∉ ks) :
    Split names (ts.dropWhile (·.kind ∈ ks)) (us.dropWhile (·.kind ∈ ks)) := by
  induction h with
  | nil => exact .nil
  | @keep t u ts us hk htext h ih =>
    rw [List.dropWhile_cons, List.dropWhile_cons, hk]
    split
    · exact ih
    · exact .keep hk htext h
  | @split w t a b ts us hw hk hn ha hb h _ =>
    rw [List.dropWhile_cons_of_neg (by simp [hk, hks w hw]),
      List.dropWhile_cons_of_neg (by simp [ha, hks w hw])]
    exact .split hw hk hn ha hb h

end Split

/-! ### Looking ahead -/

/-- What can be seen ahead does not change. -/
def Lasting (p : List Token → Prop) : Prop :=
  ∀ names ts us, Split names ts us → p ts → p us

theorem lasting_next {P : Option TokenKind → Prop}
    (h : ∀ w ∈ compounds, P (some (.keyword w.one)) → P (some (.keyword w.first))) :
    Lasting fun ts => P (kindOf ts) := by
  intro names ts us hs
  show P (kindOf ts) → P (kindOf us)
  exact hs.kindOf_rec (fun _ => id) h

namespace Split

variable (h : Split names ts us)
include h

theorem kindOf_iff {k : Keyword} (hk : ∀ w ∈ compounds, k ≠ w.one ∧ k ≠ w.first) :
    kindOf us = some (.keyword k) ↔ kindOf ts = some (.keyword k) := by
  rcases h.kindOf_cases with heq | ⟨w, hw, hts, hus⟩
  · rw [heq]
  · rw [hts, hus]
    simp [(hk w hw).1.symm, (hk w hw).2.symm]

theorem block_atEnd (b : Block) : b.atEnd (.ofTokens us) = b.atEnd (.ofTokens ts) := by
  have hopener : ∀ k ∈ partners (.keyword .endKw), ∀ w ∈ compounds, k ≠ w.one ∧ k ≠ w.first := by
    decide
  cases h with
  | nil => rfl
  | @keep t u ts us hk _ h =>
    have hpair : b.atPair (.ofTokens (u :: us)) = b.atPair (.ofTokens (t :: ts)) := by
      unfold Block.atPair
      split
      · next k hb =>
        have hiff := h.kindOf_iff (hopener k (Block.opener_mem_partners hb))
        simp only [kind?_ofTokens, kindAt?_one, List.tail_cons, kindOf_cons hk, hiff]
        rfl
      · rfl
    simp only [Block.atEnd, Block.atCloser, Block.atNext, kind?_ofTokens, kindOf_cons hk, hpair]
    rfl
  | @split w t a b' ts us hw hk _ ha hb _ =>
    simp only [Block.atEnd, Block.atCloser, Block.atNext, Block.atPair, kind?_ofTokens, kindAt?_one,
      List.tail_cons, kindOf_cons hk, kindOf_cons ha, kindOf_cons hb]
    clear hk ha hb
    revert w
    rcases b with _ | _ | _ | (_ | _) | _ <;>
      simp [compounds, Block.closer?, Block.opener?]

theorem atElseIf : (Cursor.ofTokens us).atElseIf = (Cursor.ofTokens ts).atElseIf := by
  cases h with
  | nil => rfl
  | @keep t u ts us hk _ h =>
    have hiff := h.kindOf_iff (k := .ifKw) (by decide)
    simp only [Cursor.atElseIf, kind?_ofTokens, kindAt?_one, List.tail_cons, kindOf_cons hk, hiff]
    rfl
  | @split w t a b ts us hw hk _ ha hb _ =>
    simp only [Cursor.atElseIf, kind?_ofTokens, kindAt?_one, List.tail_cons, kindOf_cons hk,
      kindOf_cons ha, kindOf_cons hb]
    revert w
    simp [compounds]

theorem next? : Directive.next? (.ofTokens us) = Directive.next? (.ofTokens ts) := by
  cases h with
  | nil => rfl
  | keep hk htext =>
    simp only [Directive.next?, Cursor.head?, Cursor.ofTokens, List.head?_cons, Option.bind_some,
      Directive.ofToken?, hk, htext]
  | split _ hk _ ha =>
    simp [Directive.next?, Cursor.head?, Cursor.ofTokens, Directive.ofToken?, hk, ha]

theorem atStatementEnd :
    (Cursor.ofTokens us).atStatementEnd = (Cursor.ofTokens ts).atStatementEnd := by
  simp only [Cursor.atStatementEnd, kind?_ofTokens]
  exact h.kindOf_rec (fun _ => rfl) (by decide)

theorem atBlockForm : (Cursor.ofTokens us).atBlockForm = (Cursor.ofTokens ts).atBlockForm := by
  simp only [Cursor.atBlockForm, kind?_ofTokens]
  exact h.kindOf_rec (fun _ => rfl) (by decide)

theorem atInlineEnd : (Cursor.ofTokens us).atInlineEnd = (Cursor.ofTokens ts).atInlineEnd := by
  simp only [Cursor.atInlineEnd, kind?_ofTokens]
  exact h.kindOf_rec (fun _ => rfl) (by decide)

theorem atEnd (stop : Stop) : stop.atEnd (.ofTokens us) = stop.atEnd (.ofTokens ts) := by
  cases stop with
  | never => rfl
  | block b => exact h.block_atEnd b
  | branch =>
    rw [Bool.eq_iff_iff]
    simp only [Stop.atEnd, Cursor.atBranchEnd, Bool.or_eq_true, decide_eq_true_eq]
    rw [h.block_atEnd, h.atElseIf, kind?_ofTokens, kind?_ofTokens]
    rcases h.kindOf_cases with heq | ⟨w, hw, hts, hus⟩
    · rw [heq]
    · by_cases helseIf : w.one = .elseIfKw
      · simp [Cursor.atElseIf, kind?_ofTokens, hts, helseIf]
      · have helse : ∀ w ∈ compounds, w.one ≠ .elseIfKw → w.one ≠ .elseKw ∧ w.first ≠ .elseKw := by
          decide
        simp [hts, hus, helse w hw helseIf]
  | directive => simp only [Stop.atEnd, Directive.atBranchEnd, h.next?]

end Split

/-! ### Forms -/

def Phrase.IsItem : Phrase α → Prop
  | .value _ | .argument _ | .entry _ | .parameter _ | .word _ => True
  | _ => False

/-- The phrases that are spelled the same way when keywords of one word are written as two. Those at
an `else` depend on what stands around them. -/
def Phrase.Regular : Phrase α → Prop
  | .chained _ => False
  | .maybe kind member =>
    kind ∈ [.symbol .equals, .keyword .asKw, .keyword .stepKw] ∧ ∀ ph ∈ member, ph.IsItem
  | .accepted kind => kind ∈ [.identifier, .keyword .thenKw]
  | .list _ members | .more members | .items _ members => ∀ ph ∈ members, ph.IsItem
  | _ => True

theorem Phrase.IsItem.regular {ph : Phrase α} (h : ph.IsItem) : ph.Regular := by
  cases ph <;> trivial

/-- Parts that a keyword of one word fits only as a name. -/
def Steady : List (Part α) → Prop
  | [] => True
  | .token kind _ :: ps => kind.isCompound = false ∧ Steady ps
  | .word _ :: ps | .line _ :: ps => Steady ps
  | .skip kinds :: ps =>
    (∀ w ∈ compounds, .keyword w.one ∉ kinds ∧ .keyword w.first ∉ kinds) ∧ Steady ps
  | .ahead p :: ps => Lasting p ∧ Steady ps
  | .phrase ph :: ps => ph.Regular ∧ Steady ps

/-- Wherever the tokens are written with two words for one, they spell the phrase. -/
def SpellsSplit (names : List (List Token)) (ph : Phrase Extent) (ts rest : List Token) : Prop :=
  ∀ us, Split names ts us → ∃ vs, Split names rest vs ∧ Spells Plain ph us vs

/-- What becomes of a phrase. An `if` that an `elseif` starts may become an `else` with an `if`. -/
structure Carried (names : List (List Token)) (ph : Phrase Extent) (ts rest : List Token) : Prop where
  regular : ph.Regular → SpellsSplit names ph ts rest
  chained : ∀ s, ph = .chained s → SpellsSplit names (.inlineElse (some [s])) ts rest
  otherwise : ∀ body : Option (List (Statement Extent)),
    ph = .maybe (.keyword .elseKw) (body.map (.block (.block .branch))) →
    (Cursor.ofTokens ts).atElseIf = false → SpellsSplit names ph ts rest

abbrev CarriedParts (names : List (List Token)) (ps : List (Part Extent)) (ts rest : List Token)
    (ns : List (List Token)) : Prop :=
  FitsNaming (fun ph us vs ns => SpellsNaming ph us vs ns ∧ (ns ⊆ names → Carried names ph us vs))
    ps ts rest ns

variable {ps qs : List (Part Extent)} {ns : List (List Token)} {ph : Phrase Extent}

theorem FitsNaming.split (h : CarriedParts names ps ts rest ns) (hns : ns ⊆ names)
    (hps : Steady ps) (hs : Split names ts us) :
    ∃ vs, Split names rest vs ∧ Fits (Spells Plain) ps us vs := by
  induction h generalizing us with
  | nil => exact ⟨us, hs, .nil⟩
  | token hk hp _ ih =>
    obtain ⟨u, us', rfl, hku, htext, hs⟩ := hs.kept (.inr (hk ▸ hps.1))
    obtain ⟨vs, hvs, fits⟩ := ih hns hps.2 hs
    exact ⟨vs, hvs, .token (hku.trans hk) (htext ▸ hp) fits⟩
  | word hw hn _ ih =>
    obtain ⟨hname, hns⟩ := List.cons_subset.1 hns
    obtain ⟨u, us', rfl, -, htext, hs⟩ := hs.kept (.inl hname)
    obtain ⟨vs, hvs, fits⟩ := ih hns hps hs
    refine ⟨vs, hvs, .word ?_ (htext.trans hn) fits⟩
    rwa [Token.isWord, htext]
  | line hk hp _ ih =>
    obtain ⟨u, us', rfl, hku, htext, hs⟩ := hs.kept (.inr (hk ▸ rfl))
    obtain ⟨vs, hvs, fits⟩ := ih hns hps hs
    exact ⟨vs, hvs, .line (hku.trans hk) (htext ▸ hp) fits⟩
  | skip _ ih =>
    obtain ⟨vs, hvs, fits⟩ := ih hns hps.2 (hs.dropWhile hps.1)
    exact ⟨vs, hvs, .skip fits⟩
  | ahead hp _ ih =>
    obtain ⟨vs, hvs, fits⟩ := ih hns hps.2 hs
    exact ⟨vs, hvs, .ahead (hps.1 _ _ _ hs hp) fits⟩
  | phrase hp _ ih =>
    obtain ⟨hns, hns'⟩ := List.append_subset.1 hns
    obtain ⟨mid, hmid, hspells⟩ := (hp.2 hns).regular hps.1 _ hs
    obtain ⟨vs, hvs, fits⟩ := ih hns' hps.2 hmid
    exact ⟨vs, hvs, .phrase hspells fits⟩

section Steady

variable {ps : List (Part α)} {P : Option TokenKind → Prop} {p : List Token → Prop}

theorem Steady.next (hP : ∀ w ∈ compounds, P (some (.keyword w.one)) → P (some (.keyword w.first)))
    (h : Steady ps) : Steady (.next P :: ps) :=
  ⟨lasting_next hP, h⟩

theorem Steady.newlines (h : Steady ps) : Steady (.newlines :: ps) :=
  ⟨by decide, h⟩

theorem Steady.separators (h : Steady ps) : Steady (.separators :: ps) :=
  ⟨by decide, h⟩

theorem Steady.ahead (hp : ∀ names ts us, Split names ts us → p ts → p us) (h : Steady ps) :
    Steady (.ahead p :: ps) :=
  ⟨hp, h⟩

theorem Steady.statementEnd {b : Bool} (h : Steady ps) :
    Steady (.ahead (fun ts => (Cursor.ofTokens ts).atStatementEnd = b) :: ps) :=
  .ahead (fun _ _ _ hs hp => hs.atStatementEnd.trans hp) h

end Steady

theorem isCompound_of_operator {k : TokenKind}
    (h : BinaryOp.ofKind? k ≠ none ∨ UnaryOp.ofKind? k ≠ none ∨ AssignOp.ofKind? k ≠ none ∨
      PrintSeparator.ofKind? k ≠ none) : k.isCompound = false := by
  have hall : ∀ w ∈ compounds, BinaryOp.ofKind? (.keyword w.one) = none ∧
      UnaryOp.ofKind? (.keyword w.one) = none ∧ AssignOp.ofKind? (.keyword w.one) = none ∧
      PrintSeparator.ofKind? (.keyword w.one) = none := by decide
  cases hk : k.isCompound with
  | false => rfl
  | true =>
    cases k with
    | keyword k =>
      obtain ⟨w, hw, hone⟩ := List.any_eq_true.1 hk
      obtain rfl := of_decide_eq_true hone
      obtain ⟨hb, hu, ha, hp⟩ := hall w hw
      simp [hb, hu, ha, hp] at h
    | _ => cases hk

theorem ProcedureKind.isCompound_word (keyword : ProcedureKind) :
    (TokenKind.keyword keyword.word).isCompound = false := by
  cases keyword <;> rfl

/-- The phrases that have forms of their own for keywords of one word. -/
def Phrase.Respelled : Phrase α → Prop
  | .close _ | .elseIfs _ | .inlineElse _ | .statement (.branch ..) | .statement (.exit ..) => True
  | _ => False

section Items

variable {β : Type} (f : β → Phrase α)

theorem isItem_of_mem_map (hf : ∀ b, (f b).IsItem) (bs : List β) : ∀ ph ∈ bs.map f, ph.IsItem :=
  List.forall_mem_map.2 fun b _ => hf b

theorem regular_maybe {k : TokenKind} (hf : ∀ b, (f b).IsItem) (o : Option β)
    (hk : k ∈ [TokenKind.symbol .equals, .keyword .asKw, .keyword .stepKw]) :
    (Phrase.maybe k (o.map f)).Regular := by
  refine ⟨hk, fun ph hph => ?_⟩
  obtain ⟨b, -, rfl⟩ := Option.map_eq_some_iff.1 hph
  exact hf b

end Items

theorem regular_accepted {k : TokenKind} (hk : k ∈ [TokenKind.identifier, .keyword .thenKw]) :
    (Phrase.accepted k : Phrase α).Regular :=
  hk

theorem Form.steady {ph : Phrase α} {ps : List (Part α)} (form : Form ph ps) (h : ph.Regular)
    (hr : ¬ ph.Respelled) : Steady ps := by
  cases form
  case binary hk _ =>
    exact ⟨trivial, isCompound_of_operator (.inl (by simp [hk])), trivial, trivial⟩
  case unary hk _ =>
    exact ⟨isCompound_of_operator (.inr (.inl (by simp [hk]))), trivial, trivial⟩
  case call args _ =>
    exact ⟨trivial, rfl, by decide, isItem_of_mem_map .argument (fun _ => trivial) args, rfl, trivial⟩
  case array items => exact ⟨rfl, isItem_of_mem_map .value (fun _ => trivial) items, rfl, trivial⟩
  case assoc entries => exact ⟨rfl, isItem_of_mem_map .entry (fun _ => trivial) entries, rfl, trivial⟩
  case anonymous decl => exact ⟨decl.keyword.isCompound_word, trivial, trivial⟩
  case namedProcedure decl => exact ⟨decl.keyword.isCompound_word, rfl, trivial, trivial⟩
  -- Splitting a keyword puts the first of its two words in its place. What a form asks of the next token
  -- is therefore checked for each of the few that can be split.
  case value =>
    exact ⟨trivial, .next (P := fun k => k ∉ attachments ∧ k.bind BinaryOp.ofKind? = none)
      (by decide) trivial⟩
  case wordKey => exact .next (by decide) ⟨rfl, trivial, trivial⟩
  case parameter default type =>
    exact ⟨regular_maybe .value (fun _ => trivial) default (by decide),
      regular_maybe .word (fun _ => trivial) type (by decide), trivial⟩
  case listNil => exact .next (by simp) trivial
  case listCons =>
    obtain ⟨hitem, hitems⟩ := List.forall_mem_cons.1 h
    exact .next (by simp) ⟨hitem.regular, hitems, trivial⟩
  case moreNil => exact .next (by decide) trivial
  case moreCons =>
    obtain ⟨hitem, hitems⟩ := List.forall_mem_cons.1 h
    exact ⟨rfl, hitem.regular, hitems, trivial⟩
  case itemsNil => exact .newlines (.next (by simp) trivial)
  case itemsLast =>
    have hitem := (h _ (List.mem_cons_self ..)).regular
    exact .newlines (.next (by simp) ⟨hitem, .next (by decide) trivial⟩)
  case itemsComma =>
    obtain ⟨hitem, hitems⟩ := List.forall_mem_cons.1 h
    exact .newlines (.next (by simp) ⟨hitem.regular, rfl, hitems, trivial⟩)
  case itemsNewline =>
    obtain ⟨hitem, hitems⟩ := List.forall_mem_cons.1 h
    exact .newlines (.next (by simp) ⟨hitem.regular, .next (by decide) ⟨hitems, trivial⟩⟩)
  case maybeNone k =>
    refine .next (fun w hw _ => ?_) trivial
    have hall : ∀ k ∈ [TokenKind.symbol .equals, .keyword .asKw, .keyword .stepKw],
        ∀ w ∈ compounds, some (.keyword w.first) ≠ some k := by decide
    exact hall k h.1 w hw
  case maybeSome k ph =>
    have hall : ∀ k ∈ [TokenKind.symbol .equals, .keyword .asKw, .keyword .stepKw],
        k.isCompound = false := by decide
    exact ⟨hall k h.1, (h.2 ph rfl).regular, trivial⟩
  case accepted k =>
    have hall : ∀ k ∈ [TokenKind.identifier, .keyword .thenKw], k.isCompound = false := by decide
    exact ⟨hall k h, trivial⟩
  case omitted k =>
    refine .next (fun w hw _ => ?_) trivial
    have hall : ∀ k ∈ [TokenKind.identifier, .keyword .thenKw],
        ∀ w ∈ compounds, some (.keyword w.first) ≠ some k := by decide
    exact hall k h w hw
  case procedure params returns body =>
    exact ⟨rfl, isItem_of_mem_map .parameter (fun _ => trivial) params, rfl,
      regular_maybe .word (fun _ => trivial) returns (by decide), trivial, trivial, trivial⟩
  -- Whether a block ends here hangs on up to two tokens, so `decide` is no help.
  case blockNil stop =>
    exact .separators (.ahead (fun _ _ _ hs hp => by rwa [hs.nil_iff, hs.atEnd]) trivial)
  case blockCons stop s body =>
    exact .separators (.ahead (fun _ _ _ hs hp => by rwa [ne_eq, hs.nil_iff, hs.atEnd])
      ⟨trivial, .statementEnd ⟨trivial, trivial⟩⟩)
  case inlineNil => exact .next (by decide) trivial
  case inlineEnd => exact ⟨rfl, .ahead (fun _ _ _ hs hp => hs.atInlineEnd.trans hp) trivial⟩
  case inlineCons =>
    exact ⟨rfl, .ahead (fun _ _ _ hs hp => hs.atInlineEnd.trans hp) ⟨trivial, trivial, trivial⟩⟩
  case forLoop step _ =>
    exact ⟨rfl, rfl, rfl, trivial, rfl, trivial,
      regular_maybe .value (fun _ => trivial) step (by decide), trivial, trivial, trivial⟩
  case callStatement =>
    exact .next (by decide) ⟨trivial, .next (P := (· ∉ attachments)) (by decide)
      (.next (by decide) trivial)⟩
  case assign hk =>
    exact ⟨trivial, isCompound_of_operator (.inr (.inr (.inl (by simp [hk])))), trivial, trivial⟩
  case assignMember hk | assignIndex hk =>
    exact .next (by decide) ⟨trivial, isCompound_of_operator (.inr (.inr (.inl (by simp [hk])))),
      trivial, trivial⟩
  case increment | decrement => exact .next (by decide) ⟨trivial, rfl, trivial⟩
  case print k hk =>
    have hall : ∀ k ∈ [TokenKind.keyword .printKw, .symbol .question], k.isCompound = false := by
      decide
    exact ⟨hall k hk, trivial, trivial, trivial⟩
  case noSeparator => exact .next (by decide) trivial
  case lastSeparator hk | separator hk =>
    exact ⟨isCompound_of_operator (.inr (.inr (.inr (by simp [hk])))), trivial, trivial⟩
  case printedNil => exact .statementEnd trivial
  case printedCons => exact .statementEnd ⟨trivial, trivial, trivial, trivial⟩
  case giveNothing => exact ⟨rfl, .statementEnd trivial⟩
  case giveBack => exact ⟨rfl, .statementEnd ⟨trivial, trivial⟩⟩
  case dim sizes =>
    exact ⟨rfl, rfl, rfl, trivial, isItem_of_mem_map .value (fun _ => trivial) sizes, rfl, trivial⟩
  case label => exact ⟨rfl, rfl, .next (by decide) trivial⟩
  case endProgram => exact ⟨rfl, .next (by decide) trivial⟩
  case compileElseIfsNil | compileElseNone =>
    exact .ahead (fun _ _ _ hs hp => by rwa [hs.next?]) trivial
  all_goals trivial

/-! ### Keywords of one word -/

theorem Form.split_of_steady (form : Form ph ps) (fits : CarriedParts names ps ts rest ns)
    (hns : ns ⊆ names) (hps : Steady ps) : SpellsSplit names ph ts rest := by
  intro us hs
  obtain ⟨vs, hvs, fits⟩ := fits.split hns hps hs
  exact ⟨vs, hvs, form.spells fits⟩

theorem FitsNaming.split_keyword {w : Compound}
    (h : CarriedParts names (.keyword w.one :: ps) ts rest ns) (hns : ns ⊆ names)
    (hw : w ∈ compounds) (hps : Steady ps) (hs : Split names ts us) :
    ∃ vs, Split names rest vs ∧ (Fits (Spells Plain) (.keyword w.one :: ps) us vs ∨
      Fits (Spells Plain) (.keyword w.first :: .keyword w.second :: ps) us vs) := by
  cases h with
  | token hk _ h =>
    rcases hs.compound hw hk with ⟨u, us', rfl, hu, hs⟩ | ⟨a, b, us', rfl, ha, hb, hs⟩
    · obtain ⟨vs, hvs, fits⟩ := h.split hns hps hs
      exact ⟨vs, hvs, .inl (.token hu trivial fits)⟩
    · obtain ⟨vs, hvs, fits⟩ := h.split hns hps hs
      exact ⟨vs, hvs, .inr (.token ha trivial (.token hb trivial fits))⟩

theorem Block.closer_compound {b : Block} {k : Keyword} (h : b.closer? = some k) :
    ∃ word, b.opener? = some word ∧ ⟨k, .endKw, word⟩ ∈ compounds := by
  rcases b with _ | _ | _ | (_ | _) | _ <;> cases h <;> exact ⟨_, rfl, by decide⟩

theorem Form.split_close {b : Block} (form : Form (.close b) ps)
    (fits : CarriedParts names ps ts rest ns) (hns : ns ⊆ names) :
    SpellsSplit names (.close b) ts rest := by
  have hsteady := form.split_of_steady fits hns
  cases form with
  | nextWord => exact hsteady ⟨rfl, regular_accepted (by decide), trivial⟩
  | @pair _ k hb =>
    have hopener : (TokenKind.keyword k).isCompound = false := by
      rcases b with _ | _ | _ | (_ | _) | _ <;> cases hb <;> rfl
    exact hsteady ⟨rfl, hopener, trivial⟩
  | closer hb =>
    obtain ⟨word, hopener, hw⟩ := Block.closer_compound hb
    intro us hs
    obtain ⟨vs, hvs, hone | htwo⟩ :=
      FitsNaming.split_keyword (w := ⟨_, .endKw, word⟩) fits hns hw trivial hs
    · exact ⟨vs, hvs, (Form.closer hb).spells hone⟩
    · exact ⟨vs, hvs, (Form.pair hopener).spells htwo⟩

theorem Form.split_elseIfs {clauses : List (ElseIf Extent)} (form : Form (.elseIfs clauses) ps)
    (fits : CarriedParts names ps ts rest ns) (hns : ns ⊆ names) :
    SpellsSplit names (.elseIfs clauses) ts rest := by
  have hsteady := form.split_of_steady fits hns
  have hthen : (Phrase.accepted (.keyword .thenKw) : Phrase Extent).Regular :=
    regular_accepted (by decide)
  cases form with
  | elseIfsNil => exact hsteady (.ahead (fun _ _ _ hs hp => hs.atElseIf.trans hp) trivial)
  | elseIfsTwo => exact hsteady ⟨rfl, rfl, trivial, hthen, trivial, trivial, trivial⟩
  | elseIfsOne =>
    intro us hs
    obtain ⟨vs, hvs, hone | htwo⟩ :=
      FitsNaming.split_keyword (w := ⟨.elseIfKw, .elseKw, .ifKw⟩) fits hns (by decide)
        ⟨trivial, hthen, trivial, trivial, trivial⟩ hs
    · exact ⟨vs, hvs, Form.elseIfsOne.spells hone⟩
    · exact ⟨vs, hvs, Form.elseIfsTwo.spells htwo⟩

theorem Form.split_exit {here : Extent} {loop : LoopKind}
    (form : Form (.statement (.exit here loop)) ps) (fits : CarriedParts names ps ts rest ns)
    (hns : ns ⊆ names) : SpellsSplit names (.statement (.exit here loop)) ts rest := by
  have hsteady := form.split_of_steady fits hns
  cases form with
  | exitConditional => exact hsteady ⟨rfl, rfl, trivial⟩
  | exitCounted => exact hsteady ⟨rfl, rfl, trivial⟩
  | exitWhile =>
    intro us hs
    obtain ⟨vs, hvs, hone | htwo⟩ :=
      FitsNaming.split_keyword (w := ⟨.exitWhileKw, .exitKw, .whileKw⟩) fits hns (by decide) trivial hs
    · exact ⟨vs, hvs, Form.exitWhile.spells hone⟩
    · exact ⟨vs, hvs, Form.exitConditional.spells htwo⟩

/-! ### Ends of `if` statements -/

section Ends

variable {N : Phrase Extent → List Token → List Token → Prop} {s : Statement Extent}

theorem Form.statement_head (h : Form (.statement s) ps) :
    (∃ k p ps', ps = .token k p :: ps' ∧ k ≠ .newline ∧ k ≠ .symbol .colon) ∨
      (∃ p ps', ps = .line p :: ps') ∨ (∃ ps', ps = .next (· = some .identifier) :: ps') ∨
      ∃ here n ps', ps = .phrase (.expression (.identifier here n)) :: ps' := by
  cases h
  case namedProcedure decl => cases decl.keyword <;> simp [ProcedureKind.word]
  case print k hk =>
    refine .inl ⟨k, _, _, rfl, ?_⟩
    revert hk
    revert k
    decide
  all_goals simp

theorem Spells.statement_head (h : Spells N (.statement s) ts rest) :
    ∃ k, kindOf ts = some k ∧ k ≠ .newline ∧ k ≠ .symbol .colon := by
  obtain ⟨ps, form, fits⟩ := h.form
  rcases form.statement_head with ⟨k, p, ps', rfl, hk⟩ | ⟨p, ps', rfl⟩ | ⟨ps', rfl⟩ |
    ⟨here, n, ps', rfl⟩
  · obtain ⟨t, us, rfl, rfl, -, -⟩ := fits_token.1 fits
    exact ⟨t.kind, rfl, hk⟩
  · obtain ⟨t, us, rfl, hk, -, -⟩ := fits_line.1 fits
    exact ⟨t.kind, rfl, by simp [hk]⟩
  · exact ⟨.identifier, (fits_ahead.1 fits).1, by simp⟩
  · obtain ⟨mid, hname, -⟩ := fits_phrase.1 fits
    obtain ⟨_, form, fits⟩ := hname.form
    cases form
    obtain ⟨t, us, rfl, hk, -, -⟩ := fits_token.1 fits
    exact ⟨t.kind, rfl, by simp [hk]⟩

theorem Spells.not_atBlockForm {body : List (Statement Extent)}
    (h : Spells N (.inline body) ts rest) : (Cursor.ofTokens ts).atBlockForm = false := by
  obtain ⟨_, form, fits⟩ := h.form
  cases form
  obtain ⟨mid, hs, -⟩ := fits_phrase.1 fits
  obtain ⟨k, hk, hne, hne'⟩ := hs.statement_head
  simp only [Cursor.atBlockForm, kind?_ofTokens, hk]
  split <;> simp_all

/-- No colon is left behind the statements of an `if` on one line. -/
def Uncolon : Phrase Extent → List Token → List Token → Prop
  | .inline _, _, rest | .inlineMore _, _, rest | .chained _, _, rest
  | .inlineElse (some _), _, rest => kindOf rest ≠ some (.symbol .colon)
  | .inlineElse none, ts, rest => ts = rest
  | _, _, _ => True

theorem Uncolon.branch {thenBody : List (Statement Extent)}
    {elseBody : Option (List (Statement Extent))} {mid : List Token}
    (hthen : Uncolon (.inline thenBody) ts mid) (helse : Uncolon (.inlineElse elseBody) mid rest) :
    kindOf rest ≠ some (.symbol .colon) := by
  cases elseBody with
  | none =>
    obtain rfl : mid = rest := helse
    exact hthen
  | some body => exact helse

theorem Spells.uncolon {ph : Phrase Extent} (h : Spells N ph ts rest) : Uncolon ph ts rest := by
  refine Spells.induct (Q := Uncolon) (fun ph ps ts rest form _ fits => ?_) h
  cases form
  case inline =>
    simp only [fits_phrase, fits_nil] at fits
    obtain ⟨_, -, _, hmore, rfl⟩ := fits
    exact hmore.2
  case inlineNil =>
    simp only [fits_ahead, fits_nil] at fits
    obtain ⟨hne, rfl⟩ := fits
    exact hne
  case inlineEnd =>
    simp only [fits_token, fits_ahead, fits_nil] at fits
    obtain ⟨_, us, rfl, -, -, hend, rfl⟩ := fits
    intro hcolon
    simp [Cursor.atInlineEnd, kind?_ofTokens, hcolon] at hend
  case inlineCons =>
    simp only [fits_token, fits_ahead, fits_phrase, fits_nil] at fits
    obtain ⟨_, _, rfl, -, -, -, _, -, _, hmore, rfl⟩ := fits
    exact hmore.2
  case noElse =>
    simp only [fits_ahead, fits_nil] at fits
    exact fits.2
  case inlineElse =>
    simp only [fits_token, fits_phrase, fits_nil] at fits
    obtain ⟨_, _, rfl, -, -, _, hinline, rfl⟩ := fits
    exact hinline.2
  case inlineElseIf =>
    simp only [fits_ahead, fits_phrase, fits_nil] at fits
    obtain ⟨-, _, hchained, rfl⟩ := fits
    exact hchained.2
  case chained =>
    simp only [fits_token, fits_phrase, fits_nil] at fits
    obtain ⟨_, _, rfl, -, -, _, -, _, _, rfl, -, -, _, hthen, _, helse, rfl⟩ := fits
    exact hthen.2.branch helse.2
  all_goals trivial

theorem Spells.not_atElseIf {clauses : List (ElseIf Extent)}
    (h : Spells N (.elseIfs clauses) ts rest) : (Cursor.ofTokens rest).atElseIf = false := by
  induction clauses generalizing ts with
  | nil =>
    obtain ⟨_, form, fits⟩ := h.form
    cases form
    simp only [fits_ahead, fits_nil] at fits
    obtain ⟨hend, rfl⟩ := fits
    exact hend
  | cons clause clauses ih =>
    obtain ⟨_, form, fits⟩ := h.form
    cases form with
    | elseIfsOne =>
      simp only [fits_token, fits_phrase, fits_nil] at fits
      obtain ⟨_, _, rfl, -, -, _, -, _, -, _, -, _, hrest, rfl⟩ := fits
      exact ih hrest
    | elseIfsTwo =>
      simp only [fits_token, fits_phrase, fits_nil] at fits
      obtain ⟨_, _, rfl, -, -, _, _, rfl, -, -, _, -, _, -, _, -, _, hrest, rfl⟩ := fits
      exact ih hrest

end Ends

/-! ### `if` statements -/

theorem Form.split_inlineElse {body : Option (List (Statement Extent))}
    (form : Form (.inlineElse body) ps) (fits : CarriedParts names ps ts rest ns)
    (hns : ns ⊆ names) : SpellsSplit names (.inlineElse body) ts rest := by
  have hsteady := form.split_of_steady fits hns
  cases form with
  | noElse => exact hsteady (.next (by decide) trivial)
  | inlineElse => exact hsteady ⟨rfl, trivial, trivial⟩
  | @inlineElseIf s =>
    cases fits with
    | ahead _ fits =>
      cases fits with
      | phrase hs fits =>
        cases fits
        exact (hs.2 (List.append_subset.1 hns).1).chained s rfl

/-- An `elseif` on the line of an `if` becomes an `else` with an `if`, which goes on to the same end:
it is no block, because a statement follows, and there is no colon behind it that could belong to the
`else`. -/
theorem Form.split_chained {s : Statement Extent} (form : Form (.chained s) ps)
    (fits : CarriedParts names ps ts rest ns) (hns : ns ⊆ names) :
    SpellsSplit names (.inlineElse (some [s])) ts rest := by
  intro us hs
  cases form with
  | @chained here =>
    obtain ⟨vs, hvs, hone | htwo⟩ :=
      FitsNaming.split_keyword (w := ⟨.elseIfKw, .elseKw, .ifKw⟩) fits hns (by decide)
        ⟨trivial, rfl, trivial, trivial, trivial⟩ hs
    · have hchained : Spells Plain (.chained (.branch here _ _ [] _)) us vs :=
        Form.chained.spells hone
      obtain ⟨u, us', rfl, hu, -, -⟩ := fits_token.1 hone
      exact ⟨vs, hvs, Form.inlineElseIf.spells (.ahead (kindOf_cons hu) (.phrase hchained .nil))⟩
    · simp only [fits_token, fits_phrase, fits_nil] at htwo
      obtain ⟨a, _, rfl, ha, -, b, us', rfl, hb, -, _, hcondition, t, _, rfl, ht, -, _, hthen, _,
        helse, rfl⟩ := htwo
      have hbranch : Spells Plain (.statement (.branch here _ _ [] _)) (b :: us') _ :=
        Form.inlineBranch.spells (.token hb trivial (.phrase hcondition (.token ht trivial
          (.ahead hthen.not_atBlockForm (.phrase hthen (.phrase helse .nil))))))
      have hmore := Form.inlineNil.spells (.ahead (hthen.uncolon.branch helse.uncolon) .nil)
      have hinline := Form.inline.spells (.phrase hbranch (.phrase hmore .nil))
      exact ⟨_, hvs, Form.inlineElse.spells (.token ha trivial (.phrase hinline .nil))⟩

theorem Form.split_else {body : Option (List (Statement Extent))}
    (form : Form (.maybe (.keyword .elseKw) (body.map (.block (.block .branch)))) ps)
    (fits : CarriedParts names ps ts rest ns) (hns : ns ⊆ names)
    (hts : (Cursor.ofTokens ts).atElseIf = false) :
    SpellsSplit names (.maybe (.keyword .elseKw) (body.map (.block (.block .branch)))) ts rest := by
  cases body with
  | some body =>
    have hsteady := form.split_of_steady fits hns
    cases form
    exact hsteady ⟨rfl, trivial, trivial⟩
  | none =>
    cases form
    cases fits with
    | ahead hne fits =>
      cases fits
      intro us hs
      refine ⟨us, hs, Form.maybeNone.spells (.ahead (fun helse => ?_) .nil)⟩
      rcases hs.kindOf_cases with heq | ⟨w, hw, hone, hfirst⟩
      · exact hne (heq ▸ helse)
      · have hwords : ∀ w ∈ compounds, w.first = .elseKw → w.one = .elseIfKw := by decide
        rw [hwords w hw (by simpa [hfirst] using helse)] at hone
        simp [Cursor.atElseIf, kind?_ofTokens, hone] at hts

theorem Form.split_branch {here : Extent} {condition : Expr Extent}
    {thenBody : List (Statement Extent)} {elseIfs : List (ElseIf Extent)}
    {elseBody : Option (List (Statement Extent))}
    (form : Form (.statement (.branch here condition thenBody elseIfs elseBody)) ps)
    (fits : CarriedParts names ps ts rest ns) (hns : ns ⊆ names) :
    SpellsSplit names (.statement (.branch here condition thenBody elseIfs elseBody)) ts rest := by
  have hsteady := form.split_of_steady fits hns
  cases form with
  | inlineBranch =>
    exact hsteady ⟨rfl, trivial, rfl, .ahead (fun _ _ _ hs hp => hs.atBlockForm.trans hp)
      ⟨trivial, trivial, trivial⟩⟩
  | blockBranch =>
    intro us hs
    have hparts : CarriedParts names ([_, _, _, _, _, _] ++ [_, _]) ts rest ns := fits
    obtain ⟨mid, _, _, hhead, htail, rfl⟩ := hparts.append
    obtain ⟨hnsHead, hnsTail⟩ := List.append_subset.1 hns
    have hclauses : (Cursor.ofTokens mid).atElseIf = false := by
      have hspells := hhead.fits (Q := Spells Plain) fun _ _ _ _ h => h.1.spells
      simp only [fits_token, fits_phrase, fits_ahead, fits_nil] at hspells
      obtain ⟨_, _, rfl, -, -, _, -, _, -, -, _, -, _, helseIfs, rfl⟩ := hspells
      exact helseIfs.not_atElseIf
    obtain ⟨mid', hmid, hhead'⟩ := hhead.split hnsHead ⟨rfl, trivial, regular_accepted (by decide),
      .ahead (fun _ _ _ hs hp => hs.atBlockForm.trans hp) ⟨trivial, trivial, trivial⟩⟩ hs
    cases htail with
    | phrase helse htail =>
      obtain ⟨hnsElse, hnsClose⟩ := List.append_subset.1 hnsTail
      cases htail with
      | phrase hclose htail =>
        cases htail
        obtain ⟨_, hs, helse'⟩ := (helse.2 hnsElse).otherwise _ rfl hclauses mid' hmid
        obtain ⟨vs, hvs, hclose'⟩ := (hclose.2 (List.append_subset.1 hnsClose).1).regular trivial _ hs
        exact ⟨vs, hvs, Form.blockBranch.spells
          (hhead'.append (.phrase helse' (.phrase hclose' .nil)))⟩

theorem SpellsNaming.carried (h : SpellsNaming ph ts rest ns) (hns : ns ⊆ names) :
    Carried names ph ts rest := by
  refine SpellsNaming.induct (Q := fun ph ts rest ns => ns ⊆ names → Carried names ph ts rest)
    (fun ph ps ts rest ns form fits hns => ?_) h hns
  refine ⟨fun hregular => ?_, ?_, ?_⟩
  · by_cases hr : ph.Respelled
    · cases ph with
      | close => exact form.split_close fits hns
      | elseIfs => exact form.split_elseIfs fits hns
      | inlineElse => exact form.split_inlineElse fits hns
      | statement s =>
        cases s with
        | branch => exact form.split_branch fits hns
        | exit => exact form.split_exit fits hns
        | _ => cases hr
      | _ => cases hr
    · exact form.split_of_steady fits hns (form.steady hregular hr)
  · rintro s rfl
    exact form.split_chained fits hns
  · rintro body rfl hts
    exact form.split_else fits hns hts

/-- Keywords of one word mean their two words. A list of tokens that is accepted can be read, and
wherever a reading takes no name, `endif` and its like may be written as two words: the tokens are
accepted again, with the same tree up to the places of its nodes. -/
theorem parseTokens_split {program : List (Statement Extent)} (h : parseTokens ts = .ok program) :
    (∃ names, SpellsNaming (.block .never program) ts [] names) ∧
      ∀ names, SpellsNaming (.block .never program) ts [] names → ∀ us, Split names ts us →
        ∃ program', parseTokens us = .ok program' ∧ shapes program' = shapes program := by
  refine ⟨(parseTokens_spelled h).naming, fun names hnaming us hs => ?_⟩
  obtain ⟨vs, hvs, hspells⟩ := (hnaming.carried (List.Subset.refl names)).regular trivial us hs
  obtain rfl := hvs.nil_iff.2 rfl
  exact parseTokens_of_spells hspells (hs.known (parseTokens_eq_ok h).1)

/-- A member that is named `endif` in front of two keywords of one word. -/
theorem parseTokens_split_while :
    let ts := lex "while a.endif\nexitwhile\nendwhile".toList
    let program := [.whileLoop ⟨⟨0, 32⟩, ⟨⟨1, 0⟩, ⟨3, 8⟩⟩⟩
      (.member ⟨⟨6, 13⟩, ⟨⟨1, 6⟩, ⟨1, 13⟩⟩⟩ (.identifier ⟨⟨6, 7⟩, ⟨⟨1, 6⟩, ⟨1, 7⟩⟩⟩ "a") "endif")
      [.exit ⟨⟨14, 23⟩, ⟨⟨2, 0⟩, ⟨2, 9⟩⟩⟩ .conditional]]
    parseTokens ts = .ok program ∧ (∃ names, SpellsNaming (.block .never program) ts [] names) ∧
      ∀ names, SpellsNaming (.block .never program) ts [] names → ∀ us, Split names ts us →
        ∃ program', parseTokens us = .ok program' ∧ shapes program' = shapes program :=
  ⟨rfl, parseTokens_split rfl⟩

/-- Such a keyword may be written as two words where no name is read. -/
example : Split [(lex "a.endif exitwhile".toList).drop 2] (lex "a.endif exitwhile".toList)
    (lex "a.endif exit while".toList) :=
  .keep rfl rfl (.keep rfl rfl (.keep rfl rfl
    (.split (w := ⟨.exitWhileKw, .exitKw, .whileKw⟩) (by decide) rfl (by decide) rfl rfl .nil)))

end BrightCoverage
