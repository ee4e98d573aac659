import Mathlib.Data.List.DropRight
import BrightCoverage.Proofs.ProgramLayout
import BrightCoverage.Proofs.Spelling

/-! Runs follow the grammar: what a parser gives is a phrase that the tokens it has read spell. The
operators of an expression are grouped as the grammar asks because each loop stops only at an
operator that every operator still open binds at least as tightly as. -/

namespace BrightCoverage

open BrightCoverage.Parser

variable {α β : Type} {c c' : Cursor}

/-- Expressions and statements are laid out over the tokens that spell them. -/
def Noted : Phrase Extent → List Token → List Token → Prop
  | .expression e, ts, rest => ∃ j, rest = ts.drop j ∧ Laid ts (.expression e) 0 j
  | .statement s, ts, rest | .chained s, ts, rest =>
    ∃ j, rest = ts.drop j ∧ Laid ts (.statement s) 0 j
  | _, _, _ => True

def Spelled (ph : Phrase Extent) (c c' : Cursor) : Prop :=
  Spells Noted ph c.rest c'.rest

/-- The tokens between two cursors fit a form of the phrase. -/
def Formed (ph : Phrase Extent) (c c' : Cursor) : Prop :=
  ∃ ps, Form ph ps ∧ Fits (Spells Noted) ps c.rest c'.rest

theorem noted_expression {e : Expr Extent} {k : Nat} (hc : c' = .after c.last c.rest k)
    (laid : Laid c.rest (.expression e) 0 k) : Noted (.expression e) c.rest c'.rest :=
  ⟨k, hc ▸ rfl, laid⟩

namespace Parser

theorem repeatFrom_ok {step : β → Parser (Option β)} (hp : ∀ b, StepProgress (step b))
    {I Q : β → Cursor → Prop}
    (hstop : ∀ b c c', I b c → step b c = .ok none c' → Q b c')
    (hgo : ∀ b c b' c', I b c → step b c = .ok (some b') c' → I b' c')
    {b b' : β} (hi : I b c) (h : repeatFrom step b c = .ok b' c') : Q b' c' := by
  induction hn : c.rest.length using Nat.strongRecOn generalizing c b with
  | _ n ih =>
    rw [repeatFrom_apply hp] at h
    rcases hs : step b c with ⟨_ | b₁, c₁⟩ | ⟨e, c₁⟩ <;> rw [hs] at h
    · cases h
      exact hstop _ _ _ hi hs
    · exact ih _ (hn ▸ hp _ _ _ _ hs) (hgo _ _ _ _ hi hs) h rfl
    · cases h

theorem many_ok {step : Parser (Option α)} (hp : StepProgress step)
    {Q : List α → Cursor → Cursor → Prop}
    (hstop : ∀ c c', step c = .ok none c' → Q [] c c')
    (hgo : ∀ c a c₁, step c = .ok (some a) c₁ → ∀ as c', Q as c₁ c' → Q (a :: as) c c')
    {as : List α} (h : many step c = .ok as c') : Q as c c' := by
  induction hn : c.rest.length using Nat.strongRecOn generalizing c as with
  | _ n ih =>
    rw [many_apply hp] at h
    rcases hs : step c with ⟨_ | a, c₁⟩ | ⟨e, c₁⟩ <;> rw [hs] at h
    · cases h
      exact hstop _ _ hs
    · obtain ⟨as', c₂, hm, hr⟩ := bind_eq_ok.1 h
      cases hr
      exact hgo _ _ _ hs _ _ (ih _ (hn ▸ hp _ _ _ hs) hm rfl)
    · cases h

end Parser

theorem Cursor.rest_eq {t : Token} (h : c.head? = some t) : c.rest = t :: c.next.rest := by
  obtain ⟨last, _ | ⟨u, us⟩⟩ := c
  · cases h
  · cases h
    rfl

theorem Cursor.kind?_of_head {t : Token} (h : c.head? = some t) : c.kind? = some t.kind :=
  congrArg (Option.map Token.kind) h

theorem Cursor.exists_head {k : TokenKind} (h : c.kind? = some k) :
    ∃ t, c.head? = some t ∧ t.kind = k := by
  simpa [Cursor.kind?, Cursor.head?] using h

theorem Cursor.kindAt?_one (c : Cursor) : c.kindAt? 1 = c.next.kind? := by
  obtain ⟨last, _ | ⟨t, _ | ⟨u, ts⟩⟩⟩ := c <;> rfl

theorem Cursor.kindAt?_two (c : Cursor) : c.kindAt? 2 = c.next.next.kind? := by
  obtain ⟨last, _ | ⟨t, _ | ⟨u, _ | ⟨v, ts⟩⟩⟩⟩ := c <;> rfl

theorem skip_rest (ks : List TokenKind) (last : Extent) (ts : List Token) :
    (Cursor.skip ks last ts).rest = ts.dropWhile (·.kind ∈ ks) := by
  induction ts generalizing last with
  | nil => rfl
  | cons t ts ih =>
    by_cases h : t.kind ∈ ks
    · simp [Cursor.skip, h, ih]
    · simp [Cursor.skip, h]

section Steps

variable {P : Phrase Extent → List Token → List Token → Prop} {ps : List (Part Extent)}
  {us : List Token} {k : TokenKind} {p : String → Prop} {what text : String}

theorem Fits.head {t : Token} (ht : c.head? = some t) (hk : t.kind = k) (hp : p t.text)
    (h : Fits P ps c.next.rest us) : Fits P (.token k p :: ps) c.rest us := by
  rw [Cursor.rest_eq ht]
  exact .token hk hp h

theorem Fits.expect (he : Parser.expect k what c = .ok text c') (hp : p text)
    (h : Fits P ps c'.rest us) : Fits P (.token k p :: ps) c.rest us := by
  obtain ⟨t, ht, hk, rfl, rfl⟩ := expect_eq_ok.1 he
  exact .head ht hk hp h

theorem Fits.expectWord (he : Parser.expectWord what c = .ok text c')
    (h : Fits P ps c'.rest us) : Fits P (.word text :: ps) c.rest us := by
  obtain ⟨t, ht, hw, rfl, rfl⟩ := expectWord_eq_ok.1 he
  rw [Cursor.rest_eq ht]
  exact .word hw rfl h

theorem Fits.advance (hk : c.kind? = some k) (h : Fits P ps c.next.rest us) :
    Fits P (.kind k :: ps) c.rest us := by
  obtain ⟨t, ht, hk⟩ := Cursor.exists_head hk
  exact .head ht hk trivial h

theorem Fits.skipped {ks : List TokenKind} (h : Fits P ps (Cursor.skip ks c.last c.rest).rest us) :
    Fits P (.skip ks :: ps) c.rest us := by
  rw [skip_rest] at h
  exact .skip h

theorem Fits.directive {q : Directive → Prop} {t : Token} (ht : c.head? = some t)
    (hk : t.kind = .directive) (hq : q (.ofLine t.text.toList)) (h : Fits P ps c.next.rest us) :
    Fits P (.line q :: ps) c.rest us := by
  rw [Cursor.rest_eq ht]
  exact .line hk hq h

end Steps

/-- The parsers that call each other give what the tokens spell. -/
structure Recursion.Spelling (r : Recursion) : Prop where
  expression : ∀ {min : Precedence} {e : Expr Extent} {c c' : Cursor},
    r.expression min c = .ok e c' → Spelled (.expression e) c c' ∧ e.Above min ∧
      Unattached c'.rest ∧ Yields c'.rest (min :: e.edge)
  statement : ∀ {s : Statement Extent} {c c' : Cursor},
    r.statement c = .ok s c' → Spelled (.statement s) c c'
  inlineElseIf : ∀ {s : Statement Extent} {c c' : Cursor}, r.inlineElseIf c = .ok s c' →
    c.kind? = some (.keyword .elseIfKw) → Spelled (.chained s) c c'

theorem BinaryOp.precedence_pos (op : BinaryOp) : 0 < op.precedence.rank := by
  cases op <;> decide

theorem inert_of_yields {ts : List Token} {ps : List Precedence} (h : Unattached ts)
    (hy : Yields ts (.lowest :: ps)) : Inert ts := by
  refine ⟨h, Option.eq_none_iff_forall_ne_some.2 fun op hop => ?_⟩
  have hle : op.precedence.rank ≤ 0 := hy op hop .lowest (List.mem_cons_self ..)
  exact absurd op.precedence_pos (by omega)

section Lists

variable {item : Parser α} {f : α → Phrase Extent}

theorem after_spelled {k : TokenKind} {o : Option α}
    (hi : ∀ {c a c'}, item c = .ok a c' → Spelled (f a) c c')
    (h : Parser.after k item c = .ok o c') : Spelled (.maybe k (o.map f)) c c' := by
  rcases after_eq_ok.1 h with ⟨hk, rfl, rfl⟩ | ⟨a, hk, ha, rfl⟩
  · exact .mk .maybeNone (.ahead hk .nil) trivial
  · exact .mk .maybeSome (.advance hk (.phrase (hi ha) .nil)) trivial

theorem commaItems_spelled (hp : StepProgress (Parser.after (.symbol .comma) item))
    (hi : ∀ {c a c'}, item c = .ok a c' → Spelled (f a) c c') {as : List α}
    (h : many (Parser.after (.symbol .comma) item) c = .ok as c') :
    Spelled (.more (as.map f)) c c' := by
  refine many_ok hp (Q := fun as c c' => Spelled (.more (as.map f)) c c') (fun c c' h => ?_)
    (fun c a c₁ h as c' hrest => ?_) h
  · rcases after_eq_ok.1 h with ⟨hk, -, rfl⟩ | ⟨a, -, -, ho⟩
    · exact .mk .moreNil (.ahead hk .nil) trivial
    · cases ho
  · rcases after_eq_ok.1 h with ⟨-, ho, -⟩ | ⟨a, hk, ha, ho⟩
    · cases ho
    · cases ho
      exact .mk .moreCons (.advance hk (.phrase (hi ha) (.phrase hrest .nil))) trivial

theorem commaSeparated_spelled {closing : Symbol}
    (hp : StepProgress (Parser.after (.symbol .comma) item))
    (hi : ∀ {c a c'}, item c = .ok a c' → Spelled (f a) c c') {as : List α}
    (h : commaSeparated closing item c = .ok as c') :
    Spelled (.list closing (as.map f)) c c' := by
  simp only [commaSeparated, peekKind_bind] at h
  split at h
  · rename_i hk
    cases h
    exact .mk .listNil (.ahead hk .nil) trivial
  · rename_i hk
    obtain ⟨a, c₁, ha, h⟩ := bind_eq_ok.1 h
    obtain ⟨as, c₂, hm, h⟩ := bind_eq_ok.1 h
    cases h
    exact .mk .listCons (.ahead hk (.phrase (hi ha) (.phrase (commaItems_spelled hp hi hm) .nil)))
      trivial

theorem items_of_skipped {closing : Symbol} {items : List (Phrase Extent)} {ts us : List Token}
    (h : Spells Noted (.items closing items) (ts.dropWhile (·.kind ∈ [TokenKind.newline])) us) :
    Spells Noted (.items closing items) ts us := by
  obtain ⟨ps, form, fits⟩ := h.form
  refine .mk form ?_ trivial
  cases form <;> simpa [List.dropWhile_idempotent] using fits

theorem itemSeparator_eq_ok {more : Bool} (h : itemSeparator c = .ok more c') :
    (c.kind? = some (.symbol .comma) ∧ more = true ∧
        c'.rest = c.next.rest.dropWhile (·.kind ∈ [TokenKind.newline])) ∨
      (c.kind? = some .newline ∧ more = true ∧
        c'.rest = c.rest.dropWhile (·.kind ∈ [TokenKind.newline])) ∨
      (c.kind? ≠ some (.symbol .comma) ∧ c.kind? ≠ some .newline ∧ more = false ∧
        c'.rest = c.rest) := by
  simp only [itemSeparator, accept_bind] at h
  split at h
  · rename_i hk
    simp only [peekKind_bind, skipNewlines_bind] at h
    cases h
    exact .inl ⟨hk, by simp, skip_rest ..⟩
  · rename_i hk
    simp only [peekKind_bind, skipNewlines_bind] at h
    cases h
    by_cases hn : c.kind? = some .newline
    · exact .inr (.inl ⟨hn, by simp [hn], skip_rest ..⟩)
    · refine .inr (.inr ⟨hk, hn, by simp [hn], ?_⟩)
      rw [skip_rest]
      obtain ⟨last, _ | ⟨t, ts⟩⟩ := c
      · rfl
      · simp only [Cursor.kind?, List.head?_cons, Option.map_some, Option.some.injEq] at hn
        simp [hn]

/-- What the items of a collection read so far become with those still to come. -/
def ItemsSoFar (f : α → Phrase Extent) (closing : Symbol) (c : Cursor) :
    List α × Bool → Cursor → Prop
  | (as, true), c₁ => ∀ items us, Spells Noted (.items closing items) c₁.rest us →
    Spells Noted (.items closing (as.reverse.map f ++ items)) c.rest us
  | (as, false), c₁ => Spelled (.items closing (as.reverse.map f)) c c₁

theorem collectionItem_spelled {closing : Symbol}
    (hi : ∀ {c a c'}, item c = .ok a c' → Spelled (f a) c c') {as : List α} {state : List α × Bool}
    {c₁ c₂ : Cursor} (hso : ItemsSoFar f closing c (as, true) c₁)
    (h : collectionItem (.symbol closing) item (as, true) c₁ = .ok (some state) c₂) :
    ItemsSoFar f closing c state c₂ := by
  simp only [collectionItem, Bool.not_true, Bool.false_eq_true, if_false, skipNewlines_bind,
    peekKind_bind] at h
  split at h
  · cases h
  · rename_i hk
    obtain ⟨a, c₃, ha, h⟩ := bind_eq_ok.1 h
    obtain ⟨more, c₄, hm, h⟩ := bind_eq_ok.1 h
    cases h
    have hitem := hi ha
    rcases itemSeparator_eq_ok hm with ⟨hk', rfl, hr⟩ | ⟨hk', rfl, hr⟩ | ⟨hk', hk'', rfl, hr⟩
    · intro items us hitems
      rw [hr] at hitems
      have := hso (f a :: items) us (.mk .itemsComma (.skipped (.ahead hk (.phrase hitem
        (.advance hk' (.phrase (items_of_skipped hitems) .nil))))) trivial)
      simpa using this
    · intro items us hitems
      rw [hr] at hitems
      have := hso (f a :: items) us (.mk .itemsNewline (.skipped (.ahead hk (.phrase hitem
        (.ahead hk' (.phrase (items_of_skipped hitems) .nil))))) trivial)
      simpa using this
    · have := hso [f a] c₂.rest (.mk .itemsLast (.skipped (.ahead hk (.phrase hitem
        (.ahead ⟨hk', hk''⟩ (hr ▸ .nil))))) trivial)
      simpa [ItemsSoFar, Spelled] using this

theorem collection_spelled {closing : Symbol}
    (hp : ∀ state, StepProgress (collectionItem (.symbol closing) item state))
    (hi : ∀ {c a c'}, item c = .ok a c' → Spelled (f a) c c') {as : List α}
    (h : collection closing item c = .ok as c') :
    ∃ c₁, Spelled (.items closing (as.map f)) c c₁ ∧
      c₁.kind? = some (.symbol closing) ∧ c' = c₁.next := by
  obtain ⟨⟨bs, more⟩, c₁, hrep, h⟩ := bind_eq_ok.1 h
  obtain ⟨_, c₂, hc, h⟩ := bind_eq_ok.1 h
  cases h
  obtain ⟨t, ht, hk, -, rfl⟩ := expect_eq_ok.1 hc
  refine ⟨c₁, ?_, hk ▸ Cursor.kind?_of_head ht, rfl⟩
  refine repeatFrom_ok hp (I := ItemsSoFar f closing c)
    (Q := fun state c₁ => Spelled (.items closing (state.1.reverse.map f)) c c₁)
    (fun state c₁ c₂ hso h => ?_) (fun state c₁ state' c₂ hso h => ?_) ?_ hrep
  · obtain ⟨as, more⟩ := state
    cases more with
    | false =>
      cases h
      exact hso
    | true =>
      simp only [collectionItem, Bool.not_true, Bool.false_eq_true, if_false, skipNewlines_bind,
        peekKind_bind] at h
      split at h
      · rename_i hk
        cases h
        have := hso [] _ (.mk .itemsNil (.skipped (.ahead hk .nil)) trivial)
        simpa [Spelled] using this
      · obtain ⟨a, c₃, -, h⟩ := bind_eq_ok.1 h
        obtain ⟨more, c₄, -, h⟩ := bind_eq_ok.1 h
        cases h
  · obtain ⟨as, more⟩ := state
    cases more with
    | false => cases h
    | true => exact collectionItem_spelled hi hso h
  · intro items us hitems
    simpa using hitems

end Lists

section Blocks

variable {self : Recursion} (hs : self.Sound) (hg : self.Spelling)
include hs hg

omit hs hg in
theorem Stop.atEnd_ofTokens (stop : Stop) (c : Cursor) :
    stop.atEnd (.ofTokens c.rest) = stop.atEnd c := by
  cases stop <;> rfl

omit hs in
theorem blockItem_spelled {atEnd : Cursor → Bool} {o : Option (Statement Extent)}
    (h : blockItem self atEnd c = .ok o c') :
    match o with
    | none => c' = c.skipSeparators ∧ (c'.rest = [] ∨ atEnd c' = true)
    | some s => (c.skipSeparators.rest ≠ [] ∧ atEnd c.skipSeparators = false) ∧
      Spelled (.statement s) c.skipSeparators c' ∧ c'.atStatementEnd = true := by
  simp only [blockItem, skipSeparators_bind, get_bind] at h
  split at h
  · rename_i hend
    cases h
    exact ⟨rfl, by simpa using hend⟩
  · rename_i hend
    obtain ⟨s, c₁, hst, h⟩ := bind_eq_ok.1 h
    simp only [atStatementEnd_bind] at h
    split at h
    · rename_i hse
      cases h
      exact ⟨by simpa using hend, hg.statement hst, hse⟩
    · exact absurd h expected_ne_ok

theorem block_spelled (stop : Stop) {body : List (Statement Extent)}
    (h : block self stop.atEnd c = .ok body c') : Spelled (.block stop body) c c' := by
  refine many_ok (blockItem_progress hs stop.atEnd)
    (Q := fun body c c' => Spelled (.block stop body) c c') (fun c c' h => ?_)
    (fun c s c₁ h body c' hrest => ?_) h
  · obtain ⟨rfl, hend⟩ := blockItem_spelled hg h
    rw [← stop.atEnd_ofTokens] at hend
    exact .mk .blockNil (.skipped (.ahead hend .nil)) trivial
  · obtain ⟨⟨hne, hend⟩, hst, hse⟩ := blockItem_spelled hg h
    rw [← stop.atEnd_ofTokens] at hend
    exact .mk .blockCons (.skipped (.ahead ⟨hne, hend⟩ (.phrase hst
      (.ahead hse (.phrase hrest .nil))))) trivial

omit hs hg in
theorem close_spelled {b : Block} {opener : Span} {u : Unit} (h : close b opener c = .ok u c') :
    Spelled (.close b) c c' := by
  simp only [close, get_bind] at h
  split at h
  · rename_i hc
    simp only [Block.atCloser] at hc
    split at hc
    · rename_i word hw
      cases h
      exact .mk (.closer hw) (.advance (of_decide_eq_true hc) .nil) trivial
    · cases hc
  · split at h
    · rename_i hc
      simp only [Block.atNext, Bool.and_eq_true, decide_eq_true_eq] at hc
      obtain ⟨rfl, hk⟩ := hc
      simp only [advance_bind, accept_bind] at h
      split at h
      · rename_i hid
        cases h
        exact .mk .nextWord (.advance hk (.phrase (.mk .accepted (.advance hid .nil) trivial) .nil))
          trivial
      · rename_i hid
        cases h
        exact .mk .nextWord (.advance hk (.phrase (.mk .omitted (.ahead hid .nil) trivial) .nil))
          trivial
    · split at h
      · rename_i hc
        simp only [Block.atPair] at hc
        split at hc
        · rename_i word hw
          simp only [Bool.and_eq_true, decide_eq_true_eq] at hc
          cases h
          exact .mk (.pair hw) (.advance hc.1 (.advance (c.kindAt?_one ▸ hc.2) .nil)) trivial
        · cases hc
      · split at h
        · cases h
        · exact absurd h expected_ne_ok

omit hs in
theorem value_spelled {e : Expr Extent} (h : self.expression .lowest c = .ok e c') :
    Spelled (.value e) c c' := by
  obtain ⟨hsp, -, hu, hy⟩ := hg.expression h
  exact .mk .value (.phrase hsp (.ahead (inert_of_yields hu hy) .nil)) trivial

end Blocks

section Procedures

variable {self : Recursion} (hs : self.Sound) (hg : self.Spelling)
include hs hg

omit hs hg in
theorem word_spelled {what name : String} (h : expectWord what c = .ok name c') :
    Spelled (.word name) c c' :=
  .mk .word (.expectWord h .nil) trivial

omit hs in
theorem parameter_spelled {param : Parameter Extent} (h : parameter self c = .ok param c') :
    Spelled (.parameter param) c c' := by
  obtain ⟨name, c₁, hn, h⟩ := bind_eq_ok.1 h
  obtain ⟨default, c₂, hd, h⟩ := bind_eq_ok.1 h
  obtain ⟨type, c₃, ht, h⟩ := bind_eq_ok.1 h
  cases h
  exact .mk .parameter (.expectWord hn (.phrase (after_spelled (value_spelled hg) hd)
    (.phrase (after_spelled word_spelled ht) .nil))) trivial

theorem procedure_spelled {keyword : ProcedureKind} {opener : Span} {decl : Procedure Extent}
    (h : procedure self keyword opener c = .ok decl c') :
    decl.keyword = keyword ∧ Spelled (.procedure decl) c c' := by
  have hp : StepProgress (Parser.after (.symbol .comma) (parameter self)) :=
    after_progress _ fun h => (parameter_run hs h).imp fun j hj => ⟨hj.1, hj.2.1⟩
  obtain ⟨params, c₁, hpar, h⟩ := bind_eq_ok.1 h
  obtain ⟨returns, c₂, hr, h⟩ := bind_eq_ok.1 h
  obtain ⟨body, c₃, hb, h⟩ := bind_eq_ok.1 h
  obtain ⟨_, c₄, hc, h⟩ := bind_eq_ok.1 h
  cases h
  obtain ⟨_, c₅, ho, hpar⟩ := bind_eq_ok.1 hpar
  obtain ⟨params, c₆, hps, hpar⟩ := bind_eq_ok.1 hpar
  obtain ⟨_, c₇, hcl, hpar⟩ := bind_eq_ok.1 hpar
  cases hpar
  refine ⟨rfl, .mk .procedure (.expect ho trivial (.phrase
    (commaSeparated_spelled hp (parameter_spelled hg) hps) (.expect hcl trivial
    (.phrase (after_spelled word_spelled hr) (.phrase ?_ (.phrase (close_spelled hc) .nil))))))
    trivial⟩
  exact block_spelled hs hg (.block (.procedure keyword)) hb

end Procedures

section Expressions

variable {self : Recursion} (hs : self.Sound) (hg : self.Spelling)
include hs hg

omit hs in
theorem entry_spelled {entry : Entry Extent} (h : Parser.entry self c = .ok entry c') :
    Spelled (.entry entry) c c' := by
  simp only [Parser.entry, peekKind_bind] at h
  split at h
  · obtain ⟨key, c₁, hkey, h⟩ := bind_eq_ok.1 h
    obtain ⟨text, c₂, ht, hm⟩ := bind_eq_ok.1 hkey
    cases hm
    obtain ⟨_, c₃, hc, h⟩ := bind_eq_ok.1 h
    obtain ⟨value, c₄, hv, h⟩ := bind_eq_ok.1 h
    cases h
    exact .mk .stringKey (.expect ht rfl (.expect hc trivial
      (.phrase (value_spelled hg hv) .nil))) trivial
  · rename_i hk
    obtain ⟨key, c₁, hkey, h⟩ := bind_eq_ok.1 h
    obtain ⟨_, c₃, hc, h⟩ := bind_eq_ok.1 h
    obtain ⟨value, c₄, hv, h⟩ := bind_eq_ok.1 h
    cases h
    exact .mk .wordKey (.ahead hk (.expectWord hkey (.expect hc trivial
      (.phrase (value_spelled hg hv) .nil)))) trivial

omit hs in
theorem enclosed_fits {opening closing : Symbol} {inner : Expr Extent}
    (hk : c.kind? = some (.symbol opening)) (h : enclosed self closing c = .ok inner c') :
    Fits (Spells Noted) [.symbol opening, .newlines, .value inner, .newlines, .symbol closing]
      c.rest c'.rest := by
  simp only [enclosed, advance_bind, skipNewlines_bind] at h
  obtain ⟨inner, c₁, he, h⟩ := bind_eq_ok.1 h
  simp only [skipNewlines_bind] at h
  obtain ⟨_, c₂, hc, h⟩ := bind_eq_ok.1 h
  cases h
  exact .advance hk (.skipped (.phrase (value_spelled hg he) (.skipped (.expect hc trivial .nil))))

omit hs in
theorem argument_spelled {arg : Expr Extent} (h : argument self c = .ok arg c') :
    Spelled (.argument arg) c c' := by
  simp only [argument, skipNewlines_bind] at h
  obtain ⟨arg, c₁, he, h⟩ := bind_eq_ok.1 h
  cases h
  exact .mk .argument (.skipped (.phrase (value_spelled hg he) (.skipped .nil))) trivial

theorem arguments_fits {args : List (Expr Extent)} (hk : c.kind? = some (.symbol .leftParen))
    (h : arguments self c = .ok args c') :
    Fits (Spells Noted) [.symbol .leftParen, .newlines,
      .phrase (.list .rightParen (args.map .argument)), .symbol .rightParen] c.rest c'.rest := by
  have hp : StepProgress (Parser.after (.symbol .comma) (argument self)) :=
    after_progress _ fun h => (argument_run hs h).imp fun j hj => ⟨hj.1, hj.2.1⟩
  simp only [arguments, advance_bind, skipNewlines_bind] at h
  obtain ⟨args, c₁, ha, h⟩ := bind_eq_ok.1 h
  obtain ⟨_, c₂, hc, h⟩ := bind_eq_ok.1 h
  cases h
  exact .advance hk (.skipped (.phrase (commaSeparated_spelled hp (argument_spelled hg) ha)
    (.expect hc trivial .nil)))

theorem primary_fits {e : Expr Extent} (h : primary self c = .ok e c') :
    e.isOperand = true ∧ Formed (.expression e) c c' := by
  simp only [primary, peek_bind] at h
  cases ht : c.head? with
  | none => simp [ht] at h
  | some t =>
    simp only [ht] at h
    have hkind := Cursor.kind?_of_head ht
    obtain ⟨p, hp, h⟩ := named_run h
    split at hp <;> subst hp
    case h_1 hk =>
      simp only [integerLiteral, advance_bind] at h
      split at h
      · rename_i hle
        cases h
        exact ⟨rfl, _, .integer hle, Fits.head ht hk rfl .nil⟩
      · cases h
    case h_2 hk =>
      simp only [integerLiteral, advance_bind] at h
      split at h
      · rename_i hle
        cases h
        exact ⟨rfl, _, .hexInteger hle, Fits.head ht hk rfl .nil⟩
      · cases h
    case h_3 hk =>
      cases h
      exact ⟨rfl, _, .float, Fits.head ht hk rfl .nil⟩
    case h_4 hk =>
      cases h
      exact ⟨rfl, _, .string, Fits.head ht hk rfl .nil⟩
    case h_5 => cases h
    case h_6 hk =>
      cases h
      exact ⟨rfl, _, .isTrue, Fits.head ht hk trivial .nil⟩
    case h_7 hk =>
      cases h
      exact ⟨rfl, _, .isFalse, Fits.head ht hk trivial .nil⟩
    case h_8 hk =>
      cases h
      exact ⟨rfl, _, .invalid, Fits.head ht hk trivial .nil⟩
    case h_9 hk =>
      cases h
      exact ⟨rfl, _, .identifier, Fits.head ht hk rfl .nil⟩
    case h_10 hk =>
      obtain ⟨inner, c₁, he, h⟩ := bind_eq_ok.1 h
      cases h
      exact ⟨rfl, _, .grouped, enclosed_fits hg (hk ▸ hkind) he⟩
    case h_11 hk =>
      simp only [advance_bind] at h
      obtain ⟨items, c₁, hi, h⟩ := bind_eq_ok.1 h
      cases h
      obtain ⟨c₂, hitems, hk', rfl⟩ := collection_spelled (f := .value)
        (collectionItem_progress _ (expression_row hs)) (value_spelled hg) hi
      exact ⟨rfl, _, .array, .advance (hk ▸ hkind) (.phrase hitems (.advance hk' .nil))⟩
    case h_12 hk =>
      simp only [advance_bind] at h
      obtain ⟨entries, c₁, hi, h⟩ := bind_eq_ok.1 h
      cases h
      obtain ⟨c₂, hitems, hk', rfl⟩ := collection_spelled (f := .entry)
        (collectionItem_progress _ (entry_run hs)) (entry_spelled hg) hi
      exact ⟨rfl, _, .assoc, .advance (hk ▸ hkind) (.phrase hitems (.advance hk' .nil))⟩
    case h_13 hk =>
      simp only [advance_bind] at h
      obtain ⟨decl, c₁, hd, h⟩ := bind_eq_ok.1 h
      cases h
      obtain ⟨hkw, hdecl⟩ := procedure_spelled hs hg hd
      refine ⟨rfl, _, .anonymous, .advance ?_ (.phrase hdecl .nil)⟩
      rw [hkw, hkind, hk]
      rfl
    case h_14 hk =>
      simp only [advance_bind] at h
      obtain ⟨decl, c₁, hd, h⟩ := bind_eq_ok.1 h
      cases h
      obtain ⟨hkw, hdecl⟩ := procedure_spelled hs hg hd
      refine ⟨rfl, _, .anonymous, .advance ?_ (.phrase hdecl .nil)⟩
      rw [hkw, hkind, hk]
      rfl
    case h_15 => cases h

theorem postfixStep_fits {object : Expr Extent} {o : Option (Expr Extent)} {c₁ : Cursor}
    (hop : object.isOperand = true) (hobj : Spelled (.expression object) c c₁)
    (h : postfixStep self object c₁ = .ok o c') :
    match o with
    | none => c' = c₁ ∧ Unattached c₁.rest
    | some e => e.isOperand = true ∧ Formed (.expression e) c c' := by
  simp only [postfixStep, peekKind_bind] at h
  obtain ⟨p, hp, h⟩ := named_run h
  split at hp <;> subst hp
  case h_1 hk =>
    obtain ⟨args, c₂, ha, h⟩ := bind_eq_ok.1 h
    cases h
    exact ⟨rfl, _, .call hop, .phrase hobj (arguments_fits hs hg hk ha)⟩
  case h_2 hk =>
    simp only [advance_bind] at h
    obtain ⟨name, c₂, hn, h⟩ := bind_eq_ok.1 h
    cases h
    exact ⟨rfl, _, .member hop, .phrase hobj (.advance hk (.expectWord hn .nil))⟩
  case h_3 hk =>
    obtain ⟨index, c₂, he, h⟩ := bind_eq_ok.1 h
    cases h
    exact ⟨rfl, _, .index hop, .phrase hobj (enclosed_fits hg hk he)⟩
  case h_4 hk =>
    simp only [advance_bind] at h
    obtain ⟨name, c₂, hn, h⟩ := bind_eq_ok.1 h
    cases h
    exact ⟨rfl, _, .attr hop, .phrase hobj (.advance hk (.expectWord hn .nil))⟩
  case h_5 h₁ h₂ h₃ h₄ =>
    cases h
    refine ⟨rfl, ?_⟩
    simp only [Unattached, attachments, List.mem_cons, List.not_mem_nil, or_false, not_or]
    exact ⟨h₁, h₂, h₃, h₄⟩

theorem operand_spelled {e : Expr Extent} (h : operand self c = .ok e c') :
    e.isOperand = true ∧ Spelled (.expression e) c c' ∧ Unattached c'.rest := by
  obtain ⟨first, c₁, hf, h⟩ := bind_eq_ok.1 h
  obtain ⟨hop, ps, form, fits⟩ := primary_fits hs hg hf
  rw [c.eq_after] at hf
  obtain ⟨k, hk, laid⟩ := primary_run hs hf
  refine repeatFrom_ok (postfixStep_progress hs)
    (I := fun e c₁ => e.isOperand = true ∧ Spelled (.expression e) c c₁ ∧
      ∃ k, c₁ = .after c.last c.rest k ∧ Laid c.rest (.expression e) 0 k)
    (Q := fun e c' => e.isOperand = true ∧ Spelled (.expression e) c c' ∧ Unattached c'.rest)
    (fun e c₁ c₂ hi h => ?_) (fun e c₁ e' c₂ hi h => ?_)
    ⟨hop, .mk form fits (noted_expression hk laid), k, hk, laid⟩ h
  · obtain ⟨hop, hsp, -⟩ := hi
    obtain ⟨rfl, hu⟩ := postfixStep_fits hs hg hop hsp h
    exact ⟨hop, hsp, hu⟩
  · obtain ⟨hop, hsp, k, rfl, laid⟩ := hi
    obtain ⟨hop', ps, form, fits⟩ := postfixStep_fits hs hg hop hsp h
    obtain ⟨j, rfl, -, hlaid⟩ := postfixStep_run hs h
    exact ⟨hop', .mk form fits (noted_expression rfl (hlaid 0 laid)), j, rfl, hlaid 0 laid⟩

theorem unary_spelled {e : Expr Extent} (h : unary self c = .ok e c') :
    (∀ min, e.Above min) ∧ Spelled (.expression e) c c' ∧ Unattached c'.rest ∧
      Yields c'.rest e.edge := by
  have hlaid : ∃ k, c' = .after c.last c.rest k ∧ Laid c.rest (.expression e) 0 k :=
    unary_run hs (c.eq_after ▸ h)
  have hoperand : ∀ {e : Expr Extent}, operand self c = .ok e c' → (∀ min, e.Above min) ∧
      Spelled (.expression e) c c' ∧ Unattached c'.rest ∧ Yields c'.rest e.edge := by
    intro e h
    obtain ⟨hop, hsp, hu⟩ := operand_spelled hs hg h
    refine ⟨e.above_of_isOperand hop, hsp, hu, fun op _ p hp => ?_⟩
    rw [Expr.edge_of_isOperand hop] at hp
    cases hp
  simp only [unary, peek_bind] at h
  cases ht : c.head? with
  | none => exact hoperand (by simpa [ht] using h)
  | some t =>
    simp only [ht] at h
    cases ho : UnaryOp.ofKind? t.kind with
    | none => exact hoperand (by simpa [ho] using h)
    | some op =>
      simp only [ho, advance_bind] at h
      obtain ⟨inner, c₁, he, h⟩ := bind_eq_ok.1 h
      cases h
      obtain ⟨hsp, habove, hu, hy⟩ := hg.expression he
      obtain ⟨k, hk, laid⟩ := hlaid
      exact ⟨fun _ => trivial, .mk (.unary ho habove) (.head ht rfl trivial (.phrase hsp .nil))
        (noted_expression hk laid), hu, hy⟩

omit hs in
theorem binaryStep_fits {min : Precedence} {left : Expr Extent} {o : Option (Expr Extent)}
    {c₁ : Cursor} (hleft : Spelled (.expression left) c c₁) (hy : Yields c₁.rest left.edge)
    (h : binaryStep self min left c₁ = .ok o c') :
    match o with
    | none => c' = c₁ ∧ Yields c₁.rest (min :: left.edge)
    | some e => (e.Above min ∧ Unattached c'.rest ∧ Yields c'.rest e.edge) ∧
      Formed (.expression e) c c' := by
  have hstop : (∀ op, c₁.kind?.bind BinaryOp.ofKind? = some op →
      op.precedence.rank ≤ min.rank) → Yields c₁.rest (min :: left.edge) := by
    intro hmin op hop p hp
    rcases List.mem_cons.1 hp with rfl | hp
    · exact hmin op hop
    · exact hy op hop p hp
  simp only [binaryStep, peekKind_bind] at h
  obtain ⟨p, hp, h⟩ := named_run h
  split at hp
  · rename_i op hop
    split at hp <;> subst hp
    · rename_i hle
      cases h
      refine ⟨rfl, hstop fun op' hop' => ?_⟩
      cases hop.symm.trans hop'
      exact hle
    · rename_i hlt
      obtain ⟨kind, hkind, hop'⟩ := Option.bind_eq_some_iff.1 hop
      simp only [advance_bind] at h
      obtain ⟨right, c₂, he, h⟩ := bind_eq_ok.1 h
      cases h
      obtain ⟨hright, habove, hu, hy'⟩ := hg.expression he
      exact ⟨⟨Nat.lt_of_not_le hlt, hu, hy'⟩, _, .binary hop' ⟨hy op hop, habove⟩,
        .phrase hleft (.advance hkind (.phrase hright .nil))⟩
  · rename_i hnone
    subst hp
    cases h
    exact ⟨rfl, hstop fun op hop => by simp [hnone] at hop⟩

theorem expression_spelled {min : Precedence} {e : Expr Extent}
    (h : Parser.expression self min c = .ok e c') :
    Spelled (.expression e) c c' ∧ e.Above min ∧ Unattached c'.rest ∧
      Yields c'.rest (min :: e.edge) := by
  obtain ⟨first, c₁, hf, h⟩ := bind_eq_ok.1 h
  obtain ⟨habove, hsp, hu, hy⟩ := unary_spelled hs hg hf
  rw [c.eq_after] at hf
  obtain ⟨k, hk, laid⟩ := unary_run hs hf
  refine repeatFrom_ok (binaryStep_progress hs min)
    (I := fun e c₁ => (Spelled (.expression e) c c₁ ∧ e.Above min ∧ Unattached c₁.rest ∧
      Yields c₁.rest e.edge) ∧ ∃ k, c₁ = .after c.last c.rest k ∧ Laid c.rest (.expression e) 0 k)
    (Q := fun e c' => Spelled (.expression e) c c' ∧ e.Above min ∧ Unattached c'.rest ∧
      Yields c'.rest (min :: e.edge))
    (fun e c₁ c₂ hi h => ?_) (fun e c₁ e' c₂ hi h => ?_)
    ⟨⟨hsp, habove min, hu, hy⟩, k, hk, laid⟩ h
  · obtain ⟨⟨hsp, habove, hu, hy⟩, -⟩ := hi
    obtain ⟨rfl, hy'⟩ := binaryStep_fits hg hsp hy h
    exact ⟨hsp, habove, hu, hy'⟩
  · obtain ⟨⟨hsp, -, -, hy⟩, k, rfl, laid⟩ := hi
    obtain ⟨⟨habove, hu, hy'⟩, ps, form, fits⟩ := binaryStep_fits hg hsp hy h
    obtain ⟨j, rfl, -, hlaid⟩ := binaryStep_run hs h
    exact ⟨⟨.mk form fits (noted_expression rfl (hlaid 0 laid)), habove, hu, hy'⟩, j, rfl,
      hlaid 0 laid⟩

end Expressions

end BrightCoverage
