import BrightCoverage.Proofs.Legible

/-! Expressions can be read back. The loops over operators and over what is attached to an operand
go along the left spine of the tree: each operator of the spine is one round, and `Grouped` says that
no inner loop takes what belongs to an outer one. -/

namespace BrightCoverage

open BrightCoverage.Parser

variable {α β γ δ : Type} {ts us rest : List Token} {t : Token} {k : Nat}
  {ps : List (Part α)}

section Lists

variable {items : List (Phrase α)}

theorem legible_maybe {kind : TokenKind} {phrase : Option (Phrase α)}
    (form : Form (.maybe kind phrase) ps) (fits : Fits (Legible k) ps ts rest) :
    Legible k (.maybe kind phrase) ts rest := by
  intro β γ f c p R hphrase hf hp
  cases form with
  | maybeNone =>
    obtain rfl : c = none := by simpa using hphrase.symm
    simp only [fits_ahead, fits_nil] at fits
    obtain ⟨hk, rfl⟩ := fits
    exact .refused hk (.pure .none)
  | maybeSome =>
    obtain ⟨c, rfl, rfl⟩ : ∃ c', c = some c' ∧ f c' = _ := Option.map_eq_some_iff.1 hphrase.symm
    simp only [fits_token, fits_phrase, fits_nil] at fits
    obtain ⟨t, us, rfl, hk, -, mid, hitem, rfl⟩ := fits
    exact .accepted hk ((hp c us _ (hitem.readable (hf c))).bind fun b hb => .pure (.some hb))

theorem legible_more (form : Form (.more items) ps) (fits : Fits (Legible k) ps ts rest) :
    Legible k (.more items) ts rest := by
  intro β γ f cs item R hitems hf hp hi
  cases form with
  | moreNil =>
    obtain rfl : cs = [] := by simpa using hitems.symm
    simp only [fits_ahead, fits_nil] at fits
    obtain ⟨hk, rfl⟩ := fits
    refine (Gives.many_nil hp (.refused hk (.pure rfl))).mono ?_
    rintro _ rfl
    exact .nil
  | moreCons =>
    obtain ⟨c, cs, rfl, rfl, rfl⟩ := List.map_eq_cons_iff.1 hitems.symm
    simp only [fits_token, fits_phrase, fits_nil] at fits
    obtain ⟨t, us, rfl, hk, -, mid, hitem, _, hmore, rfl⟩ := fits
    refine .many_cons hp (.accepted hk ((hi c us mid (hitem.readable (hf c))).bind
      fun b hb => .pure ⟨b, rfl, hb⟩)) (hmore f cs item R rfl hf hp hi) ?_
    exact fun b bs hb hbs => .cons hb hbs

theorem legible_list {closing : Symbol} (form : Form (.list closing items) ps)
    (fits : Fits (Legible k) ps ts rest) : Legible k (.list closing items) ts rest := by
  intro β γ f cs item R hitems hf hp hi
  refine .peekKind ?_
  cases form with
  | listNil =>
    obtain rfl : cs = [] := by simpa using hitems.symm
    simp only [fits_ahead, fits_nil] at fits
    obtain ⟨hk, rfl⟩ := fits
    rw [if_pos hk]
    exact .pure .nil
  | listCons =>
    obtain ⟨c, cs, rfl, rfl, rfl⟩ := List.map_eq_cons_iff.1 hitems.symm
    simp only [fits_ahead, fits_phrase, fits_nil] at fits
    obtain ⟨hk, mid, hitem, _, hmore, rfl⟩ := fits
    rw [if_neg hk]
    refine (hi c ts mid (hitem.readable (hf c))).bind fun b hb => ?_
    exact (hmore f cs item R rfl hf hp hi).bind fun bs hbs => .pure (.cons hb hbs)

theorem gives_itemSeparator (us : List Token) (h : kindOf ts = some (.symbol .comma) ∧ us = ts.tail ∨
      kindOf ts = some .newline ∧ us = ts) :
    Gives itemSeparator ts (us.dropWhile (·.kind ∈ [TokenKind.newline])) (· = true) := by
  rcases h with ⟨hk, rfl⟩ | ⟨hk, rfl⟩
  · obtain ⟨t, ts⟩ := ts
    · cases hk
    · exact .accepted (by simpa [kindOf] using hk) (.peekKind (.skipNewlines (.pure rfl)))
  · refine .refused (by simp [hk]) (.peekKind (.skipNewlines (.pure ?_)))
    simp [hk]

theorem gives_noSeparator (hcomma : kindOf ts ≠ some (.symbol .comma))
    (hline : kindOf ts ≠ some .newline) : Gives itemSeparator ts ts (· = false) := by
  have hskip : ts.dropWhile (·.kind ∈ [TokenKind.newline]) = ts := by
    cases ts with
    | nil => rfl
    | cons t ts =>
      have : t.kind ≠ .newline := by simpa [kindOf] using hline
      simp [this]
  refine .refused hcomma (.peekKind (.skipNewlines ?_))
  rw [hskip]
  exact .pure (by simp [hline])

theorem gives_collectionItem {closing : TokenKind} {item : Parser β} {R : β → Prop}
    {more : Bool} {vs : List Token} (before : List β)
    (hclosing : kindOf (ts.dropWhile (·.kind ∈ [TokenKind.newline])) ≠ some closing)
    (hitem : Gives item (ts.dropWhile (·.kind ∈ [TokenKind.newline])) us R)
    (hsep : Gives itemSeparator us vs (· = more)) :
    Gives (collectionItem closing item (before, true))
      (ts.dropWhile (·.kind ∈ [TokenKind.newline])) vs
      fun o => ∃ state, o = some state ∧ ∃ b, state = (b :: before, more) ∧ R b := by
  refine .skipNewlines ?_
  rw [List.dropWhile_idempotent]
  refine .peekKind ?_
  rw [if_neg hclosing]
  refine hitem.bind fun b hb => hsep.bind ?_
  rintro _ rfl
  exact .pure ⟨_, rfl, b, rfl, hb⟩

theorem legible_items {closing : Symbol} (form : Form (.items closing items) ps)
    (fits : Fits (Legible k) ps ts rest) : Legible k (.items closing items) ts rest := by
  intro β γ f cs item R hitems hf hp hi before last
  cases form with
  | itemsNil =>
    obtain rfl : cs = [] := by simpa using hitems.symm
    simp only [fits_skip, fits_ahead, fits_nil] at fits
    obtain ⟨hk, rfl⟩ := fits
    have hstop : Gives (collectionItem (.symbol closing) item (before, true))
        (ts.dropWhile (·.kind ∈ [TokenKind.newline])) (ts.dropWhile (·.kind ∈ [TokenKind.newline]))
        (· = none) := by
      refine .skipNewlines ?_
      rw [List.dropWhile_idempotent]
      refine .peekKind ?_
      rw [if_pos hk]
      exact .pure rfl
    obtain ⟨_, last', hstep, rfl⟩ := hstop last
    exact ⟨_, last', repeatFrom_stop hstep, [], rfl, .nil⟩
  | itemsLast =>
    obtain ⟨c, cs, rfl, rfl, hnil⟩ := List.map_eq_cons_iff.1 hitems.symm
    obtain rfl : cs = [] := by simpa using hnil
    simp only [fits_skip, fits_ahead, fits_phrase, fits_nil] at fits
    obtain ⟨hk, mid, hitem, ⟨hcomma, hline⟩, rfl⟩ := fits
    obtain ⟨_, last', hstep, b, rfl, hb⟩ := Gives.repeat_step hp (gives_collectionItem
      before hk (hi c _ _ (hitem.readable (hf c))) (gives_noSeparator hcomma hline)) last
    refine ⟨_, last', hstep.trans (repeatFrom_stop rfl), [b], rfl, .cons hb .nil⟩
  | itemsComma =>
    obtain ⟨c, cs, rfl, rfl, rfl⟩ := List.map_eq_cons_iff.1 hitems.symm
    simp only [fits_skip, fits_ahead, fits_phrase, fits_token, fits_nil] at fits
    obtain ⟨hk, _, hitem, t, us, rfl, hkind, -, _, hmore, rfl⟩ := fits
    obtain ⟨_, last₁, hstep, b, rfl, hb⟩ := Gives.repeat_step hp (gives_collectionItem
      before hk (hi c _ _ (hitem.readable (hf c)))
      (gives_itemSeparator us (.inl ⟨by simp [kindOf, hkind], rfl⟩))) last
    obtain ⟨state, last', hloop, bs, hbs, hR⟩ := hmore f cs item R rfl hf hp hi (b :: before) last₁
    exact ⟨state, last', hstep.trans hloop, b :: bs, by simp [hbs], .cons hb hR⟩
  | itemsNewline =>
    obtain ⟨c, cs, rfl, rfl, rfl⟩ := List.map_eq_cons_iff.1 hitems.symm
    simp only [fits_skip, fits_ahead, fits_phrase, fits_nil] at fits
    obtain ⟨hk, mid, hitem, hline, _, hmore, rfl⟩ := fits
    obtain ⟨_, last₁, hstep, b, rfl, hb⟩ := Gives.repeat_step hp (gives_collectionItem
      before hk (hi c _ _ (hitem.readable (hf c)))
      (gives_itemSeparator mid (.inr ⟨hline, rfl⟩))) last
    obtain ⟨state, last', hloop, bs, hbs, hR⟩ := hmore f cs item R rfl hf hp hi (b :: before) last₁
    exact ⟨state, last', hstep.trans hloop, b :: bs, by simp [hbs], .cons hb hR⟩

theorem skip_skip (ks : List TokenKind) (c : Cursor) :
    Cursor.skip ks (Cursor.skip ks c.last c.rest).last (Cursor.skip ks c.last c.rest).rest
      = Cursor.skip ks c.last c.rest := by
  obtain ⟨last, ts⟩ := c
  induction ts generalizing last with
  | nil => rfl
  | cons t ts ih =>
    by_cases h : t.kind ∈ ks
    · simpa [Cursor.skip, h] using ih t.extent
    · simp [Cursor.skip, h]

theorem repeat_collection_skip {closing : TokenKind} {item : Parser β}
    (hp : ∀ state, StepProgress (collectionItem closing item state)) (before : List β)
    (c : Cursor) :
    repeatFrom (collectionItem closing item) (before, true) (Cursor.skip [.newline] c.last c.rest)
      = repeatFrom (collectionItem closing item) (before, true) c := by
  have hstep : collectionItem closing item (before, true) (Cursor.skip [.newline] c.last c.rest)
      = collectionItem closing item (before, true) c := by
    simp only [collectionItem, Bool.not_true, Bool.false_eq_true, if_false, skipNewlines_bind,
      skip_skip]
  rw [repeatFrom_apply hp, repeatFrom_apply hp, hstep]

theorem gives_collection {closing : Symbol} {f : γ → Phrase α} {cs : List γ} {item : Parser β}
    {R : β → γ → Prop} (h : Legible k (.items closing (cs.map f)) ts (t :: rest))
    (hf : ∀ c, (f c).isItem = true)
    (hp : ∀ state, StepProgress (collectionItem (.symbol closing) item state))
    (hi : ∀ c us vs, Readable k (f c) us vs → Gives item us vs (R · c))
    (hk : t.kind = .symbol closing) :
    Gives (collection closing item) ts rest (List.Forall₂ R · cs) := by
  have hloop : Gives (repeatFrom (collectionItem (.symbol closing) item) ([], true)) ts
      (t :: rest) fun state => List.Forall₂ R state.1.reverse cs := by
    intro last
    have hr := skip_rest [.newline] last ts
    obtain ⟨state, last', hrep, bs, hbs, hR⟩ := h f cs item R rfl hf hp hi []
      (Cursor.skip [.newline] last ts).last
    rw [← hr] at hrep
    refine ⟨state, last', ?_, by simpa [hbs] using hR⟩
    rw [← repeat_collection_skip hp]
    exact hrep
  refine hloop.bind fun state hR => ?_
  exact .expect hk (.pure hR)

end Lists

section Procedures

theorem forall₂_map_eq {f : β → δ} {g : γ → δ} {bs : List β} {cs : List γ}
    (h : List.Forall₂ (fun b c => f b = g c) bs cs) : bs.map f = cs.map g := by
  induction h with
  | nil => rfl
  | cons hb _ ih => rw [List.map_cons, List.map_cons, hb, ih]

theorem optionRel_map_eq {f : β → δ} {g : γ → δ} {b : Option β} {c : Option γ}
    (h : Option.Rel (fun b c => f b = g c) b c) : b.map f = c.map g := by
  cases h with
  | some h => exact congrArg some h
  | none => rfl

theorem optionRel_eq {b c : Option β} (h : Option.Rel Eq b c) : b = c := by
  cases h with
  | some h => exact congrArg some h
  | none => rfl

theorem legible_word {name : String} (form : Form (.word (α := α) name) ps)
    (fits : Fits (Legible k) ps ts rest) : Legible (α := α) k (.word name) ts rest := by
  cases form with
  | word =>
    simp only [fits_word, fits_nil] at fits
    obtain ⟨t, us, rfl, hw, rfl, rfl⟩ := fits
    intro what last
    exact ⟨t.text, t.extent, expectWord_eq_ok.2 ⟨t, rfl, hw, rfl, rfl⟩, rfl⟩

theorem legible_parameter {param : Parameter α} (form : Form (.parameter param) ps)
    (fits : Fits (Legible k) ps ts rest) : Legible k (.parameter param) ts rest := by
  cases form with
  | parameter =>
    rename_i name default type
    simp only [fits_word, fits_phrase, fits_nil] at fits
    obtain ⟨t, us, rfl, hw, rfl, _, hdefault, _, htype, rfl⟩ := fits
    refine .expectWord hw ?_
    refine (hdefault .value default _ (fun (b : Expr Extent) e => b.shape = e.shape) rfl
      (fun _ => rfl) fun e us vs h => h).bind fun default' hd => ?_
    refine (htype .word type _ Eq rfl (fun _ => rfl) fun n us vs h => h _).bind
      fun type' ht => .pure ?_
    obtain rfl := optionRel_eq ht
    have hd : default'.map (Expr.map fun _ => ()) = default.map (Expr.map fun _ => ()) :=
      optionRel_map_eq hd
    simp only [Parameter.map, mapExpr?_eq_map, hd]

theorem parameter_progress (k : Nat) :
    StepProgress (Parser.after (.symbol .comma) (parameter (.ofDepth k))) :=
  after_progress _ fun h => (parameter_run (sound_ofDepth k) h).imp fun _ hj => ⟨hj.1, hj.2.1⟩

theorem legible_procedure {decl : Procedure α} (form : Form (.procedure decl) ps)
    (fits : Fits (Legible k) ps ts rest) : Legible k (.procedure decl) ts rest := by
  intro opener
  cases form with
  | procedure =>
    rename_i keyword params returns body
    simp only [fits_token, fits_phrase, fits_nil] at fits
    obtain ⟨t, us, rfl, ht, -, _, hparams, t', us', rfl, ht', -, _, hreturns, _, hbody, _, hclose,
      rfl⟩ := fits
    have hps : Gives (parameters (.ofDepth k)) (t :: us) us'
        fun ps => ps.map (Parameter.map fun _ => ()) = params.map (Parameter.map fun _ => ()) := by
      refine .expect ht ?_
      refine (hparams .parameter params _
        (fun (b : Parameter Extent) p => b.map (fun _ => ()) = p.map fun _ => ()) rfl
        (fun _ => rfl) (parameter_progress k) fun e us vs h => h).bind fun params' hp => ?_
      exact .expect ht' (.pure (forall₂_map_eq hp))
    refine hps.bind fun params' hp => ?_
    refine (hreturns .word returns _ Eq rfl (fun _ => rfl) fun n us vs h => h _).bind
      fun returns' hr => ?_
    obtain rfl := optionRel_eq hr
    refine (hbody : Gives _ _ _ _).bind fun body' hb => ?_
    refine (hclose opener).bind fun _ _ => .pure ?_
    simp only [Procedure.map, mapParameters_eq_map, hp]
    rw [show mapBody _ body' = mapBody _ body from hb]
    rfl

end Procedures

section Expressions

theorem legible_entry {entry : Entry α} (form : Form (.entry entry) ps)
    (fits : Fits (Legible k) ps ts rest) : Legible k (.entry entry) ts rest := by
  refine .peekKind ?_
  cases form with
  | stringKey =>
    simp only [fits_token, fits_phrase, fits_nil] at fits
    obtain ⟨t, _, rfl, hk, rfl, t', us, rfl, hk', -, _, hvalue, rfl⟩ := fits
    rw [if_pos (by simp [kindOf, hk])]
    refine Gives.bind (R := (· = unquoteText t.text)) (.expect hk (.pure rfl)) ?_
    rintro _ rfl
    refine .expect hk' ((hvalue : Gives _ _ _ _).bind fun v hv => .pure ?_)
    exact congrArg (Entry.mk _) hv
  | wordKey =>
    simp only [fits_ahead, fits_word, fits_token, fits_phrase, fits_nil] at fits
    obtain ⟨hne, t, _, rfl, hw, rfl, t', us, rfl, hk', -, _, hvalue, rfl⟩ := fits
    rw [if_neg hne]
    refine .expectWord hw (.expect hk' ((hvalue : Gives _ _ _ _).bind
      fun v hv => .pure ?_))
    exact congrArg (Entry.mk _) hv

theorem legible_argument {e : Expr α} (form : Form (.argument e) ps)
    (fits : Fits (Legible k) ps ts rest) : Legible k (.argument e) ts rest := by
  cases form with
  | argument =>
    simp only [fits_skip, fits_phrase, fits_nil] at fits
    obtain ⟨mid, hvalue, rfl⟩ := fits
    refine .skipNewlines ((hvalue : Gives _ _ _ _).bind fun v hv => ?_)
    exact .skipNewlines (.pure hv)

theorem argument_progress (k : Nat) :
    StepProgress (Parser.after (.symbol .comma) (argument (.ofDepth k))) :=
  after_progress _ fun h => (argument_run (sound_ofDepth k) h).imp fun _ hj => ⟨hj.1, hj.2.1⟩

theorem gives_enclosed {opening closing : Symbol} {inner : Expr α}
    (fits : Fits (Legible k) [.symbol opening, .newlines, .value inner, .newlines,
      .symbol closing] ts rest) :
    Gives (enclosed (.ofDepth k) closing) ts rest (·.shape = inner.shape) := by
  simp only [fits_skip, fits_token, fits_phrase, fits_nil] at fits
  obtain ⟨t, us, rfl, -, -, mid, hvalue, t', _, hmid, hk, -, rfl⟩ := fits
  refine .advance (.skipNewlines ((hvalue : Gives _ _ _ _).bind
    fun v hv => .skipNewlines ?_))
  rw [hmid]
  exact .expect hk (.pure hv)

theorem gives_arguments {args : List (Expr α)}
    (fits : Fits (Legible k) [.symbol .leftParen, .newlines,
      .phrase (.list .rightParen (args.map .argument)), .symbol .rightParen] ts rest) :
    Gives (arguments (.ofDepth k)) ts rest (mapExprs (fun _ => ()) · = mapExprs (fun _ => ()) args)
    := by
  simp only [fits_skip, fits_token, fits_phrase, fits_nil] at fits
  obtain ⟨t, us, rfl, -, -, _, hargs, t', _, rfl, hk, -, rfl⟩ := fits
  refine .advance (.skipNewlines ?_)
  refine (hargs .argument args _ (fun (b : Expr Extent) e => b.shape = e.shape) rfl
    (fun _ => rfl) (argument_progress k) fun e us vs h => h).bind fun args' ha => ?_
  refine .expect hk (.pure ?_)
  rw [mapExprs_eq_map, mapExprs_eq_map]
  exact forall₂_map_eq ha

theorem gives_leaf {e : Expr α} {make : Extent → Expr Extent}
    (h : ∀ here, (make here).shape = e.shape) :
    Gives (leaf t make) (t :: ts) ts (·.shape = e.shape) :=
  .advance (.extentFrom fun here => .pure (h here))

theorem gives_integer {here : α} {value : Nat} (h : value ≤ maxInteger) :
    Gives (integerLiteral t value) (t :: ts) ts (·.shape = (Expr.integer here value).shape) := by
  refine .advance ?_
  rw [if_pos h]
  exact .extentFrom fun here => .pure rfl

theorem postfixStep_of_unattached {self : Recursion} {object : Expr Extent} {last : Extent}
    (h : Unattached ts) : postfixStep self object ⟨last, ts⟩ = .ok none ⟨last, ts⟩ := by
  simp only [Unattached, attachments, List.mem_cons, List.not_mem_nil, or_false, not_or] at h
  obtain ⟨h₁, h₂, h₃, h₄⟩ := h
  have hkind : (Cursor.mk last ts).kind? = kindOf ts := rfl
  simp only [postfixStep, peekKind_bind, hkind]
  rfl

theorem binaryStep_of_yields {self : Recursion} {min : Precedence} {left : Expr Extent}
    {last : Extent} (h : Yields ts [min]) :
    binaryStep self min left ⟨last, ts⟩ = .ok none ⟨last, ts⟩ := by
  simp only [binaryStep, peekKind_bind]
  cases hop : (Cursor.mk last ts).kind?.bind BinaryOp.ofKind? with
  | none => rfl
  | some op =>
    have hle : op.precedence.rank ≤ min.rank := h op hop min (List.mem_singleton_self min)
    simp only [hle, if_true]
    rfl

theorem unary_of_operand {self : Recursion} {c c' : Cursor} {e : Expr Extent}
    (h : operand self c = .ok e c') : unary self c = .ok e c' := by
  simp only [unary, peek_bind]
  cases ht : c.head? with
  | none => exact h
  | some t =>
    cases hop : UnaryOp.ofKind? t.kind with
    | none => simpa [hop] using h
    | some op =>
      obtain ⟨first, c₁, hf, -⟩ := bind_eq_ok.1 h
      simp only [primary, peek_bind, ht] at hf
      simp only [UnaryOp.ofKind?] at hop
      split at hop
      · rename_i hk
        simp only [hk] at hf
        cases hf
      · rename_i hk
        simp only [hk] at hf
        cases hf
      · cases hop

theorem legible_of_operand {e : Expr α}
    (h : ∀ last, ∃ e' last', operand (.ofDepth k) ⟨last, ts⟩
      = repeatFrom (postfixStep (.ofDepth k)) e' ⟨last', rest⟩ ∧ e'.shape = e.shape) :
    Legible (k + 1) (.expression e) ts rest := by
  refine ⟨fun _ => h, fun min _ hu _ last => ?_⟩
  obtain ⟨e', last', hrun, hshape⟩ := h last
  refine ⟨e', last', ?_, hshape⟩
  rw [repeatFrom_stop (postfixStep_of_unattached hu)]
    at hrun
  exact bind_of_ok (unary_of_operand hrun)

theorem legible_of_primary {e : Expr α}
    (h : Gives (primary (.ofDepth k)) ts rest (·.shape = e.shape)) :
    Legible (k + 1) (.expression e) ts rest := by
  refine legible_of_operand fun last => ?_
  obtain ⟨e', last', hrun, hshape⟩ := h last
  exact ⟨e', last', bind_of_ok hrun, hshape⟩

theorem legible_postfix {object e : Expr α} (hobj : Legible (k + 1) (.expression object) ts us)
    (hop : object.isOperand = true)
    (hstep : ∀ object' : Expr Extent, object'.shape = object.shape →
      Gives (postfixStep (.ofDepth k) object') us rest
        fun o => ∃ e', o = some e' ∧ e'.shape = e.shape) :
    Legible (k + 1) (.expression e) ts rest := by
  refine legible_of_operand fun last => ?_
  obtain ⟨object', last₁, hrun, hshape⟩ := hobj.1 hop last
  obtain ⟨e', last', hround, he⟩ := Gives.repeat_step (postfixStep_progress (sound_ofDepth k))
    (hstep object' hshape) last₁
  exact ⟨e', last', hrun.trans hround, he⟩

theorem gives_operand {e : Expr α} (h : Legible (k + 1) (.expression e) ts rest)
    (hop : e.isOperand = true) (hu : Unattached rest) :
    Gives (operand (.ofDepth k)) ts rest (·.shape = e.shape) := by
  intro last
  obtain ⟨e', last', hrun, hshape⟩ := h.1 hop last
  refine ⟨e', last', hrun.trans ?_, hshape⟩
  exact repeatFrom_stop (postfixStep_of_unattached hu)

/-- An expression can be read where nothing goes on with it. -/
theorem gives_expression {e : Expr α} {min : Precedence}
    (h : Legible (k + 1) (.expression e) ts rest) (habove : e.Above min) (hu : Unattached rest)
    (hy : Yields rest (min :: e.edge)) :
    Gives ((Recursion.ofDepth (k + 1)).expression min) ts rest (·.shape = e.shape) := by
  intro last
  obtain ⟨e', last', hrun, hshape⟩ := h.2 min habove hu
    (fun op hop p hp => hy op hop p (List.mem_cons_of_mem _ hp)) last
  refine ⟨e', last', ?_, hshape⟩
  refine hrun.trans (repeatFrom_stop ?_)
  exact binaryStep_of_yields fun op hop p hp => hy op hop p (by simp_all)

theorem BinaryOp.ofKind?_notMem_attachments {kind : TokenKind} {op : BinaryOp}
    (h : ofKind? kind = some op) : some kind ∉ attachments := by
  intro hmem
  simp only [attachments, List.mem_cons, List.not_mem_nil, or_false, Option.some.injEq] at hmem
  rcases hmem with rfl | rfl | rfl | rfl <;> cases h

theorem legible_binary {here : α} {op : BinaryOp} {left right : Expr α} {kind : TokenKind}
    (hop : BinaryOp.ofKind? kind = some op) (hgr : (Expr.binary here op left right).Grouped)
    (hleft : Legible (k + 2) (.expression left) ts (t :: us)) (ht : t.kind = kind)
    (hright : Legible (k + 1) (.expression right) us rest) :
    Legible (k + 2) (.expression (.binary here op left right)) ts rest := by
  refine ⟨nofun, fun min habove hu hy last => ?_⟩
  have hnext : (kindOf (t :: us)).bind BinaryOp.ofKind? = some op := by simp [kindOf, ht, hop]
  have hleftAbove : left.Above min := by
    cases left
    case binary here' op' left' right' =>
      exact Nat.lt_of_lt_of_le habove (hgr.1 _ (List.mem_cons_self ..))
    all_goals trivial
  obtain ⟨left', last₁, hrun, hshape⟩ := hleft.2 min hleftAbove
    (by simpa [Unattached, kindOf, ht] using BinaryOp.ofKind?_notMem_attachments hop)
    (fun op' hop' p hp => by
      cases hnext.symm.trans hop'
      exact hgr.1 p hp) last
  have hstep : Gives (binaryStep (.ofDepth (k + 1)) min left') (t :: us) rest
      fun o => ∃ e', o = some e' ∧ e'.shape = (Expr.binary here op left right).shape := by
    refine .peekKind ?_
    simp only [hnext, if_neg (Nat.not_le_of_lt habove)]
    refine .advance ((gives_expression hright hgr.2 hu hy).bind fun right' hr => ?_)
    refine .extentFrom fun here' => .pure ⟨_, rfl, ?_⟩
    exact congrArg₂ (Expr.binary () op) hshape hr
  obtain ⟨e', last', hround, he⟩ := Gives.repeat_step
    (binaryStep_progress (sound_ofDepth (k + 1)) min) hstep last₁
  exact ⟨e', last', hrun.trans hround, he⟩

theorem legible_unary {here : α} {op : UnaryOp} {inner : Expr α} {kind : TokenKind}
    (hop : UnaryOp.ofKind? kind = some op) (hgr : (Expr.unary here op inner).Grouped)
    (ht : t.kind = kind) (hinner : Legible (k + 1) (.expression inner) us rest) :
    Legible (k + 2) (.expression (.unary here op inner)) (t :: us) rest := by
  refine ⟨nofun, fun min _ hu hy last => ?_⟩
  have hunary : Gives (unary (.ofDepth (k + 1))) (t :: us) rest
      (·.shape = (Expr.unary here op inner).shape) := by
    refine .peek ?_
    simp only [List.head?_cons, ht, hop]
    refine .advance ((gives_expression hinner hgr hu hy).bind fun inner' hi => ?_)
    exact .extentFrom fun here' => .pure (congrArg (Expr.unary () op) hi)
  obtain ⟨e', last', hrun, he⟩ := hunary last
  exact ⟨e', last', bind_of_ok hrun, he⟩

variable {N : Phrase α → List Token → List Token → Prop}

theorem legible_expression {e : Expr α} (form : Form (.expression e) ps)
    (fits : Fits (Known N) ps ts rest) (hk : ts.length < k + 1) :
    Legible (k + 1) (.expression e) ts rest := by
  have leaf : ∀ {kind p}, Fits (Known N) [.token kind p] ts rest →
      (∀ t : Token, t.kind = kind → p t.text →
        Gives (primary (.ofDepth k)) (t :: rest) rest (·.shape = e.shape)) →
      Legible (k + 1) (.expression e) ts rest := by
    intro kind p fits h
    simp only [fits_token, fits_nil] at fits
    obtain ⟨t, us, rfl, ht, hp, rfl⟩ := fits
    exact legible_of_primary (h t ht hp)
  cases form with
  | integer hle =>
    refine leaf fits fun t ht hp => .peek ?_
    simp only [List.head?_cons, ht]
    exact hp ▸ gives_integer (hp ▸ hle)
  | hexInteger hle =>
    refine leaf fits fun t ht hp => .peek ?_
    simp only [List.head?_cons, ht]
    exact hp ▸ gives_integer (hp ▸ hle)
  | float =>
    refine leaf fits fun t ht hp => .peek ?_
    simp only [List.head?_cons, ht]
    exact gives_leaf fun _ => hp ▸ rfl
  | string =>
    refine leaf fits fun t ht hp => .peek ?_
    simp only [List.head?_cons, ht]
    exact gives_leaf fun _ => hp ▸ rfl
  | isTrue | isFalse | invalid =>
    refine leaf fits fun t ht hp => .peek ?_
    simp only [List.head?_cons, ht]
    exact gives_leaf fun _ => rfl
  | identifier =>
    refine leaf fits fun t ht hp => .peek ?_
    simp only [List.head?_cons, ht]
    exact gives_leaf fun _ => hp ▸ rfl
  | binary hop hgr =>
    simp only [fits_phrase, fits_token, fits_nil] at fits
    obtain ⟨_, hleft, t, us, rfl, ht, -, _, hright, rfl⟩ := fits
    have hle := hleft.1.suffix.length_le
    simp only [List.length_cons] at hle
    obtain ⟨k, rfl⟩ : ∃ k', k = k' + 1 := ⟨k - 1, by omega⟩
    exact legible_binary hop hgr (hleft.2 _ hk) ht (hright.2 _ (by omega))
  | unary hop hgr =>
    simp only [fits_phrase, fits_token, fits_nil] at fits
    obtain ⟨t, us, rfl, ht, -, _, hinner, rfl⟩ := fits
    simp only [List.length_cons] at hk
    obtain ⟨k, rfl⟩ : ∃ k', k = k' + 1 := ⟨k - 1, by omega⟩
    exact legible_unary hop hgr ht (hinner.2 _ (by omega))
  | grouped =>
    have fits := fits.legible_token hk
    refine legible_of_primary (.peek ?_)
    obtain ⟨t, us, rfl, ht, -⟩ := fits_token.1 fits
    simp only [List.head?_cons, ht]
    refine (gives_enclosed fits).bind fun inner hi => .extentFrom fun here => .pure ?_
    exact congrArg (Expr.grouped ()) hi
  | call hop =>
    obtain ⟨us, hobj, fits⟩ := fits_phrase.1 fits
    have hle := hobj.1.suffix.length_le
    have fits := fits.legible_token (k := k) (by omega)
    refine legible_postfix (hobj.2 _ hk) hop fun object' ho => .peekKind ?_
    obtain ⟨t, us, rfl, ht, -⟩ := fits_token.1 fits
    simp only [kindOf, List.head?_cons, Option.map_some, ht]
    refine (gives_arguments fits).bind fun args ha => .extentFrom fun here => .pure ⟨_, rfl, ?_⟩
    exact congrArg₂ (Expr.call ()) ho ha
  | member hop =>
    obtain ⟨us, hobj, fits⟩ := fits_phrase.1 fits
    simp only [fits_token, fits_word, fits_nil] at fits
    obtain ⟨t, _, rfl, ht, -, t', us, rfl, hw, rfl, rfl⟩ := fits
    refine legible_postfix (hobj.2 _ hk) hop fun object' ho => .peekKind ?_
    simp only [kindOf, List.head?_cons, Option.map_some, ht]
    refine .advance (.expectWord hw (.extentFrom fun here => .pure ⟨_, rfl, ?_⟩))
    exact congrArg (Expr.member () · t'.text) ho
  | index hop =>
    obtain ⟨us, hobj, fits⟩ := fits_phrase.1 fits
    have hle := hobj.1.suffix.length_le
    have fits := fits.legible_token (k := k) (by omega)
    refine legible_postfix (hobj.2 _ hk) hop fun object' ho => .peekKind ?_
    obtain ⟨t, us, rfl, ht, -⟩ := fits_token.1 fits
    simp only [kindOf, List.head?_cons, Option.map_some, ht]
    refine (gives_enclosed fits).bind fun index hi => .extentFrom fun here => .pure ⟨_, rfl, ?_⟩
    exact congrArg₂ (Expr.index ()) ho hi
  | attr hop =>
    obtain ⟨us, hobj, fits⟩ := fits_phrase.1 fits
    simp only [fits_token, fits_word, fits_nil] at fits
    obtain ⟨t, _, rfl, ht, -, t', us, rfl, hw, rfl, rfl⟩ := fits
    refine legible_postfix (hobj.2 _ hk) hop fun object' ho => .peekKind ?_
    simp only [kindOf, List.head?_cons, Option.map_some, ht]
    refine .advance (.expectWord hw (.extentFrom fun here => .pure ⟨_, rfl, ?_⟩))
    exact congrArg (Expr.attribute () · t'.text) ho
  | array =>
    rename_i items
    have fits := fits.legible_token hk
    simp only [fits_token, fits_phrase, fits_nil] at fits
    obtain ⟨t, us, rfl, ht, -, _, hitems, t', _, rfl, ht', -, rfl⟩ := fits
    refine legible_of_primary (.peek ?_)
    simp only [List.head?_cons, ht]
    refine .advance ((gives_collection
      (R := fun (b : Expr Extent) (e : Expr α) => b.shape = e.shape) hitems (fun _ => rfl)
      (collectionItem_progress _ (expression_row (sound_ofDepth k))) (fun e us vs h => h) ht').bind
      fun items' hi => .extentFrom fun here => .pure ?_)
    refine congrArg (Expr.array ()) ?_
    rw [mapExprs_eq_map, mapExprs_eq_map]
    exact forall₂_map_eq hi
  | assoc =>
    rename_i entries
    have fits := fits.legible_token hk
    simp only [fits_token, fits_phrase, fits_nil] at fits
    obtain ⟨t, us, rfl, ht, -, _, hitems, t', _, rfl, ht', -, rfl⟩ := fits
    refine legible_of_primary (.peek ?_)
    simp only [List.head?_cons, ht]
    refine .advance ((gives_collection
      (R := fun (b : Entry Extent) (e : Entry α) => b.map (fun _ => ()) = e.map fun _ => ())
      hitems (fun _ => rfl) (collectionItem_progress _ (entry_run (sound_ofDepth k)))
      (fun e us vs h => h) ht').bind fun entries' hi => .extentFrom fun here => .pure ?_)
    refine congrArg (Expr.assoc ()) ?_
    rw [mapEntries_eq_map, mapEntries_eq_map]
    exact forall₂_map_eq hi
  | anonymous =>
    rename_i decl
    have fits := fits.legible_token hk
    simp only [fits_token, fits_phrase, fits_nil] at fits
    obtain ⟨t, us, rfl, ht, -, _, hdecl, rfl⟩ := fits
    refine legible_of_primary (.peek ?_)
    simp only [List.head?_cons]
    cases hkw : decl.keyword <;>
    · simp only [hkw, ProcedureKind.word] at ht
      simp only [ht]
      refine .advance ((hkw ▸ hdecl t.span : Gives _ _ _ _).bind fun decl' hd =>
        .extentFrom fun here => .pure ?_)
      exact congrArg (Expr.procedure ()) hd

theorem legible_value {e : Expr α} (form : Form (.value e) ps)
    (fits : Fits (Legible (k + 1)) ps ts rest) : Legible (k + 1) (.value e) ts rest := by
  cases form with
  | value =>
    simp only [fits_phrase, fits_ahead, fits_nil] at fits
    obtain ⟨_, he, ⟨hu, hnone⟩, rfl⟩ := fits
    refine gives_expression he ?_ hu fun op hop => by simp [hnone] at hop
    cases e
    case binary op _ _ => exact op.precedence_pos
    all_goals trivial

end Expressions

end BrightCoverage
