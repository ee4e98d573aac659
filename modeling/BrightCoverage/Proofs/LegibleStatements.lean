import BrightCoverage.Proofs.LegibleExpressions

/-! Statements and whole files can be read back: a file whose tokens spell a program is accepted,
and the tree read from it has the shape of that program. -/

namespace BrightCoverage

open BrightCoverage.Parser

variable {α β γ : Type} {ts us rest : List Token} {t : Token} {k : Nat} {ps : List (Part α)}

section Blocks

theorem legible_accepted {kind : TokenKind} (form : Form (.accepted (α := α) kind) ps)
    (fits : Fits (Legible k) ps ts rest) : Legible (α := α) k (.accepted kind) ts rest := by
  intro last
  cases form with
  | accepted =>
    simp only [fits_token, fits_nil] at fits
    obtain ⟨t, us, rfl, ht, -, rfl⟩ := fits
    exact ⟨true, t.extent, by rw [accept_apply, if_pos (by simp [Cursor.kind?, ht])]; rfl, trivial⟩
  | omitted =>
    simp only [fits_ahead, fits_nil] at fits
    obtain ⟨hk, rfl⟩ := fits
    exact ⟨false, last, by rw [accept_apply]; exact if_neg hk, trivial⟩

theorem atCloser_of_kind {b : Block} {word : Keyword} {c : Cursor} (hw : b.closer? = some word)
    (h : c.kind? = some (.keyword word)) : b.atCloser c = true := by
  simp [Block.atCloser, hw, h]

theorem legible_close {b : Block} (form : Form (.close (α := α) b) ps)
    (fits : Fits (Legible k) ps ts rest) : Legible (α := α) k (.close b) ts rest := by
  intro opener
  refine .get fun last => ?_
  cases form with
  | closer hw =>
    simp only [fits_token, fits_nil] at fits
    obtain ⟨t, us, rfl, ht, -, rfl⟩ := fits
    rw [if_pos (atCloser_of_kind hw (by simp [Cursor.kind?, ht]))]
    exact fun _ => ⟨(), t.extent, rfl, trivial⟩
  | nextWord =>
    simp only [fits_token, fits_phrase, fits_nil] at fits
    obtain ⟨t, us, rfl, ht, -, _, hid, rfl⟩ := fits
    rw [if_neg (by simp [Block.atCloser, Block.closer?, Cursor.kind?, ht]),
      if_pos (by simp [Block.atNext, Cursor.kind?, ht])]
    exact .advance ((hid : Gives _ _ _ _).bind fun _ _ => .pure trivial)
  | pair hw =>
    simp only [fits_token, fits_nil] at fits
    obtain ⟨t, _, rfl, ht, -, t', us, rfl, ht', -, rfl⟩ := fits
    have hcloser : b.atCloser ⟨last, t :: t' :: us⟩ = false := by
      cases b <;> (try rename ProcedureKind => kind; cases kind) <;>
        simp [Block.atCloser, Block.closer?, Cursor.kind?, ht]
    rw [if_neg (by simp [hcloser]), if_neg (by simp [Block.atNext, Cursor.kind?, ht]),
      if_pos (by simp [Block.atPair, hw, Cursor.kind?, Cursor.kindAt?, ht, ht'])]
    exact .advance fun _ => ⟨(), t'.extent, rfl, trivial⟩

theorem legible_block {stop : Stop} {body : List (Statement α)} (form : Form (.block stop body) ps)
    (fits : Fits (Legible k) ps ts rest) : Legible k (.block stop body) ts rest := by
  have hp := blockItem_progress (sound_ofDepth k) stop.atEnd
  cases form with
  | blockNil =>
    simp only [fits_skip, fits_ahead, fits_nil] at fits
    obtain ⟨hend, rfl⟩ := fits
    refine (Gives.many_nil hp (.skipSeparators (.get fun last => ?_))).mono ?_
    · rw [if_pos]
      · exact .pure rfl
      · rw [Bool.or_eq_true, List.isEmpty_iff]
        exact hend.imp_right (stop.atEnd_ofTokens ⟨last, _⟩).symm.trans
    · rintro _ rfl
      rfl
  | blockCons =>
    rename_i s body
    simp only [fits_skip, fits_ahead, fits_phrase, fits_nil] at fits
    obtain ⟨⟨hne, hend⟩, mid, hs, hse, _, hbody, rfl⟩ := fits
    refine .many_cons hp (R := (·.shape = s.shape)) (.skipSeparators (.get fun last => ?_))
      (hbody : Gives _ _ _ _) fun s body hs hb => ?_
    · rw [if_neg]
      · refine (hs : Gives _ _ _ _).bind fun s hshape => .atStatementEnd ?_
        rw [if_pos hse]
        exact .pure ⟨s, rfl, hshape⟩
      · rw [stop.atEnd_ofTokens ⟨last, _⟩] at hend
        rw [hend, Bool.or_false, List.isEmpty_iff]
        exact hne
    · exact congrArg₂ List.cons hs hb

end Blocks

section Branches

theorem legible_inlineMore {body : List (Statement α)} (form : Form (.inlineMore body) ps)
    (fits : Fits (Legible k) ps ts rest) : Legible k (.inlineMore body) ts rest := by
  have hp := inlineItem_progress (sound_ofDepth k)
  cases form with
  | inlineNil =>
    simp only [fits_ahead, fits_nil] at fits
    obtain ⟨hk, rfl⟩ := fits
    refine (Gives.many_nil hp (.refused hk (.pure rfl))).mono ?_
    rintro _ rfl
    rfl
  | inlineEnd =>
    simp only [fits_token, fits_ahead, fits_nil] at fits
    obtain ⟨t, us, rfl, ht, -, hend, rfl⟩ := fits
    refine (Gives.many_nil hp (.accepted ht (.get fun last => ?_))).mono ?_
    · rw [if_pos (show (Cursor.mk last us).atInlineEnd = true from hend)]
      exact .pure rfl
    · rintro _ rfl
      rfl
  | inlineCons =>
    rename_i s body
    simp only [fits_token, fits_ahead, fits_phrase, fits_nil] at fits
    obtain ⟨t, us, rfl, ht, -, hend, mid, hs, _, hbody, rfl⟩ := fits
    refine .many_cons hp (R := (·.shape = s.shape)) (.accepted ht (.get fun last => ?_))
      (hbody : Gives _ _ _ _) fun s body hs hb => congrArg₂ List.cons hs hb
    rw [if_neg (show ¬(Cursor.mk last us).atInlineEnd = true by
      rw [show (Cursor.mk last us).atInlineEnd = false from hend]; simp)]
    exact (hs : Gives _ _ _ _).bind fun s hshape => .pure ⟨s, rfl, hshape⟩

theorem legible_inline {body : List (Statement α)} (form : Form (.inline body) ps)
    (fits : Fits (Legible k) ps ts rest) : Legible k (.inline body) ts rest := by
  cases form with
  | inline =>
    simp only [fits_phrase, fits_nil] at fits
    obtain ⟨mid, hs, _, hbody, rfl⟩ := fits
    refine (hs : Gives _ _ _ _).bind fun s hshape => ?_
    exact (hbody : Gives _ _ _ _).bind fun body hb => .pure (congrArg₂ List.cons hshape hb)

theorem legible_inlineElse {body : Option (List (Statement α))} (form : Form (.inlineElse body) ps)
    (fits : Fits (Legible k) ps ts rest) : Legible k (.inlineElse body) ts rest := by
  refine .peekKind ?_
  cases form with
  | noElse =>
    simp only [fits_ahead, fits_nil] at fits
    obtain ⟨⟨helse, helseIf⟩, rfl⟩ := fits
    split
    · exact absurd ‹_› helseIf
    · exact absurd ‹_› helse
    · exact .pure rfl
  | inlineElse =>
    simp only [fits_token, fits_phrase, fits_nil] at fits
    obtain ⟨t, us, rfl, ht, -, _, hbody, rfl⟩ := fits
    simp only [kindOf, List.head?_cons, Option.map_some, ht]
    exact .advance ((hbody : Gives _ _ _ _).bind fun body hb => .pure (congrArg some hb))
  | inlineElseIf =>
    simp only [fits_ahead, fits_phrase, fits_nil] at fits
    obtain ⟨hk, _, hs, rfl⟩ := fits
    simp only [hk]
    exact (hs : Gives _ _ _ _).bind fun s hshape => .pure (congrArg (fun s => some [s]) hshape)

theorem gives_inlineBranch {here : α} {condition : Expr α} {condition' : Expr Extent}
    {thenBody : List (Statement α)} {elseBody : Option (List (Statement α))}
    (hc : condition'.shape = condition.shape)
    (fits : Fits (Legible k) [.phrase (.inline thenBody), .phrase (.inlineElse elseBody)] ts rest) :
    Gives (inlineBranch (.ofDepth k) t condition') ts rest
      (·.shape = (Statement.branch here condition thenBody [] elseBody).shape) := by
  simp only [fits_phrase, fits_nil] at fits
  obtain ⟨mid, hthen, _, helse, rfl⟩ := fits
  refine (hthen : Gives _ _ _ _).bind fun thenBody' ht => ?_
  refine (helse : Gives _ _ _ _).bind fun elseBody' he => .extentFrom fun here => .pure ?_
  change Statement.branch () _ _ [] _ = Statement.branch () _ _ [] _
  rw [show mapBody? _ elseBody' = _ from he]
  exact congrArg₂ (Statement.branch () · · [] _) hc ht

theorem legible_chained {s : Statement α} (form : Form (.chained s) ps)
    {N : Phrase α → List Token → List Token → Prop} (fits : Fits (Known N) ps ts rest)
    (hk : ts.length < k + 1) : Legible (k + 1) (.chained s) ts rest := by
  cases form with
  | chained =>
    have fits := fits.legible_token hk
    obtain ⟨t, us, rfl, ht, -, fits⟩ := fits_token.1 fits
    obtain ⟨_, hc, fits⟩ := fits_phrase.1 fits
    obtain ⟨t', us', rfl, ht', -, fits⟩ := fits_token.1 fits
    refine .peek (.advance ((hc : Gives _ _ _ _).bind fun condition' hshape => ?_))
    exact .expect ht' (gives_inlineBranch hshape fits)

theorem legible_clause {condition : Expr α} {body : List (Statement α)}
    {clauses : List (ElseIf α)} {here : α}
    (fits : Fits (Legible k) [.value condition, .phrase (.accepted (.keyword .thenKw)),
      .phrase (.block .branch body), .phrase (.elseIfs clauses)] us rest)
    (hfirst : ts.head? = some t) (hk : ∀ last, (Cursor.mk last ts).atElseIf = true)
    (hkeyword : Gives (elseIfKeyword t) ts us fun _ => True) :
    Legible k (.elseIfs (.mk here condition body :: clauses)) ts rest := by
  simp only [fits_phrase, fits_nil] at fits
  obtain ⟨_, hc, _, hthen, _, hbody, _, hclauses, rfl⟩ := fits
  refine .many_cons (elseIf_progress (sound_ofDepth k))
    (R := fun clause => clause.map (fun _ => ()) = (ElseIf.mk here condition body).map fun _ => ())
    (.get fun last => ?_) (hclauses : Gives _ _ _ _) fun c cs hc hcs => congrArg₂ List.cons hc hcs
  simp only [Cursor.head?, hfirst, hk]
  refine hkeyword.bind fun keyword _ => ?_
  refine (hc : Gives _ _ _ _).bind fun condition' hshape => ?_
  refine (hthen : Gives _ _ _ _).bind fun _ _ => ?_
  refine (hbody : Gives _ _ _ _).bind fun body' hb => .pure ⟨_, rfl, ?_⟩
  exact congrArg₂ (ElseIf.mk ()) hshape hb

theorem legible_elseIfs {clauses : List (ElseIf α)} (form : Form (.elseIfs clauses) ps)
    (fits : Fits (Legible k) ps ts rest) : Legible k (.elseIfs clauses) ts rest := by
  cases form with
  | elseIfsNil =>
    simp only [fits_ahead, fits_nil] at fits
    obtain ⟨hk, rfl⟩ := fits
    refine (Gives.many_nil (elseIf_progress (sound_ofDepth k)) (.get fun last => ?_)).mono ?_
    · have hk : (Cursor.mk last ts).atElseIf = false := hk
      split
      · rename_i helse
        cases hk.symm.trans helse
      · exact .pure rfl
    · rintro _ rfl
      rfl
  | elseIfsOne =>
    obtain ⟨t, us, rfl, ht, -, fits⟩ := fits_token.1 fits
    refine legible_clause fits rfl (fun last => by simp [Cursor.atElseIf, Cursor.kind?, ht]) ?_
    refine .advance ?_
    rw [if_neg (by simp [ht])]
    exact fun last => ⟨_, last, rfl, trivial⟩
  | elseIfsTwo =>
    obtain ⟨t, _, rfl, ht, -, fits⟩ := fits_token.1 fits
    obtain ⟨t', us, rfl, ht', -, fits⟩ := fits_token.1 fits
    refine legible_clause fits rfl
      (fun last => by simp [Cursor.atElseIf, Cursor.kind?, Cursor.kindAt?, ht, ht']) ?_
    refine .advance ?_
    rw [if_pos ht]
    exact .advance fun last => ⟨_, last, rfl, trivial⟩

end Branches

section Directives

theorem next?_of_line {last : Extent} (ht : t.kind = .directive) :
    Directive.next? ⟨last, t :: ts⟩ = (Directive.ofLine t.text.toList).kind := by
  simp [Directive.next?, Cursor.head?, Directive.ofToken?, ht]

theorem legible_compileElseIfs {clauses : List (CompileElseIf α)}
    (form : Form (.compileElseIfs clauses) ps) (fits : Fits (Legible k) ps ts rest) :
    Legible k (.compileElseIfs clauses) ts rest := by
  have hp := compileElseIf_progress (sound_ofDepth k)
  cases form with
  | compileElseIfsNil =>
    simp only [fits_ahead, fits_nil] at fits
    obtain ⟨hk, rfl⟩ := fits
    refine (Gives.many_nil hp (.peek ?_)).mono ?_
    · split
      · rename_i hd
        exact absurd (congrArg (fun d => d.bind Directive.kind) hd) hk
      · exact .pure rfl
    · rintro _ rfl
      rfl
  | compileElseIfsCons =>
    rename_i body clauses
    simp only [fits_line, fits_phrase, fits_nil] at fits
    obtain ⟨t, us, rfl, ht, ⟨hkind, rfl⟩, _, hbody, _, hclauses, rfl⟩ := fits
    refine .many_cons hp (R := fun c => c.map (fun _ => ())
        = (CompileElseIf.mk (String.ofList (Directive.ofLine t.text.toList).args) body).map
          fun _ => ())
      (.peek ?_) (hclauses : Gives _ _ _ _) fun c cs hc hcs => congrArg₂ List.cons hc hcs
    simp only [List.head?_cons, Option.bind_some, Directive.ofToken?, ht, if_true]
    generalize Directive.ofLine t.text.toList = d at hkind
    obtain ⟨kind, name, args⟩ := d
    subst hkind
    refine .advance ((hbody : Gives _ _ _ _).bind fun body' hb => .pure ⟨_, rfl, ?_⟩)
    exact congrArg (CompileElseIf.mk _) hb

theorem legible_compileElse {body : Option (List (Statement α))}
    (form : Form (.compileElse body) ps) (fits : Fits (Legible k) ps ts rest) :
    Legible k (.compileElse body) ts rest := by
  refine .get fun last => ?_
  cases form with
  | compileElseNone =>
    simp only [fits_ahead, fits_nil] at fits
    obtain ⟨hk, rfl⟩ := fits
    rw [if_neg (show Directive.next? ⟨last, ts⟩ ≠ some .elseDir from hk)]
    exact .pure rfl
  | compileElse =>
    simp only [fits_line, fits_phrase, fits_nil] at fits
    obtain ⟨t, us, rfl, ht, hkind, _, hbody, rfl⟩ := fits
    rw [if_pos ((next?_of_line ht).trans hkind)]
    exact .advance ((hbody : Gives _ _ _ _).bind fun body hb => .pure (congrArg some hb))

end Directives

section Printing

theorem separateLast_separateLast (a b : PrintSeparator) (items : List (PrintItem Extent)) :
    separateLast a (separateLast b items) = separateLast a items := by
  obtain _ | ⟨⟨value, last⟩, items⟩ := items <;> rfl

theorem PrintSeparator.not_atStatementEnd {last : Extent} {separator : PrintSeparator}
    (h : (kindOf ts).bind ofKind? = some separator) :
    (Cursor.mk last ts).atStatementEnd = false := by
  change (kindOf ts).bind _ = _ at h
  simp only [Cursor.atStatementEnd, Cursor.kind?, ← kindOf.eq_def]
  generalize kindOf ts = kind at h
  split <;> first | rfl | cases h

theorem repeat_separator {kind : TokenKind} {separator : PrintSeparator}
    (hsep : PrintSeparator.ofKind? kind = some separator) (ht : t.kind = kind)
    (items : List (PrintItem Extent)) (last : Extent) :
    repeatFrom (printStep (.ofDepth k)) items ⟨last, t :: ts⟩
      = repeatFrom (printStep (.ofDepth k)) (separateLast separator items) ⟨t.extent, ts⟩ := by
  have hkind : (kindOf (t :: ts)).bind PrintSeparator.ofKind? = some separator := by
    simp [kindOf, ht, hsep]
  have hstep : printStep (.ofDepth k) items ⟨last, t :: ts⟩
      = .ok (some (separateLast separator items)) ⟨t.extent, ts⟩ := by
    simp only [printStep, atStatementEnd_bind, PrintSeparator.not_atStatementEnd hkind,
      Bool.false_eq_true, if_false, peekKind_bind]
    rw [show (Cursor.mk last (t :: ts)).kind?.bind _ = _ from hkind]
    rfl
  rw [repeatFrom_apply (printStep_progress (sound_ofDepth k)), hstep]

theorem legible_separators {last : Option PrintSeparator}
    (form : Form (.separators (α := α) last) ps) (fits : Fits (Legible k) ps ts rest) :
    Legible (α := α) k (.separators last) ts rest := by
  intro items l
  cases form with
  | noSeparator =>
    simp only [fits_ahead, fits_nil] at fits
    obtain ⟨-, rfl⟩ := fits
    exact ⟨l, rfl⟩
  | lastSeparator hsep =>
    rename_i last kind
    simp only [fits_token, fits_phrase, fits_nil] at fits
    obtain ⟨t, us, rfl, ht, -, _, hmore, rfl⟩ := fits
    obtain ⟨l', hrun⟩ := hmore (separateLast last items) t.extent
    exact ⟨l', (repeat_separator hsep ht items l).trans hrun⟩
  | separator hsep =>
    rename_i last other kind
    simp only [fits_token, fits_phrase, fits_nil] at fits
    obtain ⟨t, us, rfl, ht, -, _, hmore, rfl⟩ := fits
    obtain ⟨l', hrun⟩ := hmore (separateLast other items) t.extent
    refine ⟨l', (repeat_separator hsep ht items l).trans ?_⟩
    simpa only [Option.elim, separateLast_separateLast] using hrun

theorem expression_ne_separator {self : Recursion} {min : Precedence} {c c' : Cursor}
    {e : Expr Extent} (h : Parser.expression self min c = .ok e c') :
    c.kind?.bind PrintSeparator.ofKind? = none := by
  cases hsep : c.kind?.bind PrintSeparator.ofKind? with
  | none => rfl
  | some separator =>
    obtain ⟨kind, hk, hkind⟩ := Option.bind_eq_some_iff.1 hsep
    obtain ⟨t, ht, rfl⟩ := Cursor.exists_head hk
    obtain ⟨first, c₁, hf, -⟩ := bind_eq_ok.1 h
    simp only [unary, peek_bind, ht] at hf
    simp only [PrintSeparator.ofKind?] at hkind
    split at hkind
    · rename_i hk'
      simp only [hk', UnaryOp.ofKind?] at hf
      obtain ⟨p, c₂, hp, -⟩ := bind_eq_ok.1 hf
      simp only [primary, peek_bind, ht, hk'] at hp
      cases hp
    · rename_i hk'
      simp only [hk', UnaryOp.ofKind?] at hf
      obtain ⟨p, c₂, hp, -⟩ := bind_eq_ok.1 hf
      simp only [primary, peek_bind, ht, hk'] at hp
      cases hp
    · cases hkind

theorem legible_printed {items : List (PrintItem α)} (form : Form (.printed items) ps)
    (fits : Fits (Legible (k + 1)) ps ts rest) : Legible (k + 1) (.printed items) ts rest := by
  have hp := printStep_progress (sound_ofDepth (k + 1))
  intro before last
  cases form with
  | printedNil =>
    simp only [fits_ahead, fits_nil] at fits
    obtain ⟨hend, rfl⟩ := fits
    refine ⟨before, last, repeatFrom_stop ?_, [], rfl, rfl⟩
    simp only [printStep, atStatementEnd_bind]
    rw [if_pos (show (Cursor.mk last ts).atStatementEnd = true from hend)]
    rfl
  | printedCons =>
    rename_i e separator items
    simp only [fits_ahead, fits_phrase, fits_nil] at fits
    obtain ⟨hend, mid, hvalue, _, hsep, _, hmore, rfl⟩ := fits
    obtain ⟨value, last₁, hv, hshape⟩ := (hvalue : Gives _ _ _ _) last
    have hstep : printStep (.ofDepth (k + 1)) before ⟨last, ts⟩
        = .ok (some (.mk value none :: before)) ⟨last₁, mid⟩ := by
      simp only [printStep, atStatementEnd_bind]
      rw [if_neg (by rw [show (Cursor.mk last ts).atStatementEnd = false from hend]; simp)]
      simp only [peekKind_bind, expression_ne_separator hv]
      exact bind_of_ok hv
    obtain ⟨last₂, hrun⟩ := hsep (.mk value none :: before) last₁
    obtain ⟨items', last', hloop, more, hitems, hmap⟩ := hmore
      (separator.elim (.mk value none :: before) (separateLast · (.mk value none :: before))) last₂
    refine ⟨items', last', ?_, .mk value separator :: more, ?_, ?_⟩
    · rw [repeatFrom_apply hp, hstep]
      exact hrun.trans hloop
    · cases separator <;> simp [hitems, separateLast]
    · exact congrArg₂ List.cons (congrArg (PrintItem.mk · separator) hshape) hmap

end Printing

section Statements

variable {N : Phrase α → List Token → List Token → Prop}

theorem atLabel_eq_false {target : Expr Extent} {last last' : Extent}
    (hid : t.kind = .identifier)
    (h : operand (.ofDepth k) ⟨last, t :: ts⟩ = .ok target ⟨last', rest⟩)
    (hne : (∃ here, target = .identifier here t.text) → kindOf rest ≠ some (.symbol .colon)) :
    atLabel ⟨last, t :: ts⟩ = false := by
  by_contra hl
  simp only [Bool.not_eq_false, atLabel, Bool.and_eq_true, decide_eq_true_eq] at hl
  have hcolon : kindOf ts = some (.symbol .colon) :=
    ((Cursor.mk last (t :: ts)).kindAt?_one ▸ hl.1 :)
  have hprimary : primary (.ofDepth k) ⟨last, t :: ts⟩
      = .ok (.identifier (t.extent.through t.extent) t.text) ⟨t.extent, ts⟩ := by
    simp only [primary, peek_bind, Cursor.head?, List.head?_cons, hid]
    rfl
  have hoperand : operand (.ofDepth k) ⟨last, t :: ts⟩
      = .ok (.identifier (t.extent.through t.extent) t.text) ⟨t.extent, ts⟩ := by
    refine (bind_of_ok hprimary).trans ?_
    refine repeatFrom_stop (postfixStep_of_unattached ?_)
    simp [Unattached, attachments, hcolon]
  cases h.symm.trans hoperand
  exact hne ⟨_, rfl⟩ hcolon

theorem Expr.of_shape_identifier {e : Expr β} {name : String} (h : e.shape = .identifier () name) :
    ∃ here, e = .identifier here name := by
  cases e <;> cases h
  exact ⟨_, rfl⟩

theorem Expr.of_shape_member {e : Expr β} {object : Expr Unit} {name : String}
    (h : e.shape = .member () object name) :
    ∃ here object', e = .member here object' name ∧ object'.shape = object := by
  cases e <;> cases h
  exact ⟨_, _, rfl, rfl⟩

theorem Expr.of_shape_index {e : Expr β} {object index : Expr Unit}
    (h : e.shape = .index () object index) :
    ∃ here object' index', e = .index here object' index' ∧ object'.shape = object ∧
      index'.shape = index := by
  cases e <;> cases h
  exact ⟨_, _, _, rfl, rfl, rfl⟩

theorem Expr.of_shape_call {e : Expr β} {callee : Expr Unit} {args : List (Expr Unit)}
    (h : e.shape = .call () callee args) : ∃ here callee' args', e = .call here callee' args' := by
  cases e <;> cases h
  exact ⟨_, _, _, rfl⟩

def targetStatement (self : Recursion) (target : Expr Extent) : Parser (Statement Extent) := do
  let kind ← peekKind
  match kind.bind AssignOp.ofKind? with
  | some op =>
    advance
    let value ← self.expression .lowest
    assignTo (← extentFrom target.here) target op value
  | none =>
    if kind = some (.symbol .plusPlus) || kind = some (.symbol .minusMinus) then
      advance
      return .increment (← extentFrom target.here) target (kind = some (.symbol .minusMinus))
    else callStatement target

theorem operandStatement_eq (self : Recursion) :
    operandStatement self = operand self >>= targetStatement self := rfl

theorem legible_operandStatement {s : Statement α} {target : Expr α}
    (hid : kindOf ts = some .identifier) (htarget : Legible (k + 1) (.expression target) ts us)
    (hop : target.isOperand = true) (hu : Unattached us)
    (hne : (∃ name, target.shape = .identifier () name) → kindOf us ≠ some (.symbol .colon))
    (hafter : ∀ target' : Expr Extent, target'.shape = target.shape →
      Gives (targetStatement (.ofDepth k) target') us rest (·.shape = s.shape)) :
    Legible (k + 1) (.statement s) ts rest := by
  intro last
  obtain ⟨target', last₁, hrun, hshape⟩ := gives_operand htarget hop hu last
  obtain ⟨s', last', hs, hs'⟩ := hafter target' hshape last₁
  refine ⟨s', last', ?_, hs'⟩
  obtain _ | ⟨t, ts⟩ := ts
  · cases hid
  have ht : t.kind = .identifier := by simpa [kindOf] using hid
  have hlabel : atLabel ⟨last, t :: ts⟩ = false := by
    refine atLabel_eq_false ht hrun ?_
    rintro ⟨here, rfl⟩
    exact hne ⟨_, hshape.symm⟩
  change Parser.statement (.ofDepth k) ⟨last, t :: ts⟩ = _
  simp only [Parser.statement, peek_bind, Cursor.head?, List.head?_cons, ht, get_bind, hlabel,
    Bool.false_eq_true, if_false, operandStatement_eq]
  exact (bind_of_ok hrun).trans hs

theorem AssignOp.ofKind?_unattached {kind : TokenKind} {op : AssignOp}
    (h : ofKind? kind = some op) : some kind ∉ attachments ∧ kind ≠ .symbol .colon := by
  constructor
  · intro hmem
    simp only [attachments, List.mem_cons, List.not_mem_nil, or_false, Option.some.injEq] at hmem
    rcases hmem with rfl | rfl | rfl | rfl <;> cases h
  · rintro rfl
    cases h

theorem legible_assignment {s : Statement α} {target value : Expr α} {op : AssignOp}
    {kind : TokenKind} (hop : AssignOp.ofKind? kind = some op)
    (hid : kindOf ts = some .identifier) (hoperand : target.isOperand = true)
    (htarget : Legible (k + 1) (.expression target) ts (t :: us)) (ht : t.kind = kind)
    (hvalue : Legible k (.value value) us rest)
    (hassign : ∀ (target' value' : Expr Extent) here, target'.shape = target.shape →
      value'.shape = value.shape →
      Gives (assignTo here target' op value') rest rest (·.shape = s.shape)) :
    Legible (k + 1) (.statement s) ts rest := by
  obtain ⟨hu, hcolon⟩ := AssignOp.ofKind?_unattached hop
  refine legible_operandStatement hid htarget hoperand (by simpa [Unattached, kindOf, ht] using hu)
    (fun _ => by simpa [kindOf, ht] using hcolon) fun target' hshape => .peekKind ?_
  simp only [kindOf, List.head?_cons, Option.map_some, Option.bind_some, ht, hop]
  refine .advance ((hvalue : Gives _ _ _ _).bind fun value' hv => .extentFrom fun here => ?_)
  exact hassign target' value' here hshape hv

theorem legible_assign {here : α} {name : String} {op : AssignOp} {value : Expr α}
    (form : Form (.statement (.assign here name op value)) ps) (fits : Fits (Known N) ps ts rest)
    (hk : ts.length < k + 1) : Legible (k + 1) (.statement (.assign here name op value)) ts rest := by
  cases form with
  | assign hop =>
    rename_i there kind
    simp only [fits_phrase, fits_token, fits_nil] at fits
    obtain ⟨_, htarget, t, us, rfl, ht, -, _, hvalue, rfl⟩ := fits
    have hle := htarget.1.suffix.length_le
    have hid : kindOf ts = some .identifier := by
      obtain ⟨_, form, fits⟩ := htarget.1.form
      cases form with
      | identifier =>
        simp only [fits_token, fits_nil] at fits
        obtain ⟨t, us, rfl, ht, -, -⟩ := fits
        simp [kindOf, ht]
    simp only [List.length_cons] at hle
    refine legible_assignment hop hid rfl (htarget.2 _ hk) ht (hvalue.2 _ (by omega)) ?_
    intro target' value' here' htarget' hvalue'
    obtain ⟨there', rfl⟩ := Expr.of_shape_identifier htarget'
    exact .pure (congrArg (Statement.assign () name op) hvalue')

theorem legible_assignMember {here : α} {object : Expr α} {name : String} {op : AssignOp}
    {value : Expr α} (form : Form (.statement (.assignMember here object name op value)) ps)
    (fits : Fits (Known N) ps ts rest) (hk : ts.length < k + 1) :
    Legible (k + 1) (.statement (.assignMember here object name op value)) ts rest := by
  cases form with
  | assignMember hop =>
    simp only [fits_ahead, fits_phrase, fits_token, fits_nil] at fits
    obtain ⟨hid, _, htarget, t, us, rfl, ht, -, _, hvalue, rfl⟩ := fits
    have hle := htarget.1.suffix.length_le
    simp only [List.length_cons] at hle
    refine legible_assignment hop hid rfl (htarget.2 _ hk) ht (hvalue.2 _ (by omega)) ?_
    intro target' value' here' htarget' hvalue'
    obtain ⟨there', object', rfl, hobject⟩ := Expr.of_shape_member htarget'
    refine .pure ?_
    exact congrArg₂ (Statement.assignMember () · name op ·) hobject hvalue'

theorem legible_assignIndex {here : α} {object index : Expr α} {op : AssignOp} {value : Expr α}
    (form : Form (.statement (.assignIndex here object index op value)) ps)
    (fits : Fits (Known N) ps ts rest) (hk : ts.length < k + 1) :
    Legible (k + 1) (.statement (.assignIndex here object index op value)) ts rest := by
  cases form with
  | assignIndex hop =>
    simp only [fits_ahead, fits_phrase, fits_token, fits_nil] at fits
    obtain ⟨hid, _, htarget, t, us, rfl, ht, -, _, hvalue, rfl⟩ := fits
    have hle := htarget.1.suffix.length_le
    simp only [List.length_cons] at hle
    refine legible_assignment hop hid rfl (htarget.2 _ hk) ht (hvalue.2 _ (by omega)) ?_
    intro target' value' here' htarget' hvalue'
    obtain ⟨there', object', index', rfl, hobject, hindex⟩ := Expr.of_shape_index htarget'
    refine .pure ?_
    change Statement.assignIndex () _ _ _ _ = Statement.assignIndex () _ _ _ _
    rw [show object'.map _ = _ from hobject, show index'.map _ = _ from hindex,
      show value'.map _ = _ from hvalue']
    rfl

theorem legible_increment {here : α} {target : Expr α} {decrement : Bool}
    (form : Form (.statement (.increment here target decrement)) ps)
    (fits : Fits (Known N) ps ts rest) (hk : ts.length < k + 1) :
    Legible (k + 1) (.statement (.increment here target decrement)) ts rest := by
  cases form with
  | increment hop =>
    simp only [fits_ahead, fits_phrase, fits_token, fits_nil] at fits
    obtain ⟨hid, _, htarget, t, us, rfl, ht, -, rfl⟩ := fits
    refine legible_operandStatement hid (htarget.2 _ hk) hop
      (by simp [Unattached, attachments, kindOf, ht]) (by simp [kindOf, ht])
      fun target' hshape => .peekKind ?_
    simp only [kindOf, List.head?_cons, Option.map_some, Option.bind_some, ht, AssignOp.ofKind?]
    exact .advance (.extentFrom fun here => .pure (congrArg (Statement.increment () · false) hshape))
  | decrement hop =>
    simp only [fits_ahead, fits_phrase, fits_token, fits_nil] at fits
    obtain ⟨hid, _, htarget, t, us, rfl, ht, -, rfl⟩ := fits
    refine legible_operandStatement hid (htarget.2 _ hk) hop
      (by simp [Unattached, attachments, kindOf, ht]) (by simp [kindOf, ht])
      fun target' hshape => .peekKind ?_
    simp only [kindOf, List.head?_cons, Option.map_some, Option.bind_some, ht, AssignOp.ofKind?]
    exact .advance (.extentFrom fun here => .pure (congrArg (Statement.increment () · true) hshape))

theorem legible_call {here : α} {value : Expr α}
    (form : Form (.statement (.call here value)) ps) (fits : Fits (Known N) ps ts rest)
    (hk : ts.length < k + 1) : Legible (k + 1) (.statement (.call here value)) ts rest := by
  cases form with
  | callStatement =>
    simp only [fits_ahead, fits_phrase, fits_nil] at fits
    obtain ⟨hid, _, htarget, hu, ⟨hassign, hplus, hminus⟩, rfl⟩ := fits
    refine legible_operandStatement hid (htarget.2 _ hk) rfl hu (by rintro ⟨_, ⟨⟩⟩)
      fun target' hshape => .peekKind ?_
    simp only [hassign, hplus, hminus, decide_false, Bool.or_self, Bool.false_eq_true, if_false]
    obtain ⟨there', callee', args', rfl⟩ := Expr.of_shape_call hshape
    exact .peek (.extentFrom fun here => .pure (congrArg (Statement.call ()) hshape))

theorem legible_namedProcedure {here : α} {name : String} {decl : Procedure α}
    (form : Form (.statement (.procedure here name decl)) ps) (fits : Fits (Known N) ps ts rest)
    (hk : ts.length < k + 1) : Legible (k + 1) (.statement (.procedure here name decl)) ts rest := by
  cases form with
  | namedProcedure =>
    have fits := fits.legible_token hk
    simp only [fits_token, fits_phrase, fits_nil] at fits
    obtain ⟨t, _, rfl, ht, -, t', us, rfl, ht', rfl, _, hdecl, rfl⟩ := fits
    refine .peek ?_
    simp only [List.head?_cons]
    cases hkw : decl.keyword <;>
    · simp only [hkw, ProcedureKind.word] at ht
      simp only [ht]
      refine .advance (.expect ht' ((hkw ▸ hdecl t.span : Gives _ _ _ _).bind fun decl' hd =>
        .extentFrom fun here => .pure ?_))
      exact congrArg (Statement.procedure () t'.text) hd

theorem legible_branch {here : α} {condition : Expr α} {thenBody : List (Statement α)}
    {elseIfs : List (ElseIf α)} {elseBody : Option (List (Statement α))}
    (form : Form (.statement (.branch here condition thenBody elseIfs elseBody)) ps)
    (fits : Fits (Known N) ps ts rest) (hk : ts.length < k + 1) :
    Legible (k + 1) (.statement (.branch here condition thenBody elseIfs elseBody)) ts rest := by
  cases form with
  | blockBranch =>
    have fits := fits.legible_token hk
    simp only [fits_token, fits_phrase, fits_ahead, fits_nil] at fits
    obtain ⟨t, us, rfl, ht, -, _, hc, us', hthen, hform, _, hbody, _, hclauses, _, helse, _, hclose,
      rfl⟩ := fits
    refine .peek ?_
    simp only [List.head?_cons, ht]
    refine .advance ((hc : Gives _ _ _ _).bind fun condition' hshape => ?_)
    refine (hthen : Gives _ _ _ _).bind fun _ _ => .get fun last => ?_
    rw [if_pos (show (Cursor.mk last us').atBlockForm = true from hform)]
    refine (hbody : Gives _ _ _ _).bind fun body' hb => ?_
    refine (hclauses : Gives _ _ _ _).bind fun clauses' hcl => ?_
    refine (helse (.block (.block .branch)) elseBody _
      (fun (b : List (Statement Extent)) c => shapes b = shapes c) rfl (fun _ => rfl)
      fun c us vs h => h).bind fun elseBody' he => ?_
    refine (hclose t.span).bind fun _ _ => .extentFrom fun here => .pure ?_
    have he : elseBody'.map shapes = elseBody.map shapes := optionRel_map_eq he
    change Statement.branch () _ _ _ _ = Statement.branch () _ _ _ _
    rw [show condition'.map _ = _ from hshape, show mapBody _ body' = _ from hb,
      show mapElseIfs _ clauses' = _ from hcl, mapBody?_eq_map, mapBody?_eq_map,
      show elseBody'.map (mapBody _) = _ from he]
    rfl
  | inlineBranch =>
    have fits := fits.legible_token hk
    obtain ⟨t, us, rfl, ht, -, fits⟩ := fits_token.1 fits
    obtain ⟨_, hc, fits⟩ := fits_phrase.1 fits
    obtain ⟨t', us', rfl, ht', -, fits⟩ := fits_token.1 fits
    obtain ⟨hform, fits⟩ := fits_ahead.1 fits
    refine .peek ?_
    simp only [List.head?_cons, ht]
    refine .advance ((hc : Gives _ _ _ _).bind fun condition' hshape => ?_)
    refine .accepted ht' (.get fun last => ?_)
    rw [if_neg (by rw [show (Cursor.mk last us').atBlockForm = false from hform]; simp), if_pos rfl]
    exact gives_inlineBranch hshape fits

theorem legible_forLoop {here : α} {counter : String} {first last : Expr α}
    {step : Option (Expr α)} {body : List (Statement α)}
    (form : Form (.statement (.forLoop here counter first last step body)) ps)
    (fits : Fits (Known N) ps ts rest) (hk : ts.length < k + 1) :
    Legible (k + 1) (.statement (.forLoop here counter first last step body)) ts rest := by
  cases form with
  | forLoop =>
    have fits := fits.legible_token hk
    simp only [fits_token, fits_phrase, fits_nil] at fits
    obtain ⟨t, _, rfl, ht, -, t₁, _, rfl, ht₁, rfl, t₂, us, rfl, ht₂, -, _, hfirst, t₃, us', rfl, ht₃,
      -, _, hlast, _, hstep, _, hbody, _, hclose, rfl⟩ := fits
    refine .peek ?_
    simp only [List.head?_cons, ht]
    refine .advance (.refused (by simp [kindOf, ht₁]) ?_)
    refine .expect ht₁ (.expect ht₂ ((hfirst : Gives _ _ _ _).bind fun first' hf => ?_))
    refine .expect ht₃ ((hlast : Gives _ _ _ _).bind fun last' hl => ?_)
    refine (hstep .value step _ (fun (b : Expr Extent) e => b.shape = e.shape) rfl
      (fun _ => rfl) fun e us vs h => h).bind fun step' hst => ?_
    refine (hbody : Gives _ _ _ _).bind fun body' hb => ?_
    refine (hclose t.span).bind fun _ _ => .extentFrom fun here => .pure ?_
    have hst : step'.map Expr.shape = step.map Expr.shape := optionRel_map_eq hst
    change Statement.forLoop () _ _ _ _ _ = Statement.forLoop () _ _ _ _ _
    rw [show first'.map _ = _ from hf, show last'.map _ = _ from hl,
      show mapBody _ body' = _ from hb, mapExpr?_eq_map, mapExpr?_eq_map,
      show step'.map (Expr.map _) = _ from hst]
    rfl

theorem legible_forEach {here : α} {item : String} {target : Expr α} {body : List (Statement α)}
    (form : Form (.statement (.forEach here item target body)) ps)
    (fits : Fits (Known N) ps ts rest) (hk : ts.length < k + 1) :
    Legible (k + 1) (.statement (.forEach here item target body)) ts rest := by
  cases form with
  | forEach =>
    have fits := fits.legible_token hk
    simp only [fits_token, fits_phrase, fits_nil] at fits
    obtain ⟨t, _, rfl, ht, -, t₁, _, rfl, ht₁, -, t₂, _, rfl, ht₂, rfl, t₃, us, rfl, ht₃, -, _, htarget,
      _, hbody, _, hclose, rfl⟩ := fits
    refine .peek ?_
    simp only [List.head?_cons, ht]
    refine .advance (.accepted ht₁ (.expect ht₂ (.expect ht₃ ?_)))
    refine (htarget : Gives _ _ _ _).bind fun target' hshape => ?_
    refine (hbody : Gives _ _ _ _).bind fun body' hb => ?_
    refine (hclose t.span).bind fun _ _ => .extentFrom fun here => .pure ?_
    exact congrArg₂ (Statement.forEach () t₂.text) hshape hb

theorem legible_whileLoop {here : α} {condition : Expr α} {body : List (Statement α)}
    (form : Form (.statement (.whileLoop here condition body)) ps)
    (fits : Fits (Known N) ps ts rest) (hk : ts.length < k + 1) :
    Legible (k + 1) (.statement (.whileLoop here condition body)) ts rest := by
  cases form with
  | whileLoop =>
    have fits := fits.legible_token hk
    simp only [fits_token, fits_phrase, fits_nil] at fits
    obtain ⟨t, us, rfl, ht, -, _, hc, _, hbody, _, hclose, rfl⟩ := fits
    refine .peek ?_
    simp only [List.head?_cons, ht]
    refine .advance ((hc : Gives _ _ _ _).bind fun condition' hshape => ?_)
    refine (hbody : Gives _ _ _ _).bind fun body' hb => ?_
    refine (hclose t.span).bind fun _ _ => .extentFrom fun here => .pure ?_
    exact congrArg₂ (Statement.whileLoop ()) hshape hb

theorem legible_print {here : α} {items : List (PrintItem α)}
    (form : Form (.statement (.print here items)) ps) (fits : Fits (Known N) ps ts rest)
    (hk : ts.length < k + 1) : Legible (k + 1) (.statement (.print here items)) ts rest := by
  cases form with
  | print hkind =>
    rename_i lead kind
    have fits := fits.legible_token hk
    simp only [fits_token, fits_phrase, fits_nil] at fits
    obtain ⟨t, us, rfl, ht, -, _, hlead, us', hitems, rfl⟩ := fits
    have hloop : Gives (repeatFrom (printStep (.ofDepth k)) []) us us' fun items' =>
        mapPrintItems (fun _ => ()) items'.reverse = mapPrintItems (fun _ => ()) items := by
      intro last
      obtain ⟨last₁, hrun⟩ := hlead [] last
      obtain ⟨items', last', hprint, more, hmore, hmap⟩ := hitems [] last₁
      refine ⟨items', last', ?_, by simpa [hmore] using hmap⟩
      have hnone : lead.elim [] (separateLast · []) = ([] : List (PrintItem Extent)) := by
        cases lead <;> rfl
      rw [hnone] at hrun
      exact hrun.trans hprint
    have hprint : Gives (print (.ofDepth k) t) (t :: us) us'
        (·.shape = (Statement.print here items).shape) :=
      .advance (hloop.bind fun items' hmap => .extentFrom fun here =>
        .pure (congrArg (Statement.print ()) hmap))
    refine .peek ?_
    simp only [List.mem_cons, List.not_mem_nil, or_false] at hkind
    rcases hkind with rfl | rfl
    · simp only [List.head?_cons, ht]
      exact hprint
    · simp only [List.head?_cons, ht]
      exact hprint

theorem legible_giveBack {here : α} {value : Option (Expr α)}
    (form : Form (.statement (.giveBack here value)) ps) (fits : Fits (Known N) ps ts rest)
    (hk : ts.length < k + 1) : Legible (k + 1) (.statement (.giveBack here value)) ts rest := by
  cases form with
  | giveNothing =>
    simp only [fits_token, fits_ahead, fits_nil] at fits
    obtain ⟨t, us, rfl, ht, -, hend, rfl⟩ := fits
    refine .peek ?_
    simp only [List.head?_cons, ht]
    refine .advance (.atStatementEnd ?_)
    rw [if_pos hend]
    exact .extentFrom fun here => .pure rfl
  | giveBack =>
    have fits := fits.legible_token hk
    simp only [fits_token, fits_ahead, fits_phrase, fits_nil] at fits
    obtain ⟨t, us, rfl, ht, -, hend, _, hvalue, rfl⟩ := fits
    refine .peek ?_
    simp only [List.head?_cons, ht]
    refine .advance (.atStatementEnd ?_)
    rw [if_neg (by simp [hend])]
    refine (hvalue : Gives _ _ _ _).bind fun value' hv => .extentFrom fun here => .pure ?_
    exact congrArg (fun e => Statement.giveBack () (some e)) hv

theorem legible_dim {here : α} {name : String} {dimensions : List (Expr α)}
    (form : Form (.statement (.dim here name dimensions)) ps) (fits : Fits (Known N) ps ts rest)
    (hk : ts.length < k + 1) : Legible (k + 1) (.statement (.dim here name dimensions)) ts rest := by
  have hp : StepProgress (Parser.after (.symbol .comma) ((Recursion.ofDepth k).expression .lowest)) :=
    after_progress _ fun h => (expression_row (sound_ofDepth k) h).imp fun _ hj => ⟨hj.1, hj.2.1⟩
  cases form with
  | dim =>
    rename_i size sizes
    have fits := fits.legible_token hk
    simp only [fits_token, fits_phrase, fits_nil] at fits
    obtain ⟨t, _, rfl, ht, -, t₁, _, rfl, ht₁, rfl, t₂, us, rfl, ht₂, -, _, hsize, _, hsizes, t₃, us',
      rfl, ht₃, -, rfl⟩ := fits
    refine .peek ?_
    simp only [List.head?_cons, ht]
    refine .advance (.expect ht₁ (.expect ht₂ ((hsize : Gives _ _ _ _).bind fun size' hs => ?_)))
    refine (hsizes .value sizes _ (fun (b : Expr Extent) e => b.shape = e.shape) rfl
      (fun _ => rfl) hp fun e us vs h => h).bind fun sizes' hss => ?_
    refine .expect ht₃ (.extentFrom fun here => .pure ?_)
    refine congrArg (Statement.dim () t₁.text) ?_
    rw [mapExprs_eq_map, mapExprs_eq_map]
    exact congrArg₂ List.cons hs (forall₂_map_eq hss)

theorem legible_exit {here : α} {loop : LoopKind} (form : Form (.statement (.exit here loop)) ps)
    (fits : Fits (Known N) ps ts rest) : Legible (k + 1) (.statement (.exit here loop)) ts rest := by
  cases form with
  | exitWhile =>
    simp only [fits_token, fits_nil] at fits
    obtain ⟨t, us, rfl, ht, -, rfl⟩ := fits
    refine .peek ?_
    simp only [List.head?_cons, ht]
    refine .advance ?_
    rw [if_pos ht]
    exact Gives.bind (.pure rfl) fun loop h => .extentFrom fun here =>
      .pure (congrArg (Statement.exit ()) h.symm)
  | exitConditional =>
    simp only [fits_token, fits_nil] at fits
    obtain ⟨t, _, rfl, ht, -, t', us, rfl, ht', -, rfl⟩ := fits
    refine .peek ?_
    simp only [List.head?_cons, ht]
    refine .advance ?_
    rw [if_neg (by simp [ht])]
    refine Gives.bind (.refused (by simp [kindOf, ht']) (.accepted ht' (.pure rfl))) fun loop h =>
      .extentFrom fun here => .pure (congrArg (Statement.exit ()) h.symm)
  | exitCounted =>
    simp only [fits_token, fits_nil] at fits
    obtain ⟨t, _, rfl, ht, -, t', us, rfl, ht', -, rfl⟩ := fits
    refine .peek ?_
    simp only [List.head?_cons, ht]
    refine .advance ?_
    rw [if_neg (by simp [ht])]
    refine Gives.bind (.accepted ht' (.pure rfl)) fun loop h =>
      .extentFrom fun here => .pure (congrArg (Statement.exit ()) h.symm)

theorem legible_endProgram {here : α} (form : Form (.statement (.endProgram here)) ps)
    (fits : Fits (Known N) ps ts rest) : Legible (k + 1) (.statement (.endProgram here)) ts rest := by
  cases form with
  | endProgram =>
    simp only [fits_token, fits_ahead, fits_nil] at fits
    obtain ⟨t, us, rfl, ht, -, hword, rfl⟩ := fits
    refine .peek ?_
    simp only [List.head?_cons, ht]
    refine .advance (.extentFrom fun here' => .peek ?_)
    cases us with
    | nil => exact .pure rfl
    | cons next us =>
      simp only [List.head?_cons]
      rw [if_neg (by simpa [kindOf] using hword)]
      exact .pure rfl

theorem legible_label {here : α} {name : String} (form : Form (.statement (.label here name)) ps)
    (fits : Fits (Known N) ps ts rest) : Legible (k + 1) (.statement (.label here name)) ts rest := by
  cases form with
  | label =>
    simp only [fits_token, fits_ahead, fits_nil] at fits
    obtain ⟨t, _, rfl, ht, rfl, t', us, rfl, ht', -, hend, rfl⟩ := fits
    refine .peek ?_
    simp only [List.head?_cons, ht]
    refine .get fun last => ?_
    have hlabel : atLabel ⟨last, t :: t' :: us⟩ = true := by
      have hend : (Cursor.mk last (t :: t' :: us)).kindAt? 2 = none ∨
          (Cursor.mk last (t :: t' :: us)).kindAt? 2 = some .newline := by
        rw [Cursor.kindAt?_two]
        exact hend
      simp [atLabel, hend, Cursor.kindAt?_one, Cursor.next, Cursor.kind?, ht']
    rw [if_pos hlabel]
    exact .advance (.advance (.extentFrom fun here => .pure rfl))

theorem legible_compileIf {here : α} {condition : String} {thenBody : List (Statement α)}
    {elseIfs : List (CompileElseIf α)} {elseBody : Option (List (Statement α))}
    (form : Form (.statement (.compileIf here condition thenBody elseIfs elseBody)) ps)
    (fits : Fits (Known N) ps ts rest) (hk : ts.length < k + 1) :
    Legible (k + 1) (.statement (.compileIf here condition thenBody elseIfs elseBody)) ts rest := by
  cases form with
  | compileIf =>
    have fits := fits.legible_line hk
    simp only [fits_line, fits_phrase, fits_nil] at fits
    obtain ⟨t, us, rfl, ht, ⟨hkind, rfl⟩, _, hbody, _, hclauses, _, helse, t', us', rfl, ht', hkind',
      rfl⟩ := fits
    refine .peek ?_
    simp only [List.head?_cons, ht]
    refine .advance ?_
    simp only [hkind]
    refine (hbody : Gives _ _ _ _).bind fun body' hb => ?_
    refine (hclauses : Gives _ _ _ _).bind fun clauses' hcl => ?_
    refine (helse : Gives _ _ _ _).bind fun elseBody' he => .get fun last => ?_
    simp only [next?_of_line ht', hkind']
    refine .advance (.extentFrom fun here => .pure ?_)
    change Statement.compileIf () _ _ _ _ = Statement.compileIf () _ _ _ _
    rw [show mapBody _ body' = _ from hb, show mapCompileElseIfs _ clauses' = _ from hcl,
      show mapBody? _ elseBody' = _ from he]
    rfl

theorem legible_directive {here : α} {name args : String}
    (form : Form (.statement (.directive here name args)) ps) (fits : Fits (Known N) ps ts rest) :
    Legible (k + 1) (.statement (.directive here name args)) ts rest := by
  cases form with
  | directive =>
    simp only [fits_line, fits_nil] at fits
    obtain ⟨t, us, rfl, ht, ⟨hkind, rfl, rfl⟩, rfl⟩ := fits
    refine .peek ?_
    simp only [List.head?_cons, ht]
    refine .advance ?_
    rcases hkind with hkind | hkind <;>
    · simp only [hkind]
      exact .extentFrom fun here => .pure rfl

theorem legible_statement {s : Statement α} (form : Form (.statement s) ps)
    (fits : Fits (Known N) ps ts rest) (hk : ts.length < k + 1) :
    Legible (k + 1) (.statement s) ts rest := by
  cases s with
  | procedure => exact legible_namedProcedure form fits hk
  | branch => exact legible_branch form fits hk
  | forLoop => exact legible_forLoop form fits hk
  | forEach => exact legible_forEach form fits hk
  | whileLoop => exact legible_whileLoop form fits hk
  | call => exact legible_call form fits hk
  | assign => exact legible_assign form fits hk
  | assignMember => exact legible_assignMember form fits hk
  | assignIndex => exact legible_assignIndex form fits hk
  | print => exact legible_print form fits hk
  | giveBack => exact legible_giveBack form fits hk
  | increment => exact legible_increment form fits hk
  | dim => exact legible_dim form fits hk
  | goto =>
    cases form with
    | goto =>
      simp only [fits_token, fits_nil] at fits
      obtain ⟨t, _, rfl, ht, -, t', us, rfl, ht', rfl, rfl⟩ := fits
      refine .peek ?_
      simp only [List.head?_cons, ht]
      exact .advance (.expect ht' (.extentFrom fun here => .pure rfl))
  | label => exact legible_label form fits
  | exit => exact legible_exit form fits
  | endProgram => exact legible_endProgram form fits
  | stop =>
    cases form with
    | stop =>
      simp only [fits_token, fits_nil] at fits
      obtain ⟨t, us, rfl, ht, -, rfl⟩ := fits
      refine .peek ?_
      simp only [List.head?_cons, ht]
      exact .advance (.extentFrom fun here => .pure rfl)
  | library =>
    cases form with
    | library =>
      simp only [fits_token, fits_nil] at fits
      obtain ⟨t, _, rfl, ht, -, t', us, rfl, ht', rfl, rfl⟩ := fits
      refine .peek ?_
      simp only [List.head?_cons, ht]
      exact .advance (.expect ht' (.extentFrom fun here => .pure rfl))
  | compileIf => exact legible_compileIf form fits hk
  | directive => exact legible_directive form fits

end Statements

section Programs

variable {N : Phrase α → List Token → List Token → Prop}

/-- Every phrase that tokens spell can be read back from them. -/
theorem Spells.legible {ph : Phrase α} (h : Spells N ph ts rest) (hk : ts.length < k) :
    Legible k ph ts rest := by
  refine Spells.induct (Q := fun ph ts rest => ∀ k, ts.length < k → Legible k ph ts rest)
    (fun ph ps ts rest form _ fits k hk => ?_) h k hk
  obtain ⟨k, rfl⟩ : ∃ k', k = k' + 1 := ⟨k - 1, by omega⟩
  have hfits : Fits (Legible (k + 1)) ps ts rest := Fits.legible fits hk
  cases ph with
  | expression => exact legible_expression form fits hk
  | value => exact legible_value form hfits
  | argument => exact legible_argument form hfits
  | entry => exact legible_entry form hfits
  | parameter => exact legible_parameter form hfits
  | word => exact legible_word form hfits
  | list => exact legible_list form hfits
  | more => exact legible_more form hfits
  | items => exact legible_items form hfits
  | maybe => exact legible_maybe form hfits
  | accepted => exact legible_accepted form hfits
  | procedure => exact legible_procedure form hfits
  | statement => exact legible_statement form fits hk
  | chained => exact legible_chained form fits hk
  | block => exact legible_block form hfits
  | inline => exact legible_inline form hfits
  | inlineMore => exact legible_inlineMore form hfits
  | inlineElse => exact legible_inlineElse form hfits
  | elseIfs => exact legible_elseIfs form hfits
  | close => exact legible_close form hfits
  | separators => exact legible_separators form hfits
  | printed => exact legible_printed form hfits
  | compileElseIfs => exact legible_compileElseIfs form hfits
  | compileElse => exact legible_compileElse form hfits

theorem readStatements_of_block {self : Recursion} (hs : self.Sound) {rounds : Nat}
    {body : List (Statement Extent)} {c c' : Cursor} (hr : c.rest.length < rounds)
    (h : block self Stop.never.atEnd c = .ok body c') :
    readStatements self rounds c = ⟨body, []⟩ := by
  -- A file is read like a block that never ends, round for round, as long as there is no error.
  induction rounds generalizing c body with
  | zero => omega
  | succ rounds ih =>
    have hle : c.skipSeparators.rest.length ≤ c.rest.length := by
      rw [Cursor.skipSeparators, skip_rest]
      exact (List.dropWhile_suffix _).length_le
    rw [block, many_apply (blockItem_progress hs _)] at h
    rcases hitem : blockItem self Stop.never.atEnd c with ⟨_ | s, c₁⟩ | ⟨e, c₁⟩
    · rw [hitem] at h
      cases h
      simp only [blockItem, skipSeparators_bind, get_bind] at hitem
      split at hitem
      · rename_i hempty
        have hempty : c.skipSeparators.rest.isEmpty = true := by
          simpa [Stop.atEnd] using hempty
        simp only [readStatements, hempty, if_true]
        rfl
      · obtain ⟨s, c₂, -, hitem⟩ := bind_eq_ok.1 hitem
        simp only [atStatementEnd_bind] at hitem
        split at hitem
        · cases hitem
        · exact absurd hitem expected_ne_ok
    · rw [hitem] at h
      obtain ⟨body, c₂, hblock, hbody⟩ := bind_eq_ok.1 h
      cases hbody
      have hlt := blockItem_progress hs _ _ _ _ hitem
      simp only [blockItem, skipSeparators_bind, get_bind] at hitem
      split at hitem
      · cases hitem
      · rename_i hempty
        have hempty : ¬c.skipSeparators.rest.isEmpty = true := by
          simpa [Stop.atEnd] using hempty
        have hwhole : wholeStatement self c.skipSeparators = .ok s c₁ := by
          obtain ⟨s, c₂, hst, hitem⟩ := bind_eq_ok.1 hitem
          simp only [atStatementEnd_bind] at hitem
          refine (bind_of_ok hst).trans ?_
          simp only [atStatementEnd_bind]
          split at hitem
          · rename_i hse
            cases hitem
            rw [if_pos hse]
            rfl
          · exact absurd hitem expected_ne_ok
        simp only [readStatements, if_neg hempty, hwhole, ih (by omega) hblock]
        rfl
    · rw [hitem] at h
      cases h

theorem parseTokens_of_spells {program : List (Statement α)}
    (h : Spells N (.block .never program) ts []) (hknown : ∀ t ∈ ts, t.kind ≠ .unknown) :
    ∃ program', parseTokens ts = .ok program' ∧ shapes program' = shapes program := by
  obtain ⟨body, last', hblock, hshape⟩ : ∃ body last', block (.ofDepth (ts.length + 1))
      Stop.never.atEnd (.ofTokens ts) = .ok body ⟨last', []⟩ ∧ shapes body = shapes program :=
    h.legible (Nat.lt_succ_self _) _
  have hread : readStatements (.ofDepth (ts.length + 1)) (ts.length + 1) (.ofTokens ts)
      = ⟨body, []⟩ := readStatements_of_block (sound_ofDepth _) (Nat.lt_succ_self _) hblock
  have hinvalid : invalidCharacters ts = [] := by
    simp only [invalidCharacters, List.map_eq_nil_iff, List.filter_eq_nil_iff, decide_eq_true_eq]
    exact hknown
  refine ⟨body, ?_, hshape⟩
  simp only [parseTokens, hinvalid, hread, List.append_nil]

end Programs

end BrightCoverage
