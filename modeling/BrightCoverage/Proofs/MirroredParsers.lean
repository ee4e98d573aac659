import BrightCoverage.Proofs.Mirroring

/-! Every parser mirrors itself. One lemma for each parser follows its steps; the parsers that refer
to each other in a circle are then mirrored at every depth. -/

namespace BrightCoverage

open BrightCoverage.Parser

variable {α β : Type} {m : Mirror}

/-! ### What is looked at -/

theorem Directive.ofToken?_copy (h : Copy) (t : Token) :
    (ofToken? t = none ∧ ofToken? (h.token t) = none) ∨
      ∃ l l', ofToken? t = some l ∧ ofToken? (h.token t) = some l' ∧ l.IsCopy h.name l' := by
  by_cases hk : t.kind = .directive
  · refine .inr ⟨_, _, if_pos hk, if_pos hk, ?_⟩
    have hcopy := h.ofLine_text t.text
    rwa [← hk] at hcopy
  · exact .inl ⟨if_neg hk, if_neg hk⟩

theorem keyword_ne_newline (word : Keyword) : TokenKind.keyword word ≠ .newline :=
  nofun

namespace Mirror

variable {o o' : Option Token} {c d : Cursor}

theorem Sees.directive (h : m.Sees o o') :
    (o.bind Directive.ofToken? = none ∧ o'.bind Directive.ofToken? = none) ∨
      ∃ l l', o.bind Directive.ofToken? = some l ∧ o'.bind Directive.ofToken? = some l' ∧
        l.IsCopy m.copy.name l' := by
  rcases h with rfl | ⟨-, ⟨t, rfl, hkind, -⟩, halike⟩
  · cases o with
    | none => exact .inl ⟨rfl, rfl⟩
    | some t => exact Directive.ofToken?_copy m.copy t
  · refine .inl ⟨if_neg (by rw [hkind]; nofun), ?_⟩
    cases o' with
    | none => rfl
    | some t' =>
      have hkind' : t'.kind = .newline := by simpa [Indistinct] using halike
      exact if_neg (by rw [hkind']; nofun)

theorem Looks.directive (h : m.Looks c d) : Directive.next? d = Directive.next? c := by
  unfold Directive.next?
  rcases h.head.directive with ⟨hc, hd⟩ | ⟨l, l', hc, hd, hcopy⟩
  · rw [hc, hd]
  · rw [hc, hd]
    exact hcopy.kind

theorem Looks.kind_iff (h : m.Looks c d) {k : TokenKind} (hk : k ≠ .newline) :
    d.kind? = some k ↔ c.kind? = some k :=
  h.kind.eq_some_iff hk

theorem Looks.pair_iff (h : m.Looks c d) {k l : TokenKind} (hk : k ≠ .newline)
    (hl : l ≠ .newline) : d.kind? = some k ∧ d.kindAt? 1 = some l ↔
      c.kind? = some k ∧ c.kindAt? 1 = some l := by
  rw [h.kind_iff hk]
  refine and_congr_right fun hc => (h.second ?_).eq_some_iff hl
  rw [hc]
  exact fun heq => hk (Option.some.inj heq)

theorem Looks.atCloser (h : m.Looks c d) (b : Block) : b.atCloser d = b.atCloser c := by
  unfold Block.atCloser
  cases b.closer? with
  | none => rfl
  | some word => simp only [h.kind_iff (keyword_ne_newline word)]

theorem Looks.atNext (h : m.Looks c d) (b : Block) : b.atNext d = b.atNext c := by
  simp only [Block.atNext, h.kind_iff (keyword_ne_newline .nextKw)]

theorem Looks.atPair (h : m.Looks c d) (b : Block) : b.atPair d = b.atPair c := by
  unfold Block.atPair
  cases b.opener? with
  | none => rfl
  | some word =>
    simp only [← Bool.decide_and,
      h.pair_iff (keyword_ne_newline .endKw) (keyword_ne_newline word)]

theorem Looks.atEnd (h : m.Looks c d) (b : Block) : b.atEnd d = b.atEnd c := by
  simp only [Block.atEnd, h.atCloser, h.atNext, h.atPair]

theorem Looks.atElseIf (h : m.Looks c d) : d.atElseIf = c.atElseIf := by
  simp only [Cursor.atElseIf, ← Bool.decide_and, h.kind_iff (keyword_ne_newline .elseIfKw),
    h.pair_iff (keyword_ne_newline .elseKw) (keyword_ne_newline .ifKw)]

theorem Looks.atBranchEnd (h : m.Looks c d) : d.atBranchEnd = c.atBranchEnd := by
  simp only [Cursor.atBranchEnd, h.atElseIf, h.atEnd, h.kind_iff (keyword_ne_newline .elseKw)]

theorem Looks.atBlockForm (h : m.Looks c d) : d.atBlockForm = c.atBlockForm := by
  unfold Cursor.atBlockForm
  rcases h.kind with hk | ⟨hk, hk'⟩
  · rw [hk]
  · rw [hk, hk']

theorem Looks.atInlineEnd (h : m.Looks c d) : d.atInlineEnd = c.atInlineEnd := by
  unfold Cursor.atInlineEnd
  rcases h.kind with hk | ⟨hk, hk'⟩
  · rw [hk]
  · rw [hk, hk']

theorem Looks.directiveEnd (h : m.Looks c d) :
    Directive.atBranchEnd d = Directive.atBranchEnd c := by
  rw [Directive.atBranchEnd, h.directive, Directive.atBranchEnd]

theorem Looks.atLabel (h : m.Looks c d) (hc : c.kind? ≠ some .newline) :
    Parser.atLabel d = Parser.atLabel c := by
  unfold Parser.atLabel
  have hcolon := (h.second hc).eq_some_iff (k := .symbol .colon) nofun
  by_cases hk : c.kindAt? 1 = some (.symbol .colon)
  · have hthird := h.third hc (by rw [hk]; nofun)
    simp only [hk, hcolon.2 hk]
    rcases hthird with h2 | ⟨h2, h2'⟩
    · rw [h2]
    · rw [h2, h2']
      rfl
  · simp only [hk, mt hcolon.1 hk, decide_false, Bool.false_and]

end Mirror

/-! ### Parsers that refer to no others -/

section Steps

theorem close_mirrors (b : Block) (opener : Span) :
    Mirrors m id (close b opener) (close b (m.copy.span opener)) := by
  refine .get fun c d hd => ?_
  rw [hd.atCloser, hd.atNext, hd.atPair]
  refine .ite .rfl (fun _ => .advance) fun _ => .ite .rfl (fun _ => ?_) fun _ => ?_
  · exact .bind .advance fun _ => .bind (.accept nofun) fun _ => .pure rfl
  · refine .ite .rfl (fun _ => .bind .advance fun _ => .advance) fun _ => ?_
    rcases hd.head with hhead | ⟨hm, -⟩
    · refine .ite ?_ (fun _ => .throw rfl) fun _ => .expected _
      simp only [Cursor.head?] at hhead
      rw [List.isEmpty_iff, List.isEmpty_iff, ← List.head?_eq_none_iff, hhead, Option.map_eq_none_iff,
        List.head?_eq_none_iff]
    · refine .failing hm fun c' => ?_
      split
      · exact ⟨_, rfl⟩
      · exact expected_eq_error _ c'

theorem itemSeparator_mirrors : Mirrors m id itemSeparator itemSeparator := by
  refine .bind (.accept nofun) fun comma c => ?_
  refine ⟨Cursor.skip_suffix _ c.last c.rest, fun d hd ht => ?_⟩
  obtain ⟨d', hd', hmeets⟩ := (Mirrors.skipNewlines c).ok rfl hd ht
  obtain rfl : Cursor.skip [.newline] d.last d.rest = d' := by cases hd'; rfl
  refine ⟨_, ?_, hmeets⟩
  show EStateM.Result.ok (comma || decide (d.kind? = some .newline)) _ = _
  rcases hd.looks.kind with hk | ⟨hk, hk'⟩
  · rw [hk]
    rfl
  · -- The line break of the tail would have been read.
    obtain ⟨ts, hc, hrest, -⟩ := hd
    have hnil : d.rest = [] := by simpa [Cursor.kind?] using hk'
    obtain rfl : ts = [] := by
      rw [hnil] at hrest
      exact List.map_eq_nil_iff.1 (List.append_eq_nil_iff.1 hrest.symm).1
    rw [List.nil_append] at hc
    obtain ⟨t, rest, hcons⟩ : ∃ t rest, c.rest = t :: rest := by
      cases hcons : c.rest with
      | nil => simp [Cursor.kind?, hcons] at hk
      | cons t rest => exact ⟨t, rest, rfl⟩
    have hkind : t.kind = .newline := by simpa [Cursor.kind?, hcons] using hk
    have hle : (t :: rest).length ≤ (Cursor.skip [.newline] c.last (t :: rest)).rest.length := by
      rw [← hcons]
      exact (congrArg List.length hc).trans_le ht.length_le
    rw [Cursor.skip, if_pos (by rw [hkind]; decide), List.length_cons] at hle
    have := (Cursor.skip_suffix [.newline] t.extent rest).length_le
    omega

theorem separateLast_copy (h : Copy) (separator : PrintSeparator) (items : List (PrintItem Extent)) :
    separateLast separator (items.map (PrintItem.copy h.extent h.name))
      = (separateLast separator items).map (PrintItem.copy h.extent h.name) := by
  rcases items with _ | ⟨⟨value, _⟩, items⟩ <;> rfl

theorem integerLiteral_mirrors (literal : Token) (value : Nat) :
    Mirrors m m.copy.expr (integerLiteral literal value)
      (integerLiteral (m.copy.token literal) value) :=
  .bind .advance fun _ => .ite .rfl (fun _ => .bind (.extentFrom _) fun _ => .pure rfl)
    fun _ => .throw rfl

theorem leaf_mirrors (first : Token) {make make' : Extent → Expr Extent}
    (h : ∀ here, make' (m.copy.extent here) = m.copy.expr (make here)) :
    Mirrors m m.copy.expr (leaf first make) (leaf (m.copy.token first) make') :=
  .bind .advance fun _ => .bind (.extentFrom _) fun _ => .pure (h _)

theorem elseIfKeyword_mirrors (first : Token) :
    Mirrors m m.copy.extent (elseIfKeyword first) (elseIfKeyword (m.copy.token first)) :=
  .bind .advance fun _ => .ite .rfl (fun _ => .bind .advance fun _ => .extentFrom _)
    fun _ => .extentFrom _

theorem assignTo_mirrors (here : Extent) (target : Expr Extent) (op : AssignOp)
    (value : Expr Extent) : Mirrors m m.copy.statement (assignTo here target op value)
      (assignTo (m.copy.extent here) (m.copy.expr target) op (m.copy.expr value)) := by
  cases target <;> first | exact .pure rfl | exact .throw rfl

theorem callStatement_mirrors (target : Expr Extent) :
    Mirrors m m.copy.statement (callStatement target) (callStatement (m.copy.expr target)) := by
  refine .peek fun o o' ho => ?_
  by_cases hcall : ∃ here callee args, target = .call here callee args
  · obtain ⟨here, callee, args, rfl⟩ := hcall
    exact .bind (.extentFrom here) fun _ => .pure rfl
  · rcases ho with rfl | ⟨hm, ⟨t, rfl, -⟩, -⟩
    · cases o with
      | none => cases target <;> first | exact .throw rfl | exact absurd ⟨_, _, _, rfl⟩ hcall
      | some t =>
        cases target <;> first
          | exact .throw (congrArg _ (m.copy.merge_span _ _))
          | exact absurd ⟨_, _, _, rfl⟩ hcall
    · refine .failing hm fun c => ?_
      cases target <;> first | exact ⟨_, rfl⟩ | exact absurd ⟨_, _, _, rfl⟩ hcall

theorem label_mirrors {first : Token} (hk : first.kind = .identifier) :
    Mirrors m m.copy.statement (label first) (label (m.copy.token first)) := by
  refine .bind .advance fun _ => .bind .advance fun _ => .bind (.extentFrom _) fun _ => .pure ?_
  simp only [Statement.copy, Copy.token, hk, m.copy.text_identifier]

theorem goto_mirrors (first : Token) :
    Mirrors m m.copy.statement (goto first) (goto (m.copy.token first)) :=
  .bind .advance fun _ => .bind (.expectName _) fun _ => .bind (.extentFrom _) fun _ => .pure rfl

theorem exitedLoop_mirrors : Mirrors m id exitedLoop exitedLoop :=
  .bind (.accept nofun) fun _ => .ite .rfl (fun _ => .pure rfl) fun _ =>
    .bind (.accept nofun) fun _ => .ite .rfl (fun _ => .pure rfl) fun _ => .expected _

theorem exit_mirrors (first : Token) :
    Mirrors m m.copy.statement (exit first) (exit (m.copy.token first)) := by
  have hend : ∀ loop, Mirrors m m.copy.statement
      (do return Statement.exit (← extentFrom first.extent) loop)
      (do return Statement.exit (← extentFrom (m.copy.token first).extent) loop) :=
    fun _ => .bind (.extentFrom _) fun _ => .pure rfl
  exact .bind .advance fun _ => .ite .rfl (fun _ => .bind (F := id) (.pure rfl) hend)
    fun _ => .bind exitedLoop_mirrors hend

theorem endProgram_mirrors (first : Token) :
    Mirrors m m.copy.statement (endProgram first) (endProgram (m.copy.token first)) := by
  refine .bind .advance fun _ => .bind (.extentFrom _) fun _ => .peek fun o o' ho => ?_
  rcases ho with rfl | ⟨hm, ⟨t, rfl, hk, -⟩, halike⟩
  · cases o with
    | none => exact .pure rfl
    | some t =>
      refine .ite .rfl (fun hword => .bind (F := id) (.throw ?_) fun _ => .pure rfl)
        fun _ => .pure rfl
      have htext : (m.copy.token t).text = m.copy.name t.text := by
        obtain ⟨k, hk⟩ : ∃ k, t.kind = .keyword k := by
          simp only [List.mem_cons, List.not_mem_nil, or_false] at hword
          rcases hword with hk | hk | hk | hk | hk <;> exact ⟨_, hk⟩
        simp only [Copy.token, hk, m.copy.text_keyword]
      simp only [Copy.error, htext, Copy.token_span, m.copy.merge_span]
  · dsimp only
    rw [if_neg (by rw [hk]; decide)]
    cases o' with
    | none => exact .pure rfl
    | some t' =>
      have hk' : t'.kind = .newline := by simpa [Indistinct] using halike
      dsimp only
      rw [if_neg (by rw [hk']; decide)]
      exact .pure rfl

theorem stop_mirrors (first : Token) :
    Mirrors m m.copy.statement (stop first) (stop (m.copy.token first)) :=
  .bind .advance fun _ => .bind (.extentFrom _) fun _ => .pure rfl

theorem library_mirrors (first : Token) :
    Mirrors m m.copy.statement (library first) (library (m.copy.token first)) := by
  refine .bind .advance fun _ => .bind (.expect (by nofun) _) fun _ => .bind (.extentFrom _) fun _ =>
    .pure ?_
  simp only [Statement.copy, m.copy.unquoteText_text]

theorem collection_mirrors (closing : Symbol) {F : α → β} {item : Parser α} {item' : Parser β}
    (h : Mirrors m F item item')
    (hp : ∀ state, StepProgress (collectionItem (.symbol closing) item state))
    (hp' : ∀ state, StepProgress (collectionItem (.symbol closing) item' state)) :
    Mirrors m (List.map F) (collection closing item) (collection closing item') := by
  refine .bind (F := Prod.map (List.map F) id) (.repeatFrom (fun state => ?_) hp hp' ([], true))
    fun state => .bind (.expect (by nofun) _) fun _ => .pure List.map_reverse.symm
  refine .ite .rfl (fun _ => .pure rfl) fun _ => .bind .skipNewlines fun _ => .peekKind fun _ _ hk => ?_
  refine .ite (hk.eq_some_iff nofun) (fun _ => .pure rfl) fun _ => .bind h fun _ => ?_
  exact .bind itemSeparator_mirrors fun _ => .pure rfl

end Steps

structure Recursion.Mirrored (one : Recursion) (m : Mirror) : Prop where
  expression : ∀ min, Mirrors m m.copy.expr (one.expression min) (one.expression min)
  statement : Mirrors m m.copy.statement one.statement one.statement
  inlineElseIf : Mirrors m m.copy.statement one.inlineElseIf one.inlineElseIf

theorem Cursor.skip_kind? (kinds : List TokenKind) (last : Extent) (ts : List Token) :
    ∀ k ∈ kinds, (Cursor.skip kinds last ts).kind? ≠ some k := by
  intro k hk
  induction ts generalizing last with
  | nil => nofun
  | cons t ts ih =>
    rw [Cursor.skip]
    split
    · exact ih t.extent
    · next hkind =>
      intro heq
      rw [show t.kind = k from Option.some.inj heq] at hkind
      exact hkind hk

section Parsers

variable {self : Recursion} (h : self.Mirrored m)
include h

theorem blockItem_mirrors {atEnd : Cursor → Bool}
    (hend : ∀ c d, m.Looks c d → atEnd d = atEnd c) :
    Mirrors m (Option.map m.copy.statement) (blockItem self atEnd) (blockItem self atEnd) := by
  intro c
  refine (Mirrors.skipSeparators c).bind fun _ c₁ hc₁ => .get fun d hd => ?_
  obtain rfl : c.skipSeparators = c₁ := by cases hc₁; rfl
  -- No line break comes now, so the block ends on both sides or on none.
  have hempty : d.rest.isEmpty = c.skipSeparators.rest.isEmpty := by
    rcases hd.head with hhead | ⟨-, ⟨t, ht, hkind, -⟩, -⟩
    · simp only [Cursor.head?] at hhead
      rw [Bool.eq_iff_iff, List.isEmpty_iff, List.isEmpty_iff, ← List.head?_eq_none_iff, hhead,
        Option.map_eq_none_iff, List.head?_eq_none_iff]
    · refine absurd ?_ (Cursor.skip_kind? [.newline, .symbol .colon] c.last c.rest .newline (by simp))
      show c.skipSeparators.head?.map Token.kind = _
      rw [ht, Option.map_some, hkind]
  refine Mirrors.ite (by rw [hempty, hend _ _ hd]) (fun _ => .pure rfl) (fun _ => ?_) _
  exact .bind h.statement fun _ => .bind .atStatementEnd fun _ =>
    .ite .rfl (fun _ => .pure rfl) fun _ => .expected _

theorem parameter_mirrors : Mirrors m (Parameter.copy m.copy.extent m.copy.name) (parameter self)
    (parameter self) := by
  refine .bind (.expectWord _) fun _ => .bind (.after nofun (h.expression _)) fun _ =>
    .bind (.after nofun (.expectWord _)) fun _ => .pure ?_
  simp only [Parameter.copy, copyExpr?_eq_map]

theorem entry_mirrors :
    Mirrors m (Entry.copy m.copy.extent m.copy.name) (entry self) (entry self) := by
  have hvalue : ∀ key, Mirrors m (Entry.copy m.copy.extent m.copy.name)
      (do let _ ← expect (.symbol .colon) ":"; return Entry.mk key (← self.expression .lowest))
      (do let _ ← expect (.symbol .colon) ":"
          return Entry.mk (m.copy.name key) (← self.expression .lowest)) :=
    fun _ => .bind (.expect (by nofun) _) fun _ => .bind (h.expression _) fun _ => .pure rfl
  exact .peekKind fun _ _ hk => .ite (hk.eq_some_iff nofun)
    (fun _ => .bind (.map (.expect (by nofun) _) m.copy.unquoteText_text) hvalue)
    fun _ => .bind (.expectWord _) hvalue

theorem enclosed_mirrors (closing : Symbol) :
    Mirrors m m.copy.expr (enclosed self closing) (enclosed self closing) :=
  .bind .advance fun _ => .bind .skipNewlines fun _ => .bind (h.expression _) fun _ =>
    .bind .skipNewlines fun _ => .bind (.expect (by nofun) _) fun _ => .pure rfl

theorem binaryStep_mirrors (min : Precedence) (left : Expr Extent) :
    Mirrors m (Option.map m.copy.expr) (binaryStep self min left)
      (binaryStep self min (m.copy.expr left)) := by
  refine .peekKind fun k k' hk => ?_
  rcases hk with rfl | ⟨rfl, rfl⟩
  · simp only [Expr.copy_here]
    split
    · exact .ite .rfl (fun _ => .pure rfl) fun _ => .bind .advance fun _ =>
        .bind (h.expression _) fun _ => .bind (.extentFrom _) fun _ => .pure rfl
    · exact .pure rfl
  · exact .pure rfl

theorem giveBack_mirrors (first : Token) :
    Mirrors m m.copy.statement (giveBack self first) (giveBack self (m.copy.token first)) :=
  .bind .advance fun _ => .bind .atStatementEnd fun _ =>
    .ite .rfl (fun _ => .bind (.extentFrom _) fun _ => .pure rfl) fun _ =>
      .bind (h.expression _) fun _ => .bind (.extentFrom _) fun _ => .pure rfl

theorem wholeStatement_mirrors :
    Mirrors m m.copy.statement (wholeStatement self) (wholeStatement self) :=
  .bind h.statement fun _ => .bind .atStatementEnd fun _ => .ite .rfl (fun _ => .pure rfl) fun _ =>
    .expected _

variable (hs : self.Sound)
include hs

theorem block_mirrors {atEnd : Cursor → Bool} (hend : ∀ c d, m.Looks c d → atEnd d = atEnd c) :
    Mirrors m m.copy.body (block self atEnd) (block self atEnd) := by
  rw [show m.copy.body = List.map m.copy.statement from funext (copyBody_eq_map _ _)]
  exact .many (blockItem_mirrors h hend) (blockItem_progress hs _) (blockItem_progress hs _)

theorem procedure_mirrors (keyword : ProcedureKind) (opener : Span) :
    Mirrors m (Procedure.copy m.copy.extent m.copy.name) (procedure self keyword opener)
      (procedure self keyword (m.copy.span opener)) := by
  have hprogress : StepProgress (Parser.after (.symbol .comma) (parameter self)) :=
    after_progress _ fun hrun => (parameter_run hs hrun).imp fun _ hj => ⟨hj.1, hj.2.1⟩
  have hparams : Mirrors m (List.map (Parameter.copy m.copy.extent m.copy.name)) (parameters self)
      (parameters self) :=
    .bind (.expect (by nofun) _) fun _ =>
      .bind (.commaSeparated _ (parameter_mirrors h) hprogress hprogress) fun _ =>
        .bind (.expect (by nofun) _) fun _ => .pure rfl
  refine .bind hparams fun _ => .bind (.after nofun (.expectWord _)) fun _ =>
    .bind (block_mirrors h hs fun _ _ hd => hd.atEnd _) fun _ => .bind (close_mirrors _ _) fun _ =>
      .pure ?_
  simp only [Procedure.copy, copyParameters_eq_map]

theorem primary_mirrors : Mirrors m m.copy.expr (primary self) (primary self) := by
  refine .peek fun o o' ho => ?_
  rcases ho with rfl | ⟨hm, ⟨⟨_, text, here⟩, rfl, rfl, -⟩, -⟩
  · cases o with
    | none => exact .throw rfl
    | some t =>
      have hprocedure : ∀ keyword, Mirrors m m.copy.expr
          (do advance; let decl ← procedure self keyword t.span
              return Expr.procedure (← extentFrom t.extent) decl)
          (do advance; let decl ← procedure self keyword (m.copy.token t).span
              return Expr.procedure (← extentFrom (m.copy.token t).extent) decl) :=
        fun _ => .bind .advance fun _ => .bind (procedure_mirrors h hs _ _) fun _ =>
          .bind (.extentFrom _) fun _ => .pure rfl
      simp only [Option.map_some, Copy.token_kind]
      split
      · next hk =>
        simp only [Copy.token, hk, m.copy.integerValue_text]
        rw [← hk]
        exact integerLiteral_mirrors t _
      · next hk =>
        simp only [Copy.token, hk, m.copy.hexValue_text]
        rw [← hk]
        exact integerLiteral_mirrors t _
      · next hk =>
        refine leaf_mirrors t fun here => ?_
        simp only [Expr.copy, Copy.token, hk, m.copy.floatBits_text]
      · next hk =>
        refine leaf_mirrors t fun here => ?_
        simp only [Expr.copy, Copy.token, hk, m.copy.unquoteText_text]
      · exact .bind .advance fun _ => .throw rfl
      · exact leaf_mirrors t fun _ => rfl
      · exact leaf_mirrors t fun _ => rfl
      · exact leaf_mirrors t fun _ => rfl
      · next hk =>
        refine leaf_mirrors t fun here => ?_
        simp only [Expr.copy, Copy.token, hk, m.copy.text_identifier]
      · exact .bind (enclosed_mirrors h _) fun _ => .bind (.extentFrom _) fun _ => .pure rfl
      · have hitem (state : List (Expr Extent) × Bool) : StepProgress
            (collectionItem (.symbol .rightBracket) (self.expression .lowest) state) :=
          collectionItem_progress _ (expression_row hs) state
        refine .bind .advance fun _ => .bind (collection_mirrors _ (h.expression _) hitem hitem)
          fun _ => .bind (.extentFrom _) fun _ => .pure ?_
        simp only [Expr.copy, copyExprs_eq_map]
      · have hitem := collectionItem_progress (.symbol .rightBrace) (entry_run hs)
        refine .bind .advance fun _ => .bind (collection_mirrors _ (entry_mirrors h) hitem hitem)
          fun _ => .bind (.extentFrom _) fun _ => .pure ?_
        simp only [Expr.copy, copyEntries_eq_map]
      · exact hprocedure .function
      · exact hprocedure .sub
      · exact .throw rfl
  · exact .failing hm fun c => ⟨_, rfl⟩

theorem arguments_mirrors :
    Mirrors m (List.map m.copy.expr) (arguments self) (arguments self) := by
  have hprogress : StepProgress (Parser.after (.symbol .comma) (argument self)) :=
    after_progress _ fun hrun => (argument_run hs hrun).imp fun _ hj => ⟨hj.1, hj.2.1⟩
  have hargument : Mirrors m m.copy.expr (argument self) (argument self) :=
    .bind .skipNewlines fun _ => .bind (h.expression _) fun _ =>
      .bind .skipNewlines fun _ => .pure rfl
  exact .bind .advance fun _ => .bind .skipNewlines fun _ =>
    .bind (.commaSeparated _ hargument hprogress hprogress) fun _ =>
      .bind (.expect (by nofun) _) fun _ => .pure rfl

theorem postfixStep_mirrors (object : Expr Extent) :
    Mirrors m (Option.map m.copy.expr) (postfixStep self object)
      (postfixStep self (m.copy.expr object)) := by
  refine .peekKind fun k k' hk => ?_
  rcases hk with rfl | ⟨rfl, rfl⟩
  · simp only [Expr.copy_here]
    split
    · refine .bind (arguments_mirrors h hs) fun _ => .bind (.extentFrom _) fun _ => .pure ?_
      simp only [Option.map_some, Expr.copy, copyExprs_eq_map]
    · exact .bind .advance fun _ => .bind (.expectWord _) fun _ =>
        .bind (.extentFrom _) fun _ => .pure rfl
    · exact .bind (enclosed_mirrors h _) fun _ => .bind (.extentFrom _) fun _ => .pure rfl
    · exact .bind .advance fun _ => .bind (.expectWord _) fun _ =>
        .bind (.extentFrom _) fun _ => .pure rfl
    · exact .pure rfl
  · exact .pure rfl

theorem operand_mirrors : Mirrors m m.copy.expr (operand self) (operand self) :=
  .bind (primary_mirrors h hs) fun _ =>
    .repeatFrom (postfixStep_mirrors h hs) (postfixStep_progress hs) (postfixStep_progress hs) _

theorem unary_mirrors : Mirrors m m.copy.expr (unary self) (unary self) := by
  refine .peek fun o o' ho => ?_
  rcases ho with rfl | ⟨hm, ⟨⟨_, text, here⟩, rfl, rfl, -⟩, halike⟩
  · cases o with
    | none => exact operand_mirrors h hs
    | some t =>
      simp only [Option.map_some, Copy.token_kind]
      split
      · exact .bind .advance fun _ => .bind (h.expression _) fun _ =>
          .bind (.extentFrom _) fun _ => .pure rfl
      · exact operand_mirrors h hs
  · cases o' with
    | none => exact operand_mirrors h hs
    | some t' =>
      obtain ⟨kind, text', here'⟩ := t'
      obtain rfl : kind = .newline := by simpa [Indistinct] using halike
      exact operand_mirrors h hs

theorem expression_mirrors (min : Precedence) :
    Mirrors m m.copy.expr (Parser.expression self min) (Parser.expression self min) :=
  .bind (unary_mirrors h hs) fun _ => .repeatFrom (binaryStep_mirrors h min)
    (binaryStep_progress hs min) (binaryStep_progress hs min) _

theorem print_mirrors (first : Token) :
    Mirrors m m.copy.statement (print self first) (print self (m.copy.token first)) := by
  have hstep : ∀ items, Mirrors m (Option.map (List.map (PrintItem.copy m.copy.extent m.copy.name)))
      (printStep self items)
      (printStep self (items.map (PrintItem.copy m.copy.extent m.copy.name))) := by
    intro items
    refine .bind .atStatementEnd fun _ => .ite .rfl (fun _ => .pure rfl) fun _ =>
      .peekKind fun k k' hk => ?_
    have hseparator : k'.bind PrintSeparator.ofKind? = k.bind PrintSeparator.ofKind? := by
      rcases hk with rfl | ⟨rfl, rfl⟩ <;> rfl
    rw [hseparator]
    split
    · exact .bind .advance fun _ => .pure (congrArg some (separateLast_copy m.copy _ _))
    · exact .bind (h.expression _) fun _ => .pure rfl
  refine .bind .advance fun _ => .bind (.repeatFrom hstep (printStep_progress hs)
    (printStep_progress hs) []) fun _ => .bind (.extentFrom _) fun _ => .pure ?_
  simp only [Statement.copy, copyPrintItems_eq_map, List.map_reverse]

theorem operandStatement_mirrors :
    Mirrors m m.copy.statement (operandStatement self) (operandStatement self) := by
  refine .bind (operand_mirrors h hs) fun target => .peekKind fun k k' hk => ?_
  have hassign : k'.bind AssignOp.ofKind? = k.bind AssignOp.ofKind? := by
    rcases hk with rfl | ⟨rfl, rfl⟩ <;> rfl
  have hplus := hk.eq_some_iff (k := .symbol .plusPlus) nofun
  have hminus := hk.eq_some_iff (k := .symbol .minusMinus) nofun
  simp only [Expr.copy_here, hassign, hplus, hminus]
  split
  · exact .bind .advance fun _ => .bind (h.expression _) fun _ =>
      .bind (.extentFrom _) fun _ => assignTo_mirrors _ _ _ _
  · exact .ite .rfl (fun _ => .bind .advance fun _ => .bind (.extentFrom _) fun _ => .pure rfl)
      fun _ => callStatement_mirrors _

theorem namedProcedure_mirrors (keyword : ProcedureKind) (first : Token) :
    Mirrors m m.copy.statement (namedProcedure self keyword first)
      (namedProcedure self keyword (m.copy.token first)) :=
  .bind .advance fun _ => .bind (.expectName _) fun _ => .bind (procedure_mirrors h hs _ _)
    fun _ => .bind (.extentFrom _) fun _ => .pure rfl

theorem inlineStatements_mirrors :
    Mirrors m m.copy.body (inlineStatements self) (inlineStatements self) := by
  rw [show m.copy.body = List.map m.copy.statement from funext (copyBody_eq_map _ _)]
  refine .bind h.statement fun _ => .bind (.many ?_ (inlineItem_progress hs)
    (inlineItem_progress hs)) fun _ => .pure rfl
  refine .bind (.accept nofun) fun _ => .ite .rfl (fun _ => .get fun c d hd => ?_)
    fun _ => .pure rfl
  rw [hd.atInlineEnd]
  exact .ite .rfl (fun _ => .pure rfl) fun _ => .bind h.statement fun _ => .pure rfl

theorem inlineBranch_mirrors (first : Token) (condition : Expr Extent) :
    Mirrors m m.copy.statement (inlineBranch self first condition)
      (inlineBranch self (m.copy.token first) (m.copy.expr condition)) := by
  have helse : Mirrors m (Option.map m.copy.body) (inlineElse self) (inlineElse self) := by
    refine .peekKind fun k k' hk => ?_
    rcases hk with rfl | ⟨rfl, rfl⟩
    · split
      · exact .bind h.inlineElseIf fun _ => .pure rfl
      · exact .bind .advance fun _ => .bind (inlineStatements_mirrors h hs) fun _ => .pure rfl
      · exact .pure rfl
    · exact .pure rfl
  refine .bind (inlineStatements_mirrors h hs) fun _ => .bind helse fun _ =>
    .bind (.extentFrom _) fun _ => .pure ?_
  simp only [Statement.copy, copyElseIfs, copyBody?_eq_map]

theorem inlineElseIf_mirrors :
    Mirrors m m.copy.statement (inlineElseIf self) (inlineElseIf self) :=
  .peek_advance _ fun t => .bind (h.expression _) fun _ => .bind (.expect (by nofun) _) fun _ =>
    inlineBranch_mirrors h hs t _

theorem elseIf_mirrors : Mirrors m (Option.map (ElseIf.copy m.copy.extent m.copy.name)) (elseIf self)
    (elseIf self) := by
  refine .get fun c d hd => ?_
  rw [hd.atElseIf]
  cases hc : c.atElseIf with
  | false => cases c.head? <;> cases d.head? <;> exact .pure rfl
  | true =>
    rcases hd.head with hhead | ⟨-, ⟨t, ht, hkind, -⟩, -⟩
    · rw [hhead]
      cases c.head? with
      | none => exact .pure rfl
      | some t =>
        exact .bind (elseIfKeyword_mirrors t) fun _ => .bind (h.expression _) fun _ =>
          .bind (.accept nofun) fun _ => .bind (block_mirrors h hs fun _ _ hd => hd.atBranchEnd)
            fun _ => .pure rfl
    · have hk : c.kind? = some .newline := by
        show c.head?.map Token.kind = _
        rw [ht, Option.map_some, hkind]
      simp [Cursor.atElseIf, hk] at hc

theorem branch_mirrors (first : Token) :
    Mirrors m m.copy.statement (branch self first) (branch self (m.copy.token first)) := by
  have hblock : ∀ condition, Mirrors m m.copy.statement (blockBranch self first condition)
      (blockBranch self (m.copy.token first) (m.copy.expr condition)) := by
    intro condition
    refine .bind (block_mirrors h hs fun _ _ hd => hd.atBranchEnd) fun _ =>
      .bind (.many (elseIf_mirrors h hs) (elseIf_progress hs) (elseIf_progress hs)) fun _ =>
        .bind (.after nofun (block_mirrors h hs fun _ _ hd => hd.atEnd _)) fun _ =>
          .bind (close_mirrors _ _) fun _ => .bind (.extentFrom _) fun _ => .pure ?_
    simp only [Statement.copy, copyElseIfs_eq_map, copyBody?_eq_map]
  refine .bind .advance fun _ => .bind (h.expression _) fun _ => .bind (.accept nofun) fun _ =>
    .get fun c d hd => ?_
  rw [hd.atBlockForm]
  exact .ite .rfl (fun _ => hblock _) fun _ =>
    .ite .rfl (fun _ => inlineBranch_mirrors h hs _ _) fun _ => .expected _

theorem forLoop_mirrors (first : Token) :
    Mirrors m m.copy.statement (forLoop self first) (forLoop self (m.copy.token first)) := by
  have hbody := block_mirrors h hs (m := m) fun c d hd => hd.atEnd .forLoop
  have heach : Mirrors m m.copy.statement (forEach self first)
      (forEach self (m.copy.token first)) :=
    .bind (.expectName _) fun _ => .bind (.expect (by nofun) _) fun _ =>
      .bind (h.expression _) fun _ => .bind hbody fun _ => .bind (close_mirrors _ _) fun _ =>
        .bind (.extentFrom _) fun _ => .pure rfl
  have hcounted : Mirrors m m.copy.statement (countedLoop self first)
      (countedLoop self (m.copy.token first)) := by
    refine .bind (.expectName _) fun _ => .bind (.expect (by nofun) _) fun _ =>
      .bind (h.expression _) fun _ => .bind (.expect (by nofun) _) fun _ =>
        .bind (h.expression _) fun _ => .bind (.after nofun (h.expression _)) fun _ =>
          .bind hbody fun _ => .bind (close_mirrors _ _) fun _ => .bind (.extentFrom _) fun _ =>
            .pure ?_
    simp only [Statement.copy, copyExpr?_eq_map]
  exact .bind .advance fun _ => .bind (.accept nofun) fun _ =>
    .ite .rfl (fun _ => heach) fun _ => hcounted

theorem whileLoop_mirrors (first : Token) :
    Mirrors m m.copy.statement (whileLoop self first) (whileLoop self (m.copy.token first)) :=
  .bind .advance fun _ => .bind (h.expression _) fun _ =>
    .bind (block_mirrors h hs fun _ _ hd => hd.atEnd _) fun _ => .bind (close_mirrors _ _) fun _ =>
      .bind (.extentFrom _) fun _ => .pure rfl

theorem compileElseIf_mirrors :
    Mirrors m (Option.map (CompileElseIf.copy m.copy.extent m.copy.name)) (compileElseIf self)
      (compileElseIf self) := by
  refine .peek fun o o' ho => ?_
  rcases ho.directive with ⟨hc, hd⟩ | ⟨⟨kind, name, args⟩, ⟨kind', name', args'⟩, hc, hd, hcopy⟩
  · rw [hc, hd]
    exact .pure rfl
  · obtain rfl : kind' = kind := hcopy.kind
    rw [hc, hd]
    rcases kind' with _ | _ | _ | _ | _ | _ | _
    case some.elseIfDir =>
      refine .bind .advance fun _ => .bind (block_mirrors h hs fun _ _ hd => hd.directiveEnd)
        fun _ => .pure ?_
      simp only [Option.map_some, CompileElseIf.copy, ← hcopy.args]
    all_goals exact .pure rfl

theorem compileIf_mirrors (first : Token) (condition : String) :
    Mirrors m m.copy.statement (compileIf self first condition)
      (compileIf self (m.copy.token first) (m.copy.name condition)) := by
  have hbody := block_mirrors h hs (m := m) fun c d hd => hd.directiveEnd
  have helse : Mirrors m (Option.map m.copy.body) (compileElse self) (compileElse self) :=
    .get fun c d hd => .ite (by rw [hd.directive])
      (fun _ => .bind .advance fun _ => .bind hbody fun _ => .pure rfl) fun _ => .pure rfl
  refine .bind hbody fun _ => .bind (.many (compileElseIf_mirrors h hs) (compileElseIf_progress hs)
    (compileElseIf_progress hs)) fun _ => .bind helse fun _ => .get fun c d hd => ?_
  rw [hd.directive]
  split
  · refine .bind .advance fun _ => .bind (.extentFrom _) fun _ => .pure ?_
    simp only [Statement.copy, copyCompileElseIfs_eq_map, copyBody?_eq_map]
  · exact .expected _
  · exact .throw rfl

theorem directive_mirrors {first : Token} (hk : first.kind = .directive) :
    Mirrors m m.copy.statement (directive self first) (directive self (m.copy.token first)) := by
  have hcopy := m.copy.ofLine_text first.text
  rw [← hk] at hcopy
  refine .bind .advance fun _ => ?_
  simp only [Copy.token, hcopy.kind, hcopy.args, hcopy.name, hcopy.word]
  split
  · exact compileIf_mirrors h hs first _
  · exact .bind (.extentFrom _) fun _ => .pure rfl
  · exact .bind (.extentFrom _) fun _ => .pure rfl
  all_goals exact .throw rfl

theorem dim_mirrors (first : Token) :
    Mirrors m m.copy.statement (dim self first) (dim self (m.copy.token first)) := by
  have hprogress : StepProgress (Parser.after (.symbol .comma) (self.expression .lowest)) :=
    after_progress _ fun hrun => (expression_row hs hrun).imp fun _ hj => ⟨hj.1, hj.2.1⟩
  refine .bind .advance fun _ => .bind (.expectName _) fun _ => .bind (.expect (by nofun) _) fun _ =>
    .bind (h.expression _) fun _ => .bind (.many (.after nofun (h.expression _)) hprogress hprogress)
      fun _ => .bind (.expect (by nofun) _) fun _ => .bind (.extentFrom _) fun _ => .pure ?_
  simp only [Statement.copy, copyExprs_eq_map, List.map_cons]

theorem statement_mirrors : Mirrors m m.copy.statement (statement self) (statement self) := by
  refine fun c => .peek fun o ho => ?_
  rcases ho with rfl | ⟨hm, ⟨⟨_, text, here⟩, hc, rfl, -⟩, -⟩
  · cases hc : c.head? with
    | none => exact Mirrors.throw rfl c
    | some t =>
      simp only [Option.map_some, Copy.token_kind]
      split
      · exact print_mirrors h hs t c
      · exact print_mirrors h hs t c
      · exact branch_mirrors h hs t c
      · exact forLoop_mirrors h hs t c
      · exact whileLoop_mirrors h hs t c
      · exact goto_mirrors t c
      · exact giveBack_mirrors h t c
      · exact exit_mirrors t c
      · exact exit_mirrors t c
      · exact endProgram_mirrors t c
      · exact stop_mirrors t c
      · exact namedProcedure_mirrors h hs _ t c
      · exact namedProcedure_mirrors h hs _ t c
      · exact dim_mirrors h hs t c
      · exact library_mirrors t c
      · next hk => exact directive_mirrors h hs hk c
      · next hk =>
        have hkind : c.kind? ≠ some .newline := by
          show c.head?.map Token.kind ≠ _
          rw [hc, Option.map_some, hk]
          nofun
        refine .get fun d hd => ?_
        rw [hd.atLabel hkind]
        exact Mirrors.ite .rfl (fun _ => label_mirrors hk) (fun _ => operandStatement_mirrors h hs) c
      · exact Mirrors.throw rfl c
      · exact Mirrors.throw rfl c
  · rw [hc]
    exact Mirrors.failing hm (fun c => ⟨_, rfl⟩) c

end Parsers

theorem Recursion.mirrored_ofDepth (m : Mirror) (depth : Nat) : (ofDepth depth).Mirrored m := by
  induction depth with
  | zero => exact ⟨fun _ => .expected _, .expected _, .expected _⟩
  | succ depth ih =>
    have hs := sound_ofDepth depth
    exact ⟨expression_mirrors ih hs, statement_mirrors ih hs, inlineElseIf_mirrors ih hs⟩

end BrightCoverage
