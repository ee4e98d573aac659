import BrightCoverage.Proofs.Failures
import BrightCoverage.Proofs.SpelledExpressions

/-! Where errors belong. A parser that fails blames a token that it has seen: the one at which it has
stopped, or one before it, such as the opener of a block. Only where no token is left does it say that
the text ends, or that the end of a block is missing. `Blames` says so of a parser, given the places
that have been seen before it is run, and it goes along with the steps of a parser. -/

namespace BrightCoverage

open BrightCoverage.Parser

def ParseError.isFinal : ParseError → Bool
  | endOfText _ | missingEnd .. => true
  | _ => false

variable {α β : Type} {ts rest : List Token} {seen : List Nat} {place : Nat}

/-- The place is the start of one of the tokens, and not behind the first token of the rest. -/
def Seen (ts rest : List Token) (place : Nat) : Prop :=
  ∃ t us, t :: us <:+ ts ∧ rest <:+ t :: us ∧ place = t.span.start

/-- An error that is met in front of the rest of the tokens. -/
structure Blamed (ts : List Token) (e : ParseError) (rest : List Token) : Prop where
  known : ∀ t, e ≠ .invalidCharacter t
  seen : ∀ s, e.span = some s → Seen ts rest s.start
  final : e.isFinal = true → rest = []

/-- The parser does not move back from the cursor, and what it blames has been seen. -/
def BlamesAt (ts : List Token) (seen : List Nat) (p : Parser α) (c : Cursor) : Prop :=
  c.rest <:+ ts → (∀ place ∈ seen, Seen ts c.rest place) →
    match p c with
    | .ok _ c' => c'.rest <:+ c.rest
    | .error e c' => Blamed ts e c'.rest

/-- Wherever the parser fails, what it blames has been seen. -/
def Blames (ts : List Token) (seen : List Nat) (p : Parser α) : Prop :=
  ∀ c, BlamesAt ts seen p c

theorem Seen.further {us : List Token} (h : Seen ts rest place) (hu : us <:+ rest) :
    Seen ts us place := by
  obtain ⟨t, vs, ht, hrest, hplace⟩ := h
  exact ⟨t, vs, ht, hu.trans hrest, hplace⟩

theorem seen_head {t : Token} {us : List Token} (h : t :: us <:+ ts) :
    Seen ts (t :: us) t.span.start :=
  ⟨t, us, h, List.suffix_rfl, rfl⟩

namespace BlamesAt

variable {p : Parser α} {c : Cursor}

theorem bind {f : α → Parser β} (hp : BlamesAt ts seen p c)
    (hf : ∀ a c', p c = .ok a c' → BlamesAt ts seen (f a) c') :
    BlamesAt ts seen (p >>= f) c := by
  intro hc hseen
  have h := hp hc hseen
  rw [bind_apply]
  cases ho : p c with
  | error e c₁ =>
    rw [ho] at h
    exact h
  | ok a c₁ =>
    rw [ho] at h
    have h' := hf a c₁ ho (h.trans hc) fun place hplace => (hseen place hplace).further h
    cases ho' : f a c₁ with
    | error e c₂ =>
      simp only [ho'] at h' ⊢
      exact h'
    | ok b c₂ =>
      simp only [ho'] at h' ⊢
      exact h'.trans h

theorem see (hplace : c.rest <:+ ts → Seen ts c.rest place)
    (h : BlamesAt ts (place :: seen) p c) : BlamesAt ts seen p c :=
  fun hc hseen => h hc (List.forall_mem_cons.2 ⟨hplace hc, hseen⟩)

theorem throw {e : ParseError} (hk : ∀ t, e ≠ .invalidCharacter t)
    (hs : ∀ s, e.span = some s → s.start ∈ seen) (hf : e.isFinal = true → c.rest = []) :
    BlamesAt ts seen (MonadExcept.throw e : Parser α) c :=
  fun _ hseen => ⟨hk, fun s h => hseen _ (hs s h), hf⟩

end BlamesAt

namespace Blames

variable {p : Parser α} {f : α → Parser β}

theorem bind (hp : Blames ts seen p) (hf : ∀ a, Blames ts seen (f a)) : Blames ts seen (p >>= f) :=
  fun c => (hp c).bind fun a c' _ => hf a c'

theorem pure (a : α) : Blames ts seen (Pure.pure a) :=
  fun _ _ _ => List.suffix_rfl

theorem map (k : α → β) (hp : Blames ts seen p) : Blames ts seen (k <$> p) := by
  rw [map_eq_pure_bind]
  exact hp.bind fun a => .pure (k a)

theorem ite {b : Prop} [Decidable b] {q : Parser α} (h : b → Blames ts seen p)
    (h' : ¬ b → Blames ts seen q) : Blames ts seen (if b then p else q) := by
  split
  · exact h ‹b›
  · exact h' ‹¬ b›

theorem throw {e : ParseError} (hk : ∀ t, e ≠ .invalidCharacter t)
    (hs : ∀ s, e.span = some s → s.start ∈ seen) (hf : e.isFinal = false) :
    Blames ts seen (MonadExcept.throw e : Parser α) :=
  fun _ => .throw hk hs fun h => by rw [hf] at h; cases h

theorem get : Blames ts seen MonadState.get :=
  fun _ _ _ => List.suffix_rfl

theorem peek : Blames ts seen Parser.peek :=
  fun _ _ _ => List.suffix_rfl

theorem peekKind : Blames ts seen Parser.peekKind :=
  fun _ _ _ => List.suffix_rfl

theorem atStatementEnd : Blames ts seen Parser.atStatementEnd :=
  fun _ _ _ => List.suffix_rfl

theorem extentFrom (first : Extent) : Blames ts seen (Parser.extentFrom first) :=
  fun _ _ _ => List.suffix_rfl

theorem advance : Blames ts seen Parser.advance :=
  fun c _ _ => c.next_suffix

theorem skipNewlines : Blames ts seen Parser.skipNewlines :=
  fun c _ _ => Cursor.skip_suffix _ c.last c.rest

theorem skipSeparators : Blames ts seen Parser.skipSeparators :=
  fun c _ _ => Cursor.skip_suffix _ c.last c.rest

theorem accept (kind : TokenKind) : Blames ts seen (Parser.accept kind) :=
  .bind .peekKind fun _ => .ite (fun _ => .bind .advance fun _ => .pure _) fun _ => .pure _

theorem bind_peek {f : Option Token → Parser β}
    (hsome : ∀ t, Blames ts (t.span.start :: seen) (f (some t)))
    (hnone : ∀ c, c.rest = [] → BlamesAt ts seen (f none) c) :
    Blames ts seen (Parser.peek >>= f) := by
  rintro ⟨last, _ | ⟨t, us⟩⟩
  · exact hnone ⟨last, []⟩ rfl
  · exact (hsome t ⟨last, t :: us⟩).see seen_head

theorem expected (what : String) : Blames ts seen (Parser.expected what : Parser α) := by
  refine .bind_peek (fun t => ?_) fun c hc => ?_
  · exact .throw (by simp) (by simp [ParseError.span]) rfl
  · exact .throw (by simp) (by simp [ParseError.span]) fun _ => hc

theorem expect (kind : TokenKind) (what : String) : Blames ts seen (Parser.expect kind what) :=
  .bind_peek (fun _ => .ite (fun _ => .bind .advance fun _ => .pure _) fun _ => .expected what)
    fun c _ => expected what c

theorem expectWord (what : String) : Blames ts seen (Parser.expectWord what) :=
  .bind_peek (fun _ => .ite (fun _ => .bind .advance fun _ => .pure _) fun _ => .expected what)
    fun c _ => expected what c

theorem iterate {step : β → Parser (Option β)} (h : ∀ b, Blames ts seen (step b))
    (us : List Token) (b : β) : Blames ts seen (Parser.iterate step us b) := by
  induction us generalizing b with
  | nil => exact .bind (h b) fun _ => .pure _
  | cons t us ih =>
    refine .bind (h b) fun o => ?_
    cases o with
    | none => exact .pure b
    | some b' => exact ih b'

theorem repeatFrom {step : β → Parser (Option β)} (h : ∀ b, Blames ts seen (step b)) (b : β) :
    Blames ts seen (Parser.repeatFrom step b) :=
  .bind .get fun c => .iterate h c.rest b

theorem collect {step : Parser (Option α)} (h : Blames ts seen step) (us : List Token) :
    Blames ts seen (Parser.collect step us) := by
  induction us with
  | nil => exact .bind h fun _ => .pure _
  | cons t us ih =>
    refine .bind h fun o => ?_
    cases o with
    | none => exact .pure _
    | some a => exact .bind ih fun _ => .pure _

theorem many {step : Parser (Option α)} (h : Blames ts seen step) :
    Blames ts seen (Parser.many step) :=
  .bind .get fun c => .collect h c.rest

theorem after (kind : TokenKind) (h : Blames ts seen p) : Blames ts seen (Parser.after kind p) :=
  .bind (.accept kind) fun _ => .ite (fun _ => .bind h fun _ => .pure _) fun _ => .pure _

theorem commaSeparated (closing : Symbol) (h : Blames ts seen p) :
    Blames ts seen (Parser.commaSeparated closing p) :=
  .bind .peekKind fun _ => .ite (fun _ => .pure _) fun _ =>
    .bind h fun _ => .bind (.many (.after _ h)) fun _ => .pure _

end Blames

/-- What the parsers of a recursion blame has been seen. -/
structure Recursion.Blames (r : Recursion) (ts : List Token) : Prop where
  expression : ∀ seen min, BrightCoverage.Blames ts seen (r.expression min)
  statement : ∀ seen, BrightCoverage.Blames ts seen r.statement
  inlineElseIf : ∀ seen, BrightCoverage.Blames ts seen r.inlineElseIf

section Parsers

variable {self : Recursion} {opener : Span}

/-- The end of a block is missing only where the text ends, and then its opener is blamed. -/
theorem close_blames (b : Block) (ho : opener.start ∈ seen) : Blames ts seen (close b opener) := by
  intro c
  refine (Blames.get c).bind fun c₀ c' hc => ?_
  cases hc
  show BlamesAt ts _ (if b.atCloser c then _ else _) c
  split
  · exact Blames.advance c
  · split
    · exact Blames.bind .advance (fun _ => .bind (.accept _) fun _ => .pure _) c
    · split
      · exact Blames.bind .advance (fun _ => .advance) c
      · split
        · next hrest =>
          exact .throw (by simp) (by simpa [ParseError.span] using ho)
            fun _ => List.isEmpty_iff.1 hrest
        · exact Blames.expected _ c

theorem itemSeparator_blames : Blames ts seen itemSeparator :=
  .bind (.accept _) fun _ => .bind .peekKind fun _ => .bind .skipNewlines fun _ => .pure _

theorem collection_blames (closing : Symbol) {item : Parser α} (hi : Blames ts seen item) :
    Blames ts seen (collection closing item) := by
  refine .bind (.repeatFrom (fun state => ?_) _) fun _ => .bind (.expect _ _) fun _ => .pure _
  refine .ite (fun _ => .pure _) fun _ => .bind .skipNewlines fun _ => .bind .peekKind fun _ => ?_
  refine .ite (fun _ => .pure _) fun _ => .bind hi fun _ => ?_
  exact .bind itemSeparator_blames fun _ => .pure _

theorem integerLiteral_blames {literal : Token} (hl : literal.span.start ∈ seen) (value : Nat) :
    Blames ts seen (integerLiteral literal value) :=
  .bind .advance fun _ => .ite (fun _ => .bind (.extentFrom _) fun _ => .pure _) fun _ =>
    .throw (by simp) (by simpa [ParseError.span] using hl) rfl

theorem leaf_blames (first : Token) (make : Extent → Expr Extent) :
    Blames ts seen (leaf first make) :=
  .bind .advance fun _ => .bind (.extentFrom _) fun _ => .pure _

theorem elseIfKeyword_blames (first : Token) : Blames ts seen (elseIfKeyword first) :=
  .bind .advance fun _ => .ite (fun _ => .bind .advance fun _ => .extentFrom _) fun _ => .extentFrom _

theorem assignTo_blames (here : Extent) {target : Expr Extent}
    (ht : target.here.span.start ∈ seen) (op : AssignOp) (value : Expr Extent) :
    Blames ts seen (assignTo here target op value) := by
  cases target <;>
    first | exact .pure _ | exact .throw (by simp) (by simpa [ParseError.span] using ht) rfl

theorem callStatement_blames {target : Expr Extent} (ht : target.here.span.start ∈ seen) :
    Blames ts seen (callStatement target) := by
  have hmerge : ∀ t : Token, Blames ts (t.span.start :: seen)
      (throw (.danglingExpression (target.here.span.merge t.span)) : Parser (Statement Extent)) := by
    refine fun t => .throw (by simp) (fun s hs => ?_) rfl
    obtain rfl : target.here.span.merge t.span = s := by simpa [ParseError.span] using hs
    rcases Nat.le_total target.here.span.start t.span.start with hle | hle
    · exact List.mem_cons_of_mem _ (by simpa [Span.merge, hle] using ht)
    · simp [Span.merge, hle]
  have hnone : ∀ c : Cursor, BlamesAt ts seen
      (throw (.danglingExpression target.here.span) : Parser (Statement Extent)) c :=
    fun c => Blames.throw (by simp) (by simpa [ParseError.span] using ht) rfl c
  refine .bind_peek (fun t => ?_) fun c _ => ?_
  · cases target <;> first | exact hmerge t | exact .bind (.extentFrom _) fun _ => .pure _
  · cases target <;>
      first | exact hnone c | exact Blames.bind (.extentFrom _) (fun _ => .pure _) c

theorem label_blames (first : Token) : Blames ts seen (label first) :=
  .bind .advance fun _ => .bind .advance fun _ => .bind (.extentFrom _) fun _ => .pure _

theorem goto_blames (first : Token) : Blames ts seen (goto first) :=
  .bind .advance fun _ => .bind (.expect _ _) fun _ => .bind (.extentFrom _) fun _ => .pure _

theorem exitedLoop_blames : Blames ts seen exitedLoop :=
  .bind (.accept _) fun _ => .ite (fun _ => .pure _) fun _ =>
    .bind (.accept _) fun _ => .ite (fun _ => .pure _) fun _ => .expected _

theorem exit_blames (first : Token) : Blames ts seen (exit first) := by
  have hend : ∀ loop, Blames ts seen
      (do return Statement.exit (← extentFrom first.extent) loop) :=
    fun _ => .bind (.extentFrom _) fun _ => .pure _
  exact .bind .advance fun _ =>
    .ite (fun _ => .bind (.pure _) hend) fun _ => .bind exitedLoop_blames hend

theorem endProgram_blames {first : Token} (hf : first.span.start ∈ seen) :
    Blames ts seen (endProgram first) := by
  refine .bind .advance fun _ => .bind (.extentFrom _) fun _ => .bind_peek (fun t => ?_) fun c _ => ?_
  · refine .ite (fun _ => .bind (.throw (by simp) (fun s hs => ?_) rfl) fun _ => .pure _)
      fun _ => .pure _
    obtain rfl : first.span.merge t.span = s := by simpa [ParseError.span] using hs
    rcases Nat.le_total first.span.start t.span.start with hle | hle
    · exact List.mem_cons_of_mem _ (by simpa [Span.merge, hle] using hf)
    · simp [Span.merge, hle]
  · exact Blames.pure _ c

theorem stop_blames (first : Token) : Blames ts seen (stop first) :=
  .bind .advance fun _ => .bind (.extentFrom _) fun _ => .pure _

theorem library_blames (first : Token) : Blames ts seen (library first) :=
  .bind .advance fun _ => .bind (.expect _ _) fun _ => .bind (.extentFrom _) fun _ => .pure _

variable (h : self.Blames ts)
include h

theorem block_blames (atEnd : Cursor → Bool) : Blames ts seen (block self atEnd) := by
  refine .many (.bind .skipSeparators fun _ => .bind .get fun c => .ite (fun _ => .pure _) fun _ => ?_)
  exact .bind (h.statement _) fun _ => .bind .atStatementEnd fun _ =>
    .ite (fun _ => .pure _) fun _ => .expected _

theorem procedure_blames (keyword : ProcedureKind) (ho : opener.start ∈ seen) :
    Blames ts seen (procedure self keyword opener) := by
  have hparam : Blames ts seen (parameter self) :=
    .bind (.expectWord _) fun _ => .bind (.after _ (h.expression _ _)) fun _ =>
      .bind (.after _ (.expectWord _)) fun _ => .pure _
  have hparams : Blames ts seen (parameters self) :=
    .bind (.expect _ _) fun _ => .bind (.commaSeparated _ hparam) fun _ =>
      .bind (.expect _ _) fun _ => .pure _
  exact .bind hparams fun _ => .bind (.after _ (.expectWord _)) fun _ =>
    .bind (block_blames h _) fun _ => .bind (close_blames _ ho) fun _ => .pure _

theorem entry_blames : Blames ts seen (entry self) := by
  have hvalue : ∀ key, Blames ts seen
      (do let _ ← expect (.symbol .colon) ":"; return Entry.mk key (← self.expression .lowest)) :=
    fun _ => .bind (.expect _ _) fun _ => .bind (h.expression _ _) fun _ => .pure _
  exact .bind .peekKind fun _ => .ite (fun _ => .bind (.map _ (.expect _ _)) hvalue)
    fun _ => .bind (.expectWord _) hvalue

theorem enclosed_blames (closing : Symbol) : Blames ts seen (enclosed self closing) :=
  .bind .advance fun _ => .bind .skipNewlines fun _ => .bind (h.expression _ _) fun _ =>
    .bind .skipNewlines fun _ => .bind (.expect _ _) fun _ => .pure _

theorem primary_blames : Blames ts seen (primary self) := by
  refine .bind_peek (fun t => ?_) fun c hc => ?_
  · have ht : t.span.start ∈ t.span.start :: seen := List.mem_cons_self ..
    dsimp only
    split
    · exact integerLiteral_blames ht _
    · exact integerLiteral_blames ht _
    · exact leaf_blames _ _
    · exact leaf_blames _ _
    · exact .bind .advance fun _ => .throw (by simp) (by simp [ParseError.span]) rfl
    · exact leaf_blames _ _
    · exact leaf_blames _ _
    · exact leaf_blames _ _
    · exact leaf_blames _ _
    · exact .bind (enclosed_blames h _) fun _ => .bind (.extentFrom _) fun _ => .pure _
    · exact .bind .advance fun _ => .bind (collection_blames _ (h.expression _ _)) fun _ =>
        .bind (.extentFrom _) fun _ => .pure _
    · exact .bind .advance fun _ => .bind (collection_blames _ (entry_blames h)) fun _ =>
        .bind (.extentFrom _) fun _ => .pure _
    · exact .bind .advance fun _ => .bind (procedure_blames h _ ht) fun _ =>
        .bind (.extentFrom _) fun _ => .pure _
    · exact .bind .advance fun _ => .bind (procedure_blames h _ ht) fun _ =>
        .bind (.extentFrom _) fun _ => .pure _
    · exact .throw (by simp) (by simp [ParseError.span]) rfl
  · exact .throw (by simp) (by simp [ParseError.span]) fun _ => hc

theorem arguments_blames : Blames ts seen (arguments self) := by
  have hargument : Blames ts seen (argument self) :=
    .bind .skipNewlines fun _ => .bind (h.expression _ _) fun _ =>
      .bind .skipNewlines fun _ => .pure _
  exact .bind .advance fun _ => .bind .skipNewlines fun _ =>
    .bind (.commaSeparated _ hargument) fun _ => .bind (.expect _ _) fun _ => .pure _

theorem postfixStep_blames (object : Expr Extent) : Blames ts seen (postfixStep self object) := by
  refine .bind .peekKind fun kind => ?_
  split
  · exact .bind (arguments_blames h) fun _ => .bind (.extentFrom _) fun _ => .pure _
  · exact .bind .advance fun _ => .bind (.expectWord _) fun _ =>
      .bind (.extentFrom _) fun _ => .pure _
  · exact .bind (enclosed_blames h _) fun _ => .bind (.extentFrom _) fun _ => .pure _
  · exact .bind .advance fun _ => .bind (.expectWord _) fun _ =>
      .bind (.extentFrom _) fun _ => .pure _
  · exact .pure _

theorem operand_blames : Blames ts seen (operand self) :=
  .bind (primary_blames h) fun _ => .repeatFrom (postfixStep_blames h) _

theorem unary_blames : Blames ts seen (unary self) := by
  refine .bind .peek fun o => ?_
  cases o with
  | none => exact operand_blames h
  | some t =>
    dsimp only
    split
    · exact .bind .advance fun _ => .bind (h.expression _ _) fun _ =>
        .bind (.extentFrom _) fun _ => .pure _
    · exact operand_blames h

theorem expression_blames (min : Precedence) : Blames ts seen (Parser.expression self min) := by
  refine .bind (unary_blames h) fun left => .repeatFrom (fun left => ?_) left
  refine .bind .peekKind fun kind => ?_
  split
  · exact .ite (fun _ => .pure _) fun _ => .bind .advance fun _ => .bind (h.expression _ _) fun _ =>
      .bind (.extentFrom _) fun _ => .pure _
  · exact .pure _

theorem print_blames (first : Token) : Blames ts seen (print self first) := by
  refine .bind .advance fun _ => .bind (.repeatFrom (fun items => ?_) _) fun _ =>
    .bind (.extentFrom _) fun _ => .pure _
  refine .bind .atStatementEnd fun _ => .ite (fun _ => .pure _) fun _ =>
    .bind .peekKind fun kind => ?_
  split
  · exact .bind .advance fun _ => .pure _
  · exact .bind (h.expression _ _) fun _ => .pure _

theorem operandStatement_blames (hs : self.Sound) : Blames ts seen (operandStatement self) := by
  rintro ⟨last, us⟩
  have hstart : ∀ target c', operand self ⟨last, us⟩ = .ok target c' →
      ∃ t, us.head? = some t ∧ target.here.span.start = t.span.start := by
    intro target c' ho
    rw [Cursor.eq_after ⟨last, us⟩] at ho
    obtain ⟨j, -, laid⟩ := operand_run hs ho
    have hlt := laid.lt.trans_le laid.le_length
    have hhere : target.here = extentBetween us 0 j := laid.here_eq
    refine ⟨us[0], by rw [List.head?_eq_getElem?, List.getElem?_eq_getElem hlt], ?_⟩
    rw [hhere, extentBetween, extentAt_eq (List.getElem?_eq_getElem hlt)]
    rfl
  cases us with
  | nil =>
    refine (operand_blames h _).bind fun target c' ho => ?_
    obtain ⟨t, ht, -⟩ := hstart target c' ho
    cases ht
  | cons t us =>
    refine .see seen_head ((operand_blames h _).bind fun target c' ho => ?_)
    obtain ⟨t', ht', hplace⟩ := hstart target c' ho
    cases ht'
    have hmem : target.here.span.start ∈ t.span.start :: seen := by simp [hplace]
    refine Blames.bind .peekKind (fun kind => ?_) c'
    split
    · exact .bind .advance fun _ => .bind (h.expression _ _) fun _ =>
        .bind (.extentFrom _) fun _ => assignTo_blames _ hmem _ _
    · exact .ite (fun _ => .bind .advance fun _ => .bind (.extentFrom _) fun _ => .pure _)
        fun _ => callStatement_blames hmem

theorem giveBack_blames (first : Token) : Blames ts seen (giveBack self first) :=
  .bind .advance fun _ => .bind .atStatementEnd fun _ =>
    .ite (fun _ => .bind (.extentFrom _) fun _ => .pure _) fun _ =>
      .bind (h.expression _ _) fun _ => .bind (.extentFrom _) fun _ => .pure _

theorem dim_blames (first : Token) : Blames ts seen (dim self first) :=
  .bind .advance fun _ => .bind (.expect _ _) fun _ => .bind (.expect _ _) fun _ =>
    .bind (h.expression _ _) fun _ => .bind (.many (.after _ (h.expression _ _))) fun _ =>
      .bind (.expect _ _) fun _ => .bind (.extentFrom _) fun _ => .pure _

theorem namedProcedure_blames (keyword : ProcedureKind) {first : Token}
    (hf : first.span.start ∈ seen) : Blames ts seen (namedProcedure self keyword first) :=
  .bind .advance fun _ => .bind (.expect _ _) fun _ => .bind (procedure_blames h _ hf) fun _ =>
    .bind (.extentFrom _) fun _ => .pure _

theorem inlineStatements_blames : Blames ts seen (inlineStatements self) := by
  refine .bind (h.statement _) fun _ => .bind (.many ?_) fun _ => .pure _
  exact .bind (.accept _) fun _ => .ite (fun _ => .bind .get fun _ => .ite (fun _ => .pure _)
    fun _ => .bind (h.statement _) fun _ => .pure _) fun _ => .pure _

theorem inlineBranch_blames (first : Token) (condition : Expr Extent) :
    Blames ts seen (inlineBranch self first condition) := by
  refine .bind (inlineStatements_blames h) fun _ => .bind (.bind .peekKind fun kind => ?_) fun _ =>
    .bind (.extentFrom _) fun _ => .pure _
  split
  · exact .bind (h.inlineElseIf _) fun _ => .pure _
  · exact .bind .advance fun _ => .bind (inlineStatements_blames h) fun _ => .pure _
  · exact .pure _

theorem inlineElseIf_blames : Blames ts seen (inlineElseIf self) := by
  refine .bind .peek fun o => ?_
  cases o with
  | none => exact .expected _
  | some t =>
    exact .bind .advance fun _ => .bind (h.expression _ _) fun _ => .bind (.expect _ _) fun _ =>
      inlineBranch_blames h _ _

theorem elseIf_blames : Blames ts seen (elseIf self) := by
  refine .bind .get fun c => ?_
  split
  · exact .bind (elseIfKeyword_blames _) fun _ => .bind (h.expression _ _) fun _ =>
      .bind (.accept _) fun _ => .bind (block_blames h _) fun _ => .pure _
  · exact .pure _

theorem branch_blames {first : Token} (hf : first.span.start ∈ seen) :
    Blames ts seen (branch self first) := by
  have hblock : ∀ condition, Blames ts seen (blockBranch self first condition) := fun _ =>
    .bind (block_blames h _) fun _ => .bind (.many (elseIf_blames h)) fun _ =>
      .bind (.after _ (block_blames h _)) fun _ => .bind (close_blames _ hf) fun _ =>
        .bind (.extentFrom _) fun _ => .pure _
  exact .bind .advance fun _ => .bind (h.expression _ _) fun _ => .bind (.accept _) fun _ =>
    .bind .get fun _ => .ite (fun _ => hblock _) fun _ =>
      .ite (fun _ => inlineBranch_blames h _ _) fun _ => .expected _

theorem forLoop_blames {first : Token} (hf : first.span.start ∈ seen) :
    Blames ts seen (forLoop self first) := by
  have heach : Blames ts seen (forEach self first) :=
    .bind (.expect _ _) fun _ => .bind (.expect _ _) fun _ => .bind (h.expression _ _) fun _ =>
      .bind (block_blames h _) fun _ => .bind (close_blames _ hf) fun _ =>
        .bind (.extentFrom _) fun _ => .pure _
  have hcounted : Blames ts seen (countedLoop self first) :=
    .bind (.expect _ _) fun _ => .bind (.expect _ _) fun _ => .bind (h.expression _ _) fun _ =>
      .bind (.expect _ _) fun _ => .bind (h.expression _ _) fun _ =>
        .bind (.after _ (h.expression _ _)) fun _ => .bind (block_blames h _) fun _ =>
          .bind (close_blames _ hf) fun _ => .bind (.extentFrom _) fun _ => .pure _
  exact .bind .advance fun _ => .bind (.accept _) fun _ => .ite (fun _ => heach) fun _ => hcounted

theorem whileLoop_blames {first : Token} (hf : first.span.start ∈ seen) :
    Blames ts seen (whileLoop self first) :=
  .bind .advance fun _ => .bind (h.expression _ _) fun _ => .bind (block_blames h _) fun _ =>
    .bind (close_blames _ hf) fun _ => .bind (.extentFrom _) fun _ => .pure _

theorem compileElseIf_blames : Blames ts seen (compileElseIf self) := by
  refine .bind .peek fun o => ?_
  split
  · exact .bind .advance fun _ => .bind (block_blames h _) fun _ => .pure _
  · exact .pure _

theorem compileElse_blames : Blames ts seen (compileElse self) :=
  .bind .get fun _ => .ite (fun _ => .bind .advance fun _ => .bind (block_blames h _) fun _ =>
    .pure _) fun _ => .pure _

omit h in
theorem block_ended (hs : self.Sound) {atEnd : Cursor → Bool} {body : List (Statement Extent)}
    {c c' : Cursor} (hb : block self atEnd c = .ok body c') : c'.rest = [] ∨ atEnd c' = true := by
  refine many_ok (blockItem_progress hs atEnd)
    (Q := fun _ _ c' => c'.rest = [] ∨ atEnd c' = true) (fun c c' hi => ?_)
    (fun _ _ _ _ _ _ hend => hend) hb
  simp only [blockItem, skipSeparators_bind, get_bind] at hi
  split at hi
  · next hend =>
    cases hi
    simpa using hend
  · obtain ⟨s, c₁, -, hi⟩ := bind_eq_ok.1 hi
    simp only [atStatementEnd_bind] at hi
    split at hi
    · cases hi
    · exact absurd hi expected_ne_ok

omit h in
theorem compileElseIfs_ended (hs : self.Sound) {clauses : List (CompileElseIf Extent)}
    {c c' : Cursor} (hm : many (compileElseIf self) c = .ok clauses c')
    (hend : c.rest = [] ∨ Directive.atBranchEnd c = true) :
    c'.rest = [] ∨ Directive.atBranchEnd c' = true := by
  refine many_ok (compileElseIf_progress hs)
    (Q := fun _ c c' => (c.rest = [] ∨ Directive.atBranchEnd c = true) →
      c'.rest = [] ∨ Directive.atBranchEnd c' = true)
    (fun c c' hi hend => ?_) (fun c clause c₁ hi _ c' hrest _ => hrest ?_) hm hend
  all_goals
    simp only [compileElseIf, peek_bind] at hi
    obtain ⟨p, hp, hi⟩ := named_run hi
    split at hp <;> subst hp
  · obtain ⟨body, c₂, -, hi⟩ := bind_eq_ok.1 hi
    obtain ⟨body, c₂, -, hi⟩ := bind_eq_ok.1 hi
    cases hi
  · cases hi
    exact hend
  · simp only [advance_bind] at hi
    obtain ⟨body, c₂, hb, hi⟩ := bind_eq_ok.1 hi
    cases hi
    exact block_ended hs hb
  · cases hi

omit h in
theorem compileElse_ended (hs : self.Sound) {body : Option (List (Statement Extent))}
    {c c' : Cursor} (he : compileElse self c = .ok body c')
    (hend : c.rest = [] ∨ Directive.atBranchEnd c = true) :
    c'.rest = [] ∨ Directive.atBranchEnd c' = true := by
  simp only [compileElse, get_bind] at he
  split at he
  · simp only [advance_bind] at he
    obtain ⟨body, c₁, hb, he⟩ := bind_eq_ok.1 he
    cases he
    exact block_ended hs hb
  · cases he
    exact hend

theorem compileIf_blames (hs : self.Sound) {first : Token} (hf : first.span.start ∈ seen)
    (condition : String) : Blames ts seen (compileIf self first condition) := by
  intro c
  refine (block_blames h _ c).bind fun thenBody c₁ hb => ?_
  refine (Blames.many (compileElseIf_blames h) c₁).bind fun clauses c₂ hm => ?_
  refine (compileElse_blames h c₂).bind fun elseBody c₃ he => ?_
  have hend := compileElse_ended hs he (compileElseIfs_ended hs hm (block_ended hs hb))
  refine (Blames.get c₃).bind fun c₄ c' hc => ?_
  cases hc
  split
  · exact Blames.bind .advance (fun _ => .bind (.extentFrom _) fun _ => .pure _) c₃
  · exact Blames.expected _ c₃
  · next hnone =>
    refine .throw (by simp) (by simpa [ParseError.span] using hf) fun _ => hend.resolve_right ?_
    simp [Directive.atBranchEnd, hnone]

theorem directive_blames (hs : self.Sound) {first : Token} (hf : first.span.start ∈ seen) :
    Blames ts seen (directive self first) := by
  refine .bind .advance fun _ => ?_
  dsimp only
  split
  · exact compileIf_blames h hs hf _
  · exact .bind (.extentFrom _) fun _ => .pure _
  · exact .bind (.extentFrom _) fun _ => .pure _
  all_goals exact .throw (by simp) (by simpa [ParseError.span] using hf) rfl

theorem statement_blames (hs : self.Sound) : Blames ts seen (statement self) := by
  refine .bind_peek (fun t => ?_) fun c hc => ?_
  · have ht : t.span.start ∈ t.span.start :: seen := List.mem_cons_self ..
    dsimp only
    split
    · exact print_blames h _
    · exact print_blames h _
    · exact branch_blames h ht
    · exact forLoop_blames h ht
    · exact whileLoop_blames h ht
    · exact goto_blames _
    · exact giveBack_blames h _
    · exact exit_blames _
    · exact exit_blames _
    · exact endProgram_blames ht
    · exact stop_blames _
    · exact namedProcedure_blames h _ ht
    · exact namedProcedure_blames h _ ht
    · exact dim_blames h _
    · exact library_blames _
    · exact directive_blames h hs ht
    · exact .bind .get fun _ => .ite (fun _ => label_blames _) fun _ =>
        operandStatement_blames h hs
    · exact .throw (by simp) (by simp [ParseError.span]) rfl
    · exact .throw (by simp) (by simp [ParseError.span]) rfl
  · exact .throw (by simp) (by simp [ParseError.span]) fun _ => hc

theorem wholeStatement_blames : Blames ts seen (wholeStatement self) :=
  .bind (h.statement _) fun _ => .bind .atStatementEnd fun _ => .ite (fun _ => .pure _) fun _ =>
    .expected _

end Parsers

theorem blames_ofDepth (ts : List Token) (depth : Nat) : (Recursion.ofDepth depth).Blames ts := by
  induction depth with
  | zero => exact ⟨fun _ _ => .expected _, fun _ => .expected _, fun _ => .expected _⟩
  | succ depth ih =>
    exact ⟨fun _ min => expression_blames ih min,
      fun _ => statement_blames ih (sound_ofDepth depth), fun _ => inlineElseIf_blames ih⟩

end BrightCoverage
