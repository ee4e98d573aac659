import Mathlib.Data.List.Infix
import BrightCoverage.Proofs.ProgramLayout

/-! No failure is passed over. A parser that succeeds has had no part that failed, so it does the same
when each failing part is answered in some other way; and a parser that fails has not moved back, so
reading goes on behind the place where it started. `Follows` says both of two parsers that differ only
in such answers, and it goes along with the steps of a parser. -/

namespace BrightCoverage

open BrightCoverage.Parser

variable {α β : Type}

/-- Wherever the first parser succeeds, the second does the same. The first never moves back. -/
def Follows (p q : Parser α) : Prop :=
  ∀ c, match p c with
    | .ok a c' => c'.rest <:+ c.rest ∧ q c = .ok a c'
    | .error _ c' => c'.rest <:+ c.rest

theorem Cursor.next_suffix (c : Cursor) : c.next.rest <:+ c.rest := by
  obtain ⟨last, _ | ⟨t, ts⟩⟩ := c
  · exact List.suffix_rfl
  · exact List.suffix_cons ..

theorem Cursor.skip_suffix (kinds : List TokenKind) (last : Extent) (ts : List Token) :
    (Cursor.skip kinds last ts).rest <:+ ts := by
  induction ts generalizing last with
  | nil => exact List.suffix_rfl
  | cons t ts ih =>
    rw [Cursor.skip]
    split
    · exact (ih _).trans (List.suffix_cons ..)
    · exact List.suffix_rfl

namespace Follows

variable {p q : Parser α} {f g : α → Parser β}

theorem ok (h : Follows p q) {c c' : Cursor} {a : α} (hp : p c = .ok a c') :
    c'.rest <:+ c.rest ∧ q c = .ok a c' := by
  have hc := h c
  rwa [hp] at hc

theorem error (h : Follows p q) {c c' : Cursor} {e : ParseError} (hp : p c = .error e c') :
    c'.rest <:+ c.rest := by
  have hc := h c
  rwa [hp] at hc

theorem pure (a : α) : Follows (Pure.pure a) (Pure.pure a) :=
  fun _ => ⟨List.suffix_rfl, rfl⟩

theorem throw (e : ParseError) : Follows (MonadExcept.throw e) q :=
  fun _ => List.suffix_rfl

theorem bind (hp : Follows p q) (hf : ∀ a, Follows (f a) (g a)) :
    Follows (p >>= f) (q >>= g) := by
  intro c
  rw [bind_apply]
  cases hc : p c with
  | error e c₁ => exact hp.error hc
  | ok a c₁ =>
    obtain ⟨hs, hq⟩ := hp.ok hc
    simp only [bind_of_ok hq]
    cases hfa : f a c₁ with
    | error e c₂ => exact ((hf a).error hfa).trans hs
    | ok b c₂ => exact ⟨((hf a).ok hfa).1.trans hs, ((hf a).ok hfa).2⟩

theorem map (k : α → β) (hp : Follows p q) : Follows (k <$> p) (k <$> q) := by
  rw [map_eq_pure_bind, map_eq_pure_bind]
  exact hp.bind fun a => .pure (k a)

theorem ite {b : Prop} [Decidable b] {p' q' : Parser α} (h : b → Follows p q)
    (h' : ¬ b → Follows p' q') : Follows (if b then p else p') (if b then q else q') := by
  split
  · exact h ‹b›
  · exact h' ‹¬ b›

theorem tryCatch (hp : Follows p q) (answer : ParseError → Parser α) :
    Follows p (MonadExcept.tryCatch q answer) := by
  intro c
  cases hc : p c with
  | error e c₁ => exact hp.error hc
  | ok a c₁ =>
    obtain ⟨hs, hq⟩ := hp.ok hc
    refine ⟨hs, ?_⟩
    show EStateM.tryCatch q answer c = _
    simp only [EStateM.tryCatch, hq]

theorem get : Follows MonadState.get MonadState.get :=
  fun _ => ⟨List.suffix_rfl, rfl⟩

theorem peek : Follows Parser.peek Parser.peek :=
  fun _ => ⟨List.suffix_rfl, rfl⟩

theorem peekKind : Follows Parser.peekKind Parser.peekKind :=
  fun _ => ⟨List.suffix_rfl, rfl⟩

theorem atStatementEnd : Follows Parser.atStatementEnd Parser.atStatementEnd :=
  fun _ => ⟨List.suffix_rfl, rfl⟩

theorem extentFrom (first : Extent) :
    Follows (Parser.extentFrom first) (Parser.extentFrom first) :=
  fun _ => ⟨List.suffix_rfl, rfl⟩

theorem advance : Follows Parser.advance Parser.advance :=
  fun c => ⟨c.next_suffix, rfl⟩

theorem skipNewlines : Follows Parser.skipNewlines Parser.skipNewlines :=
  fun c => ⟨Cursor.skip_suffix _ c.last c.rest, rfl⟩

theorem skipSeparators : Follows Parser.skipSeparators Parser.skipSeparators :=
  fun c => ⟨Cursor.skip_suffix _ c.last c.rest, rfl⟩

theorem accept (kind : TokenKind) : Follows (Parser.accept kind) (Parser.accept kind) :=
  .bind .peekKind fun _ => .ite (fun _ => .bind .advance fun _ => .pure _) fun _ => .pure _

theorem expected (what : String) : Follows (Parser.expected what) q := by
  intro c
  obtain ⟨e, he⟩ := expected_eq_error (α := α) what c
  rw [he]

theorem expect (kind : TokenKind) (what : String) :
    Follows (Parser.expect kind what) (Parser.expect kind what) := by
  refine .bind .peek fun o => ?_
  cases o with
  | none => exact .expected what
  | some t => exact .ite (fun _ => .bind .advance fun _ => .pure _) fun _ => .expected what

theorem expectWord (what : String) :
    Follows (Parser.expectWord what) (Parser.expectWord what) := by
  refine .bind .peek fun o => ?_
  cases o with
  | none => exact .expected what
  | some t => exact .ite (fun _ => .bind .advance fun _ => .pure _) fun _ => .expected what

theorem iterate {step step' : β → Parser (Option β)} (h : ∀ b, Follows (step b) (step' b))
    (ts : List Token) (b : β) : Follows (Parser.iterate step ts b) (Parser.iterate step' ts b) := by
  induction ts generalizing b with
  | nil => exact .bind (h b) fun _ => .pure _
  | cons t ts ih =>
    refine .bind (h b) fun o => ?_
    cases o with
    | none => exact .pure b
    | some b' => exact ih b'

theorem repeatFrom {step step' : β → Parser (Option β)} (h : ∀ b, Follows (step b) (step' b))
    (b : β) : Follows (Parser.repeatFrom step b) (Parser.repeatFrom step' b) :=
  .bind .get fun c => .iterate h c.rest b

theorem collect {step step' : Parser (Option α)} (h : Follows step step') (ts : List Token) :
    Follows (Parser.collect step ts) (Parser.collect step' ts) := by
  induction ts with
  | nil => exact .bind h fun _ => .pure _
  | cons t ts ih =>
    refine .bind h fun o => ?_
    cases o with
    | none => exact .pure _
    | some a => exact .bind ih fun _ => .pure _

theorem many {step step' : Parser (Option α)} (h : Follows step step') :
    Follows (Parser.many step) (Parser.many step') :=
  .bind .get fun c => .collect h c.rest

theorem after (kind : TokenKind) (h : Follows p q) :
    Follows (Parser.after kind p) (Parser.after kind q) :=
  .bind (.accept kind) fun _ => .ite (fun _ => .bind h fun _ => .pure _) fun _ => .pure _

theorem commaSeparated (closing : Symbol) (h : Follows p q) :
    Follows (Parser.commaSeparated closing p) (Parser.commaSeparated closing q) :=
  .bind .peekKind fun _ => .ite (fun _ => .pure _) fun _ =>
    .bind h fun _ => .bind (.many (.after _ h)) fun _ => .pure _

end Follows

/-- The parsers of one recursion follow those of another. -/
structure Recursion.Follows (one other : Recursion) : Prop where
  expression : ∀ min, BrightCoverage.Follows (one.expression min) (other.expression min)
  statement : BrightCoverage.Follows one.statement other.statement
  inlineElseIf : BrightCoverage.Follows one.inlineElseIf other.inlineElseIf

section Parsers

variable {self other : Recursion} (h : self.Follows other)

theorem close_follows (b : Block) (opener : Span) : Follows (close b opener) (close b opener) := by
  refine .bind .get fun c => .ite (fun _ => .advance) fun _ => .ite (fun _ => ?_) fun _ => ?_
  · exact .bind .advance fun _ => .bind (.accept _) fun _ => .pure _
  · refine .ite (fun _ => .bind .advance fun _ => .advance) fun _ => ?_
    exact .ite (fun _ => .throw _) fun _ => .expected _

theorem itemSeparator_follows : Follows itemSeparator itemSeparator :=
  .bind (.accept _) fun _ => .bind .peekKind fun _ => .bind .skipNewlines fun _ => .pure _

theorem collection_follows (closing : Symbol) {item item' : Parser α} (hi : Follows item item') :
    Follows (collection closing item) (collection closing item') := by
  refine .bind (.repeatFrom (fun state => ?_) _) fun _ => .bind (.expect _ _) fun _ => .pure _
  refine .ite (fun _ => .pure _) fun _ => .bind .skipNewlines fun _ => .bind .peekKind fun _ => ?_
  refine .ite (fun _ => .pure _) fun _ => .bind hi fun _ => ?_
  exact .bind itemSeparator_follows fun _ => .pure _

theorem integerLiteral_follows (literal : Token) (value : Nat) :
    Follows (integerLiteral literal value) (integerLiteral literal value) :=
  .bind .advance fun _ => .ite (fun _ => .bind (.extentFrom _) fun _ => .pure _) fun _ => .throw _

theorem leaf_follows (first : Token) (make : Extent → Expr Extent) :
    Follows (leaf first make) (leaf first make) :=
  .bind .advance fun _ => .bind (.extentFrom _) fun _ => .pure _

theorem elseIfKeyword_follows (first : Token) :
    Follows (elseIfKeyword first) (elseIfKeyword first) :=
  .bind .advance fun _ => .ite (fun _ => .bind .advance fun _ => .extentFrom _) fun _ => .extentFrom _

theorem assignTo_follows (here : Extent) (target : Expr Extent) (op : AssignOp)
    (value : Expr Extent) :
    Follows (assignTo here target op value) (assignTo here target op value) := by
  cases target <;> first | exact .pure _ | exact .throw _

theorem callStatement_follows (target : Expr Extent) :
    Follows (callStatement target) (callStatement target) := by
  refine .bind .peek fun o => ?_
  cases target <;> cases o <;>
    first | exact .throw _ | exact .bind (.extentFrom _) fun _ => .pure _

theorem label_follows (first : Token) : Follows (label first) (label first) :=
  .bind .advance fun _ => .bind .advance fun _ => .bind (.extentFrom _) fun _ => .pure _

theorem goto_follows (first : Token) : Follows (goto first) (goto first) :=
  .bind .advance fun _ => .bind (.expect _ _) fun _ => .bind (.extentFrom _) fun _ => .pure _

theorem exitedLoop_follows : Follows exitedLoop exitedLoop :=
  .bind (.accept _) fun _ => .ite (fun _ => .pure _) fun _ =>
    .bind (.accept _) fun _ => .ite (fun _ => .pure _) fun _ => .expected _

theorem exit_follows (first : Token) : Follows (exit first) (exit first) := by
  have hend : ∀ loop, Follows (do return Statement.exit (← extentFrom first.extent) loop)
      (do return Statement.exit (← extentFrom first.extent) loop) :=
    fun _ => .bind (.extentFrom _) fun _ => .pure _
  exact .bind .advance fun _ =>
    .ite (fun _ => .bind (.pure _) hend) fun _ => .bind exitedLoop_follows hend

theorem endProgram_follows (first : Token) : Follows (endProgram first) (endProgram first) := by
  refine .bind .advance fun _ => .bind (.extentFrom _) fun _ => .bind .peek fun o => ?_
  cases o with
  | none => exact .pure _
  | some t => exact .ite (fun _ => .bind (.throw _) fun _ => .pure _) fun _ => .pure _

theorem stop_follows (first : Token) : Follows (stop first) (stop first) :=
  .bind .advance fun _ => .bind (.extentFrom _) fun _ => .pure _

theorem library_follows (first : Token) : Follows (library first) (library first) :=
  .bind .advance fun _ => .bind (.expect _ _) fun _ => .bind (.extentFrom _) fun _ => .pure _

include h

theorem block_follows (atEnd : Cursor → Bool) : Follows (block self atEnd) (block other atEnd) := by
  refine .many (.bind .skipSeparators fun _ => .bind .get fun c => .ite (fun _ => .pure _) fun _ => ?_)
  exact .bind h.statement fun _ => .bind .atStatementEnd fun _ =>
    .ite (fun _ => .pure _) fun _ => .expected _

theorem procedure_follows (keyword : ProcedureKind) (opener : Span) :
    Follows (procedure self keyword opener) (procedure other keyword opener) := by
  have hparam : Follows (parameter self) (parameter other) :=
    .bind (.expectWord _) fun _ => .bind (.after _ (h.expression _)) fun _ =>
      .bind (.after _ (.expectWord _)) fun _ => .pure _
  have hparams : Follows (parameters self) (parameters other) :=
    .bind (.expect _ _) fun _ => .bind (.commaSeparated _ hparam) fun _ =>
      .bind (.expect _ _) fun _ => .pure _
  exact .bind hparams fun _ => .bind (.after _ (.expectWord _)) fun _ =>
    .bind (block_follows h _) fun _ => .bind (close_follows _ _) fun _ => .pure _

theorem entry_follows : Follows (entry self) (entry other) := by
  have hvalue : ∀ key, Follows
      (do let _ ← expect (.symbol .colon) ":"; return Entry.mk key (← self.expression .lowest))
      (do let _ ← expect (.symbol .colon) ":"; return Entry.mk key (← other.expression .lowest)) :=
    fun _ => .bind (.expect _ _) fun _ => .bind (h.expression _) fun _ => .pure _
  exact .bind .peekKind fun _ => .ite (fun _ => .bind (.map _ (.expect _ _)) hvalue)
    fun _ => .bind (.expectWord _) hvalue

theorem enclosed_follows (closing : Symbol) :
    Follows (enclosed self closing) (enclosed other closing) :=
  .bind .advance fun _ => .bind .skipNewlines fun _ => .bind (h.expression _) fun _ =>
    .bind .skipNewlines fun _ => .bind (.expect _ _) fun _ => .pure _

theorem primary_follows : Follows (primary self) (primary other) := by
  refine .bind .peek fun o => ?_
  cases o with
  | none => exact .throw _
  | some t =>
    dsimp only
    split
    · exact integerLiteral_follows _ _
    · exact integerLiteral_follows _ _
    · exact leaf_follows _ _
    · exact leaf_follows _ _
    · exact .bind .advance fun _ => .throw _
    · exact leaf_follows _ _
    · exact leaf_follows _ _
    · exact leaf_follows _ _
    · exact leaf_follows _ _
    · exact .bind (enclosed_follows h _) fun _ => .bind (.extentFrom _) fun _ => .pure _
    · exact .bind .advance fun _ => .bind (collection_follows _ (h.expression _)) fun _ =>
        .bind (.extentFrom _) fun _ => .pure _
    · exact .bind .advance fun _ => .bind (collection_follows _ (entry_follows h)) fun _ =>
        .bind (.extentFrom _) fun _ => .pure _
    · exact .bind .advance fun _ => .bind (procedure_follows h _ _) fun _ =>
        .bind (.extentFrom _) fun _ => .pure _
    · exact .bind .advance fun _ => .bind (procedure_follows h _ _) fun _ =>
        .bind (.extentFrom _) fun _ => .pure _
    · exact .throw _

theorem arguments_follows : Follows (arguments self) (arguments other) := by
  have hargument : Follows (argument self) (argument other) :=
    .bind .skipNewlines fun _ => .bind (h.expression _) fun _ =>
      .bind .skipNewlines fun _ => .pure _
  exact .bind .advance fun _ => .bind .skipNewlines fun _ =>
    .bind (.commaSeparated _ hargument) fun _ => .bind (.expect _ _) fun _ => .pure _

theorem postfixStep_follows (object : Expr Extent) :
    Follows (postfixStep self object) (postfixStep other object) := by
  refine .bind .peekKind fun kind => ?_
  split
  · exact .bind (arguments_follows h) fun _ => .bind (.extentFrom _) fun _ => .pure _
  · exact .bind .advance fun _ => .bind (.expectWord _) fun _ =>
      .bind (.extentFrom _) fun _ => .pure _
  · exact .bind (enclosed_follows h _) fun _ => .bind (.extentFrom _) fun _ => .pure _
  · exact .bind .advance fun _ => .bind (.expectWord _) fun _ =>
      .bind (.extentFrom _) fun _ => .pure _
  · exact .pure _

theorem operand_follows : Follows (operand self) (operand other) :=
  .bind (primary_follows h) fun _ => .repeatFrom (postfixStep_follows h) _

theorem unary_follows : Follows (unary self) (unary other) := by
  refine .bind .peek fun o => ?_
  cases o with
  | none => exact operand_follows h
  | some t =>
    dsimp only
    split
    · exact .bind .advance fun _ => .bind (h.expression _) fun _ =>
        .bind (.extentFrom _) fun _ => .pure _
    · exact operand_follows h

theorem expression_follows (min : Precedence) :
    Follows (Parser.expression self min) (Parser.expression other min) := by
  refine .bind (unary_follows h) fun left => .repeatFrom (fun left => ?_) left
  refine .bind .peekKind fun kind => ?_
  split
  · exact .ite (fun _ => .pure _) fun _ => .bind .advance fun _ => .bind (h.expression _) fun _ =>
      .bind (.extentFrom _) fun _ => .pure _
  · exact .pure _

theorem print_follows (first : Token) : Follows (print self first) (print other first) := by
  refine .bind .advance fun _ => .bind (.repeatFrom (fun items => ?_) _) fun _ =>
    .bind (.extentFrom _) fun _ => .pure _
  refine .bind .atStatementEnd fun _ => .ite (fun _ => .pure _) fun _ =>
    .bind .peekKind fun kind => ?_
  split
  · exact .bind .advance fun _ => .pure _
  · exact .bind (h.expression _) fun _ => .pure _

theorem operandStatement_follows : Follows (operandStatement self) (operandStatement other) := by
  refine .bind (operand_follows h) fun target => .bind .peekKind fun kind => ?_
  split
  · exact .bind .advance fun _ => .bind (h.expression _) fun _ =>
      .bind (.extentFrom _) fun _ => assignTo_follows _ _ _ _
  · exact .ite (fun _ => .bind .advance fun _ => .bind (.extentFrom _) fun _ => .pure _)
      fun _ => callStatement_follows _

theorem giveBack_follows (first : Token) : Follows (giveBack self first) (giveBack other first) :=
  .bind .advance fun _ => .bind .atStatementEnd fun _ =>
    .ite (fun _ => .bind (.extentFrom _) fun _ => .pure _) fun _ =>
      .bind (h.expression _) fun _ => .bind (.extentFrom _) fun _ => .pure _

theorem dim_follows (first : Token) : Follows (dim self first) (dim other first) :=
  .bind .advance fun _ => .bind (.expect _ _) fun _ => .bind (.expect _ _) fun _ =>
    .bind (h.expression _) fun _ => .bind (.many (.after _ (h.expression _))) fun _ =>
      .bind (.expect _ _) fun _ => .bind (.extentFrom _) fun _ => .pure _

theorem namedProcedure_follows (keyword : ProcedureKind) (first : Token) :
    Follows (namedProcedure self keyword first) (namedProcedure other keyword first) :=
  .bind .advance fun _ => .bind (.expect _ _) fun _ => .bind (procedure_follows h _ _) fun _ =>
    .bind (.extentFrom _) fun _ => .pure _

theorem inlineStatements_follows : Follows (inlineStatements self) (inlineStatements other) := by
  refine .bind h.statement fun _ => .bind (.many ?_) fun _ => .pure _
  exact .bind (.accept _) fun _ => .ite (fun _ => .bind .get fun _ => .ite (fun _ => .pure _)
    fun _ => .bind h.statement fun _ => .pure _) fun _ => .pure _

theorem inlineBranch_follows (first : Token) (condition : Expr Extent) :
    Follows (inlineBranch self first condition) (inlineBranch other first condition) := by
  refine .bind (inlineStatements_follows h) fun _ => .bind (.bind .peekKind fun kind => ?_) fun _ =>
    .bind (.extentFrom _) fun _ => .pure _
  split
  · exact .bind h.inlineElseIf fun _ => .pure _
  · exact .bind .advance fun _ => .bind (inlineStatements_follows h) fun _ => .pure _
  · exact .pure _

theorem inlineElseIf_follows : Follows (inlineElseIf self) (inlineElseIf other) := by
  refine .bind .peek fun o => ?_
  cases o with
  | none => exact .expected _
  | some t =>
    exact .bind .advance fun _ => .bind (h.expression _) fun _ => .bind (.expect _ _) fun _ =>
      inlineBranch_follows h _ _

theorem elseIf_follows : Follows (elseIf self) (elseIf other) := by
  refine .bind .get fun c => ?_
  split
  · exact .bind (elseIfKeyword_follows _) fun _ => .bind (h.expression _) fun _ =>
      .bind (.accept _) fun _ => .bind (block_follows h _) fun _ => .pure _
  · exact .pure _

theorem branch_follows (first : Token) : Follows (branch self first) (branch other first) := by
  have hblock : ∀ condition, Follows (blockBranch self first condition)
      (blockBranch other first condition) := fun _ =>
    .bind (block_follows h _) fun _ => .bind (.many (elseIf_follows h)) fun _ =>
      .bind (.after _ (block_follows h _)) fun _ => .bind (close_follows _ _) fun _ =>
        .bind (.extentFrom _) fun _ => .pure _
  exact .bind .advance fun _ => .bind (h.expression _) fun _ => .bind (.accept _) fun _ =>
    .bind .get fun _ => .ite (fun _ => hblock _) fun _ =>
      .ite (fun _ => inlineBranch_follows h _ _) fun _ => .expected _

theorem forLoop_follows (first : Token) : Follows (forLoop self first) (forLoop other first) := by
  have heach : Follows (forEach self first) (forEach other first) :=
    .bind (.expect _ _) fun _ => .bind (.expect _ _) fun _ => .bind (h.expression _) fun _ =>
      .bind (block_follows h _) fun _ => .bind (close_follows _ _) fun _ =>
        .bind (.extentFrom _) fun _ => .pure _
  have hcounted : Follows (countedLoop self first) (countedLoop other first) :=
    .bind (.expect _ _) fun _ => .bind (.expect _ _) fun _ => .bind (h.expression _) fun _ =>
      .bind (.expect _ _) fun _ => .bind (h.expression _) fun _ =>
        .bind (.after _ (h.expression _)) fun _ => .bind (block_follows h _) fun _ =>
          .bind (close_follows _ _) fun _ => .bind (.extentFrom _) fun _ => .pure _
  exact .bind .advance fun _ => .bind (.accept _) fun _ => .ite (fun _ => heach) fun _ => hcounted

theorem whileLoop_follows (first : Token) :
    Follows (whileLoop self first) (whileLoop other first) :=
  .bind .advance fun _ => .bind (h.expression _) fun _ => .bind (block_follows h _) fun _ =>
    .bind (close_follows _ _) fun _ => .bind (.extentFrom _) fun _ => .pure _

theorem compileElseIf_follows : Follows (compileElseIf self) (compileElseIf other) := by
  refine .bind .peek fun o => ?_
  split
  · exact .bind .advance fun _ => .bind (block_follows h _) fun _ => .pure _
  · exact .pure _

theorem compileIf_follows (first : Token) (condition : String) :
    Follows (compileIf self first condition) (compileIf other first condition) := by
  have helse : Follows (compileElse self) (compileElse other) :=
    .bind .get fun _ => .ite (fun _ => .bind .advance fun _ => .bind (block_follows h _) fun _ =>
      .pure _) fun _ => .pure _
  refine .bind (block_follows h _) fun _ => .bind (.many (compileElseIf_follows h)) fun _ =>
    .bind helse fun _ => .bind .get fun c => ?_
  split
  · exact .bind .advance fun _ => .bind (.extentFrom _) fun _ => .pure _
  · exact .expected _
  · exact .throw _

theorem directive_follows (first : Token) :
    Follows (directive self first) (directive other first) := by
  refine .bind .advance fun _ => ?_
  dsimp only
  split
  · exact compileIf_follows h _ _
  · exact .bind (.extentFrom _) fun _ => .pure _
  · exact .bind (.extentFrom _) fun _ => .pure _
  · exact .throw _
  · exact .throw _
  · exact .throw _
  · exact .throw _

theorem statement_follows : Follows (statement self) (statement other) := by
  refine .bind .peek fun o => ?_
  cases o with
  | none => exact .throw _
  | some t =>
    dsimp only
    split
    · exact print_follows h _
    · exact print_follows h _
    · exact branch_follows h _
    · exact forLoop_follows h _
    · exact whileLoop_follows h _
    · exact goto_follows _
    · exact giveBack_follows h _
    · exact exit_follows _
    · exact exit_follows _
    · exact endProgram_follows _
    · exact stop_follows _
    · exact namedProcedure_follows h _ _
    · exact namedProcedure_follows h _ _
    · exact dim_follows h _
    · exact library_follows _
    · exact directive_follows h _
    · exact .bind .get fun _ => .ite (fun _ => label_follows _) fun _ => operandStatement_follows h
    · exact .throw _
    · exact .throw _

theorem wholeStatement_follows : Follows (wholeStatement self) (wholeStatement other) :=
  .bind h.statement fun _ => .bind .atStatementEnd fun _ => .ite (fun _ => .pure _) fun _ =>
    .expected _

end Parsers

namespace Recursion

/-- The parsers for texts in which they nest at most `depth` times, where each failure of one of them
is answered by a parser of `answer`, at the place where it failed. -/
def answered (answer : Recursion) : Nat → Recursion
  | 0 => answer
  | depth + 1 =>
    let self := answered answer depth
    { expression := fun min => tryCatch (Parser.expression self min) fun _ => answer.expression min
      statement := tryCatch (Parser.statement self) fun _ => answer.statement
      inlineElseIf := tryCatch (Parser.inlineElseIf self) fun _ => answer.inlineElseIf }

theorem follows_answered (answer : Recursion) (depth : Nat) :
    (ofDepth depth).Follows (answered answer depth) := by
  induction depth with
  | zero => exact ⟨fun _ => .expected _, .expected _, .expected _⟩
  | succ depth ih =>
    exact ⟨fun min => (expression_follows ih min).tryCatch _, (statement_follows ih).tryCatch _,
      (inlineElseIf_follows ih).tryCatch _⟩

end Recursion

theorem readStatements_of_follows {self other : Recursion} (hf : self.Follows other) {rounds : Nat}
    {c : Cursor} (h : (readStatements self rounds c).errors = []) :
    readStatements other rounds c = readStatements self rounds c := by
  induction rounds generalizing c with
  | zero => rfl
  | succ rounds ih =>
    simp only [readStatements] at h ⊢
    split at h
    · rw [if_pos ‹_›, if_pos ‹_›]
    · rw [if_neg ‹_›, if_neg ‹_›]
      cases hw : wholeStatement self c.skipSeparators with
      | error e c₁ => simp [hw, Reading.addError] at h
      | ok s c₁ =>
        simp only [hw, Reading.addStatement] at h
        simp only [((wholeStatement_follows hf).ok hw).2, ih h]

/-- The run of a parser at a cursor comes to run a second parser at a second cursor: the parser itself,
or one of two that it runs one after the other. -/
inductive Runs : {α β : Type} → Parser α → Cursor → Parser β → Cursor → Prop
  | here {α : Type} {p : Parser α} {c : Cursor} : Runs p c p c
  | first {α β γ : Type} {p : Parser α} {f : α → Parser β} {q : Parser γ} {c c' : Cursor} :
    Runs p c q c' → Runs (p >>= f) c q c'
  | next {α β γ : Type} {p : Parser α} {f : α → Parser β} {q : Parser γ} {a : α}
      {c c₁ c' : Cursor} : p c = .ok a c₁ → Runs (f a) c₁ q c' → Runs (p >>= f) c q c'

/-- A parser fails with the error of what fails in its run. -/
theorem Runs.error {p : Parser α} {q : Parser β} {c c₁ c₂ : Cursor} {e : ParseError}
    (h : Runs p c q c₁) (he : q c₁ = .error e c₂) : p c = .error e c₂ := by
  induction h with
  | here => exact he
  | first _ ih => rw [bind_apply, ih he]
  | next hp _ ih => rw [bind_of_ok hp, ih he]

/-- From the first cursor on, a round of reading statements starts at the second: at the next token
that is no separator, after a statement, or where reading goes on after an error. -/
inductive Rounds (self : Recursion) : Cursor → Cursor → Prop
  | here {c : Cursor} : c.skipSeparators.rest ≠ [] → Rounds self c c.skipSeparators
  | read {c c₁ c' : Cursor} {s : Statement Extent} : c.skipSeparators.rest ≠ [] →
    wholeStatement self c.skipSeparators = .ok s c₁ → Rounds self c₁ c' → Rounds self c c'
  | resume {c c₁ c' : Cursor} {e : ParseError} : c.skipSeparators.rest ≠ [] →
    wholeStatement self c.skipSeparators = .error e c₁ → Rounds self c₁.synchronize c' →
    Rounds self c c'

theorem Cursor.resume_suffix (t : Token) (ts : List Token) : (Cursor.resume t ts).rest <:+ ts := by
  induction ts generalizing t with
  | nil => exact List.suffix_rfl
  | cons next ts ih =>
    rw [Cursor.resume]
    split
    · exact List.suffix_rfl
    · exact (ih next).trans (List.suffix_cons ..)

theorem Cursor.synchronize_lt {c : Cursor} (h : c.rest ≠ []) :
    c.synchronize.rest.length < c.rest.length := by
  obtain ⟨last, _ | ⟨t, ts⟩⟩ := c
  · exact absurd rfl h
  · exact Nat.lt_succ_of_le (resume_suffix t ts).length_le

theorem wholeStatement_lt {self : Recursion} (hs : self.Sound) {c c' : Cursor}
    {s : Statement Extent} (h : wholeStatement self c = .ok s c') :
    c'.rest.length < c.rest.length := by
  rw [c.eq_after] at h ⊢
  obtain ⟨j, rfl, laid⟩ := wholeStatement_run hs h
  have := laid.lt
  have := laid.le_length
  simp only [Cursor.after_rest, List.length_drop]
  omega

/-- There are enough rounds to keep the error of every round that fails. -/
theorem Rounds.error_mem {self other : Recursion} (hs : self.Sound) (hf : self.Follows other)
    {c c' c₂ : Cursor} {e : ParseError} (h : Rounds self c c')
    (he : wholeStatement self c' = .error e c₂) {rounds : Nat} (hr : c.rest.length < rounds) :
    e ∈ (readStatements self rounds c).errors := by
  have hskip : ∀ c : Cursor, c.skipSeparators.rest.length ≤ c.rest.length := fun c =>
    (Cursor.skip_suffix _ c.last c.rest).length_le
  induction h generalizing rounds with
  | @here c hne =>
    obtain ⟨rounds, rfl⟩ : ∃ n, rounds = n + 1 := ⟨rounds - 1, by omega⟩
    simp [readStatements, hne, he, Reading.addError]
  | @read c c₁ c' s hne hw _ ih =>
    obtain ⟨rounds, rfl⟩ : ∃ n, rounds = n + 1 := ⟨rounds - 1, by omega⟩
    have hlt := wholeStatement_lt hs hw
    have hle := hskip c
    have hmem := ih he (show c₁.rest.length < rounds by omega)
    simpa [readStatements, hne, hw, Reading.addStatement] using hmem
  | @resume c c₁ c' e' hne hw _ ih =>
    obtain ⟨rounds, rfl⟩ : ∃ n, rounds = n + 1 := ⟨rounds - 1, by omega⟩
    have hle := hskip c
    have hsuffix := ((wholeStatement_follows hf).error hw).length_le
    have hpos := List.length_pos_iff.2 hne
    have hlt : c₁.synchronize.rest.length < c.skipSeparators.rest.length := by
      by_cases hc : c₁.rest = []
      · have : c₁.synchronize = c₁ := by simp [Cursor.synchronize, hc]
        rw [this, hc]
        exact hpos
      · exact (Cursor.synchronize_lt hc).trans_le hsuffix
    have hmem := ih he (show c₁.synchronize.rest.length < rounds by omega)
    simp [readStatements, hne, hw, Reading.addError, hmem]

end BrightCoverage
