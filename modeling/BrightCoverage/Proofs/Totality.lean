import Mathlib.Data.List.ReduceOption
import BrightCoverage.Proofs.IndexedAgreement
import BrightCoverage.Proofs.IntegerLiterals

/-! Every source is parsed to an end. Run by index, the parsers come to what they come to on a list of
tokens, and nothing is a fault: no index is missing, no token is taken for granted that is not there, no
text is cut inside a character, no value and no round of a loop comes without a token read, and the
recursion is deep enough. The same is said of each parser by itself, from any index on. -/

namespace BrightCoverage

namespace Indexed

variable {α : Type} {ts : List Token} {i : Nat} {es : List ParseError} {t : Token}
  {self : Recursion} {other : BrightCoverage.Recursion}

/-! ### Whole files -/

theorem prefixed_lex (source : Text) : Prefixed (lex source) := by
  intro t ht hk
  have hnumeral := numeral_of_mem_lex ht (.inr hk)
  generalize t.text.toList = text at hnumeral ⊢
  generalize Numeral.reading t.kind text = v at hnumeral
  rw [hk] at hnumeral
  cases hnumeral with
  | @hexadecimal h digits suffix _ hh =>
    refine ⟨['&', h], ?_⟩
    have hlength : byteLength ['&', h] = 2 := by
      simp only [List.mem_cons, List.not_mem_nil, or_false] at hh
      rcases hh with rfl | rfl <;> decide
    have hcut := cutAtByte_append (u := ['&', h]) (v := digits ++ suffix)
    rwa [hlength] at hcut

section Resuming

theorem resumeStep_apply {prev : Token} (hprev : ts[i]? = some prev) :
    resumeStep ts ⟨i + 1, es⟩ = match ts[i + 1]? with
      | none => .ok none ⟨i + 1, es⟩
      | some next =>
        if prev.kind = .newline || Cursor.resumesAt next.kind then .ok none ⟨i + 1, es⟩
        else .ok (some ()) ⟨i + 2, es⟩ := by
  unfold resumeStep
  rw [peek_bind]
  dsimp only
  cases hnext : ts[i + 1]? with
  | none => rfl
  | some next =>
    have hbefore : before (i + 1) = pure i := if_neg (Nat.succ_ne_zero i)
    simp only [read_bind, current_bind, hbefore, pure_bind, hprev, Option.map_some, Option.some.injEq]
    by_cases hnewline : prev.kind = .newline
    · simp [hnewline]
    · by_cases hresumes : Cursor.resumesAt next.kind = true
      · simp [hnewline, hresumes]
      · rw [if_neg hnewline, if_neg hresumes, bind_of_ok (advance_apply hnext)]
        simp [hnewline, hresumes]

theorem reached_succ (ht : ts[i]? = some t) :
    Cursor.reached ts (i + 1) = ⟨t.extent, ts.drop (i + 1)⟩ := by
  have hlast := Cursor.after_last (Mark.origin.extentTo Mark.origin) ts
    (List.getElem?_eq_some_iff.1 ht).1
  rw [extentAt_eq ht] at hlast
  rw [← hlast]
  rfl

theorem resume_apply (ht : ts[i]? = some t) : ∃ j, i < j ∧ j ≤ ts.length ∧
    repeatFrom (fun _ => resumeStep) () ts ⟨i + 1, es⟩ = .ok () ⟨j, es⟩ ∧
    Cursor.resume t (ts.drop (i + 1)) = .reached ts j := by
  induction hn : ts.length - i generalizing i t with
  | zero =>
    have hlt := (List.getElem?_eq_some_iff.1 ht).1
    omega
  | succ n ih =>
    have hlt := (List.getElem?_eq_some_iff.1 ht).1
    have hstep : resumeStep ts ⟨i + 1, es⟩ = _ := resumeStep_apply ht
    cases hnext : ts[i + 1]? with
    | none =>
      have hnil : ts.drop (i + 1) = [] := List.drop_eq_nil_iff.2 (List.getElem?_eq_none_iff.1 hnext)
      rw [hnext] at hstep
      refine ⟨i + 1, Nat.lt_succ_self i, hlt, repeatFrom_of_none _ hstep, ?_⟩
      rw [reached_succ ht, hnil]
      rfl
    | some next =>
      have hlt' := (List.getElem?_eq_some_iff.1 hnext).1
      have hdrop : ts.drop (i + 1) = next :: ts.drop (i + 2) := by
        rw [List.drop_eq_getElem_cons hlt', (List.getElem?_eq_some_iff.1 hnext).2]
      rw [hdrop, Cursor.resume]
      by_cases hstop : (t.kind = .newline || Cursor.resumesAt next.kind) = true
      · simp only [hnext, if_pos hstop] at hstep
        refine ⟨i + 1, Nat.lt_succ_self i, hlt, repeatFrom_of_none _ hstep, ?_⟩
        rw [if_pos hstop, reached_succ ht, hdrop]
      · simp only [hnext, if_neg hstop] at hstep
        obtain ⟨j, hij, hj, hloop, hresume⟩ := ih hnext (by omega)
        refine ⟨j, by omega, hj, ?_, ?_⟩
        · rw [repeatFrom_of_some (fun _ => resumeStep) hstep (Nat.lt_succ_self (i + 1)) hlt']
          exact hloop
        · rw [if_neg hstop]
          exact hresume

theorem synchronize_agrees (hts : 0 < ts.length) : Agrees ts i (fun _ j => i < ts.length → i < j)
    synchronize (modify Cursor.synchronize) := by
  intro hi es
  unfold synchronize
  cases ht : ts[i]? with
  | some t =>
    obtain ⟨j, hij, hj, hloop, hresume⟩ := resume_apply ht
    refine ⟨j, Nat.le_of_lt hij, hj, .inl ⟨(), ?_, ?_, fun _ => hij⟩⟩
    · rw [bind_of_ok (advance_apply ht)]
      exact hloop
    · have hdrop : ts.drop i = t :: ts.drop (i + 1) := by
        obtain ⟨hlt, rfl⟩ := List.getElem?_eq_some_iff.1 ht
        exact List.drop_eq_getElem_cons hlt
      show EStateM.Result.ok () (Cursor.synchronize (.reached ts i)) = _
      rw [Cursor.synchronize, Cursor.after_rest, hdrop]
      exact congrArg _ hresume
  | none =>
    have hlen : i = ts.length := Nat.le_antisymm hi (List.getElem?_eq_none_iff.1 ht)
    have hnil : ts.drop i = [] := List.drop_eq_nil_iff.2 (Nat.le_of_eq hlen.symm)
    refine ⟨i, Nat.le_refl i, hi, .inl ⟨(), ?_, ?_, fun h => absurd h (by omega)⟩⟩
    · have hadvance : advance ts ⟨i, es⟩ = .ok ts[i - 1]? ⟨i, es⟩ := by
        unfold advance
        simp only [current_bind, read_bind, if_neg (show ¬ i < ts.length by omega)]
        unfold before
        rw [if_neg (by omega)]
        rfl
      have hstep : resumeStep ts ⟨i, es⟩ = .ok none ⟨i, es⟩ := by
        unfold resumeStep
        rw [peek_bind, ht]
        rfl
      rw [bind_of_ok hadvance]
      exact repeatFrom_of_none _ hstep
    · show EStateM.Result.ok () (Cursor.synchronize (.reached ts i)) = _
      rw [Cursor.synchronize, Cursor.after_rest, hnil]

end Resuming

theorem attempt_of_ok {p : Indexed α} {a : α} {s s' : Progress} (h : p ts s = .ok a s') :
    attempt p ts s = .ok (some a) s' := by
  simp only [attempt, h]

theorem attempt_of_error {p : Indexed α} {s s' : Progress} (h : p ts s = .error .error s') :
    attempt p ts s = .ok none s' := by
  simp only [attempt, h]

/-- A statement is read and the list stays as it is, or the statement is given up and its error is added.
In either case a token is read. -/
theorem outcome_apply {low : Nat} (h : Recursion.AgreesFrom low ts self other) (hlow : low ≤ i)
    (hi : i < ts.length) (es : List ParseError) : ∃ j, i < j ∧ j ≤ ts.length ∧
      ((∃ s, outcome self ts ⟨i, es⟩ = .ok (some s) ⟨j, es⟩ ∧
          BrightCoverage.wholeStatement other (.reached ts i) = .ok s (.reached ts j)) ∨
        ∃ e c, outcome self ts ⟨i, es⟩ = .ok none ⟨j, es ++ [e]⟩ ∧
          BrightCoverage.wholeStatement other (.reached ts i) = .error e c ∧
          c.synchronize = .reached ts j) := by
  unfold outcome
  obtain ⟨j, hij, hj, ⟨s, hs, hs', hlt⟩ | ⟨e, he, he'⟩⟩ :=
    wholeStatement_agrees h hlow (Nat.le_of_lt hi) es
  · refine ⟨j, hlt, hj, .inl ⟨s, ?_, hs'⟩⟩
    rw [bind_of_ok (attempt_of_ok hs)]
    rfl
  · obtain ⟨k, hjk, hk, ⟨⟨⟩, hsync, hsync', hgiven⟩ | ⟨e, -, he⟩⟩ :=
      synchronize_agrees (show 0 < ts.length by omega) hj (es ++ [e])
    · refine ⟨k, by omega, hk, .inr ⟨e, _, ?_, he', by injection hsync'⟩⟩
      rw [bind_of_ok (attempt_of_error he), Option.isNone_none, if_pos rfl, bind_of_ok hsync]
      rfl
    · cases he

/-- The ways a round of reading a file ends by index, with what it comes to on a list of tokens: no
statement follows, one is read, or one is given up and its error is added. -/
inductive Round (other : BrightCoverage.Recursion) (ts : List Token) (i : Nat) (es : List ParseError) :
    Option (Option (Statement Extent)) → Progress → Prop
  | stop {j : Nat} : i ≤ j → (∀ n, readStatements other (n + 1) (.reached ts i) = .done) →
    Round other ts i es none ⟨j, es⟩
  | read {s : Statement Extent} {j : Nat} : i < j →
    (∀ n, readStatements other (n + 1) (.reached ts i)
      = (readStatements other n (.reached ts j)).addStatement s) →
    Round other ts i es (some (some s)) ⟨j, es⟩
  | giveUp {e : ParseError} {j : Nat} : i < j →
    (∀ n, readStatements other (n + 1) (.reached ts i)
      = (readStatements other n (.reached ts j)).addError e) →
    Round other ts i es (some none) ⟨j, es ++ [e]⟩

theorem round_apply {low : Nat} (h : Recursion.AgreesFrom low ts self other) (hi : i ≤ ts.length)
    (hlow : low ≤ i) (es : List ParseError) : ∃ o s, round self ts ⟨i, es⟩ = .ok o s ∧
      s.index ≤ ts.length ∧ Round other ts i es o s := by
  unfold round
  rw [peek_bind]
  dsimp only
  cases ht : ts[i]? with
  | none =>
    have hnil : ts.drop i = [] := List.drop_eq_nil_iff.2 (List.getElem?_eq_none_iff.1 ht)
    rw [Option.isNone_none, if_pos rfl]
    refine ⟨none, ⟨i, es⟩, pure_apply _, hi, .stop (Nat.le_refl i) fun n => ?_⟩
    simp [readStatements, Cursor.skipSeparators, hnil, Cursor.skip]
  | some t =>
    obtain ⟨j, hij, hj, ⟨⟨⟩, hskip, hskip', -⟩ | ⟨e, -, he⟩⟩ := skipSeparators_agrees hi es
    · have hcursor : (Cursor.reached ts i).skipSeparators = .reached ts j := by
        injection hskip'
      rw [Option.isNone_some, if_neg Bool.false_ne_true, bind_of_ok hskip, peek_bind]
      dsimp only
      cases hu : ts[j]? with
      | none =>
        rw [Option.isNone_none, if_pos rfl]
        refine ⟨none, ⟨j, es⟩, pure_apply _, hj, .stop hij fun n => ?_⟩
        simp only [readStatements, hcursor, isEmpty_reached, hu]
        exact if_pos rfl
      | some u =>
        have hlt := (List.getElem?_eq_some_iff.1 hu).1
        rw [Option.isNone_some, if_neg Bool.false_ne_true]
        obtain ⟨k, hjk, hk, ⟨s, hs, hs'⟩ | ⟨e, c, he, he', hc⟩⟩ :=
          outcome_apply h (hlow.trans hij) hlt es
        · refine ⟨some (some s), ⟨k, es⟩, ?_, hk, .read (by omega) fun n => ?_⟩
          · rw [bind_of_ok hs, pure_apply]
          · simp only [readStatements, hcursor, isEmpty_reached, hu, hs']
            rfl
        · refine ⟨some none, ⟨k, es ++ [e]⟩, ?_, hk, .giveUp (by omega) fun n => ?_⟩
          · rw [bind_of_ok he, pure_apply]
          · simp only [readStatements, hcursor, isEmpty_reached, hu, he', hc]
            rfl
    · cases he

/-- A file is read to its end in as many rounds as there are tokens. The statements are those of the
rounds, and the errors have been added in their order. -/
theorem many_round (h : Recursion.AgreesFrom 0 ts self other) {n : Nat} (hi : i ≤ ts.length)
    (hn : ts.length < i + n) (es : List ParseError) : ∃ outcomes j,
      many (round self) ts ⟨i, es⟩
        = .ok outcomes ⟨j, es ++ (readStatements other n (.reached ts i)).errors⟩ ∧
      outcomes.reduceOption = (readStatements other n (.reached ts i)).statements := by
  -- The list of errors is kept general: a round that gives up hands a longer one to the rest.
  induction n generalizing i es with
  | zero => omega
  | succ n ih =>
    obtain ⟨o, s, hround, hs, hends⟩ := round_apply h hi (Nat.zero_le i) es
    cases hends with
    | @stop j _ hread =>
      refine ⟨[], j, ?_, ?_⟩
      · rw [hread n, Reading.done, List.append_nil]
        exact many_of_none hround
      · rw [hread n]
        rfl
    | @read stmt j hlt hread =>
      have hj : j ≤ ts.length := hs
      obtain ⟨outcomes, k, hmany, hreading⟩ := ih hj (by omega) es
      refine ⟨some stmt :: outcomes, k, ?_, ?_⟩
      · rw [many_of_some hround hlt hj, bind_of_ok hmany, hread n]
        rfl
      · rw [List.reduceOption_cons_of_some, hreading, hread n]
        rfl
    | @giveUp e j hlt hread =>
      have hj : j ≤ ts.length := hs
      obtain ⟨outcomes, k, hmany, hreading⟩ := ih hj (by omega) (es ++ [e])
      refine ⟨none :: outcomes, k, ?_, ?_⟩
      · rw [many_of_some hround hlt hj, bind_of_ok hmany, hread n, List.append_assoc]
        rfl
      · rw [List.reduceOption_cons_of_none, hreading, hread n]
        rfl

theorem parseTokens_lex (source : Text) : parseTokens (lex source) = some (parse source) := by
  have hfrom := agreesFrom_ofDepth (prefixed_lex source) ((lex source).length + 1)
  rw [Nat.sub_self] at hfrom
  obtain ⟨outcomes, j, hmany, hreading⟩ := many_round hfrom (Nat.zero_le _)
    (n := (lex source).length + 1) (by omega) (invalidCharacters (lex source))
  have hstart : Cursor.ofTokens (lex source) = .reached (lex source) 0 :=
    (Cursor.after_zero ..).symm
  unfold parseTokens parse BrightCoverage.parseTokens
  simp only [hmany, hreading, hstart]
  cases invalidCharacters (lex source) ++ _ <;> rfl

/-! ### Every parser by itself -/

/-- From an index on, a parser comes to a value with a property or it fails, but there is no fault. The
index does not move back, nor behind the last token. -/
def Stays (ts : List Token) (i : Nat) (Q : α → Nat → Prop) (p : Indexed α) : Prop :=
  ∀ es, match p ts ⟨i, es⟩ with
    | .ok a s => i ≤ s.index ∧ s.index ≤ ts.length ∧ Q a s.index
    | .error .error s => i ≤ s.index ∧ s.index ≤ ts.length
    | .error .fault _ => False

/-- A parser that gives a value leaves the list of errors as it is, and one that fails adds an error. -/
def Records (ts : List Token) (i : Nat) (p : Indexed α) : Prop :=
  ∀ es, match p ts ⟨i, es⟩ with
    | .ok _ s => s.errors = es
    | .error .error s => ∃ e, s.errors = es ++ [e]
    | .error .fault _ => False

/-- A round of reading a file adds an error if it gives up a statement, and else none. -/
def RoundRecords (ts : List Token) (i : Nat) (self : Recursion) : Prop :=
  ∀ es, ∃ o s, round self ts ⟨i, es⟩ = .ok o s ∧
    (o ≠ some none ∧ s.errors = es ∨ o = some none ∧ ∃ e, s.errors = es ++ [e])

section Agreement

variable {Q : α → Nat → Prop} {p : Indexed α} {q : Parser α} (h : Agrees ts i Q p q)
  (hi : i ≤ ts.length)

include h hi

theorem Agrees.stays : Stays ts i Q p := by
  intro es
  obtain ⟨j, hij, hj, ⟨a, hp, -, ha⟩ | ⟨e, hp, -⟩⟩ := h hi es
  · rw [hp]
    exact ⟨hij, hj, ha⟩
  · rw [hp]
    exact ⟨hij, hj⟩

theorem Agrees.records : Records ts i p := by
  intro es
  obtain ⟨j, -, -, ⟨a, hp, -⟩ | ⟨e, hp, -⟩⟩ := h hi es
  · rw [hp]
  · rw [hp]
    exact ⟨e, rfl⟩

end Agreement

/-- The parsers of the grammar that are not blocks, and what has to be there when one is called: the
token that it takes for granted and the token at which its extent starts. -/
inductive SubParser (ts : List Token) (self : Recursion) (i : Nat) :
    {α : Type} → Indexed α → Prop
  | expression (min : Precedence) : SubParser ts self i (expression self min)
  | unary : SubParser ts self i (unary self)
  | operand : SubParser ts self i (operand self)
  | primary : SubParser ts self i (primary self)
  | argument : SubParser ts self i (argument self)
  | arguments : i < ts.length → SubParser ts self i (arguments self)
  | enclosed (closing : Symbol) : i < ts.length → SubParser ts self i (enclosed self closing)
  | items : SubParser ts self i (collection .rightBracket (self.expression .lowest))
  | entries : SubParser ts self i (collection .rightBrace (entry self))
  | entry : SubParser ts self i (entry self)
  | parameter : SubParser ts self i (parameter self)
  | parameters : SubParser ts self i (parameters self)
  | procedure (keyword : ProcedureKind) {start : Nat} : start < ts.length →
    SubParser ts self i (procedure self keyword start)
  | namedProcedure (keyword : ProcedureKind) : i < ts.length →
    SubParser ts self i (namedProcedure self keyword)
  | close (b : Block) {start : Nat} : start < ts.length → SubParser ts self i (close b start)
  | statement : SubParser ts self i (statement self)
  | wholeStatement : SubParser ts self i (wholeStatement self)
  | print : i < ts.length → SubParser ts self i (print self)
  | operandStatement : SubParser ts self i (operandStatement self)
  | label : i + 1 < ts.length → SubParser ts self i label
  | goto : i < ts.length → SubParser ts self i goto
  | giveBack : i < ts.length → SubParser ts self i (giveBack self)
  | exit : i < ts.length → SubParser ts self i exit
  | endProgram : i < ts.length → SubParser ts self i endProgram
  | stop : i < ts.length → SubParser ts self i stop
  | dim : i < ts.length → SubParser ts self i (dim self)
  | library : i < ts.length → SubParser ts self i library
  | branch : i < ts.length → SubParser ts self i (branch self)
  | blockBranch {start : Nat} (condition : Expr Extent) : start < i →
    SubParser ts self i (blockBranch self start condition)
  | inlineBranch {start : Nat} (condition : Expr Extent) : start < i →
    SubParser ts self i (inlineBranch self start condition)
  | inlineElseIf : i < ts.length → SubParser ts self i (inlineElseIf self)
  | inlineStatements : SubParser ts self i (inlineStatements self)
  | elseIfClause : (Cursor.reached ts i).atElseIf = true → SubParser ts self i (elseIfClause self)
  | forLoop : i < ts.length → SubParser ts self i (forLoop self)
  | forEach {start : Nat} : start < i → SubParser ts self i (forEach self start)
  | countedLoop {start : Nat} : start < i → SubParser ts self i (countedLoop self start)
  | whileLoop : i < ts.length → SubParser ts self i (whileLoop self)
  | directive : i < ts.length → SubParser ts self i (directive self)
  | compileIf {start : Nat} (condition : String) : start < i →
    SubParser ts self i (compileIf self start condition)

inductive BlockEnd : Indexed Bool → Prop
  | look (see : Cursor → Bool) : BlockEnd (look see)
  | directive : BlockEnd atDirectiveEnd

/-- The steps of the loops. A loop over parts of an expression starts behind the first, and tokens are
given up only when one has been read. -/
inductive LoopStep (ts : List Token) (self : Recursion) (i : Nat) :
    {α : Type} → Indexed (Option α) → Prop
  | program : LoopStep ts self i (round self)
  | block {atEnd : Indexed Bool} : BlockEnd atEnd → LoopStep ts self i (blockItem self atEnd)
  | print (items : List (PrintItem Extent)) : LoopStep ts self i (printStep self items)
  | argument : LoopStep ts self i (after (.symbol .comma) (argument self))
  | parameter : LoopStep ts self i (after (.symbol .comma) (parameter self))
  | dim : LoopStep ts self i (after (.symbol .comma) (self.expression .lowest))
  | item (state : List (Expr Extent) × Bool) :
    LoopStep ts self i (collectionItem (.symbol .rightBracket) (self.expression .lowest) state)
  | entry (state : List (Entry Extent) × Bool) :
    LoopStep ts self i (collectionItem (.symbol .rightBrace) (entry self) state)
  | attached {start : Nat} {object : Expr Extent} : Headed ts start object i →
    LoopStep ts self i (postfixStep self start object)
  | binary (min : Precedence) {start : Nat} {left : Expr Extent} : Headed ts start left i →
    LoopStep ts self i (binaryStep self min start left)
  | inlineItem : LoopStep ts self i (inlineItem self)
  | elseIf : LoopStep ts self i (elseIf self)
  | compileElseIf : LoopStep ts self i (compileElseIf self)
  | skip (kinds : List TokenKind) : LoopStep ts self i (skipOne kinds)
  | resume : 0 < i → LoopStep ts self i resumeStep

section Stays

variable {low : Nat} (h : Recursion.AgreesFrom low ts self other) (hi : i ≤ ts.length) (hlow : low ≤ i)

include h hi hlow

theorem SubParser.agrees (hx : Prefixed ts) {p : Indexed α} (hp : SubParser ts self i p) :
    ∃ q, Agrees ts i (fun _ j => i < j) p q := by
  have htoken : ∀ {k}, (hk : k < ts.length) → ts[k]? = some ts[k] := List.getElem?_eq_getElem
  have hbefore : ∀ {k}, (hk : k < i) → ts[k]? = some ts[k] := fun hk => htoken (by omega)
  have hlow' : low ≤ i + 1 := by omega
  have hheaded : ∀ {p : Indexed (Expr Extent)} {q}, Agrees ts i (Headed ts i) p q →
      ∃ q, Agrees ts i (fun _ j => i < j) p q :=
    fun hq => ⟨_, hq.mono fun _ _ _ => Headed.lt⟩
  cases hp with
  | expression min => exact hheaded (expression_agrees h hx min hlow')
  | unary => exact hheaded (unary_agrees h hx hlow')
  | operand => exact hheaded (operand_agrees h hx hlow')
  | primary => exact hheaded (primary_agrees h hx hlow')
  | argument => exact ⟨_, argument_agrees h hlow⟩
  | arguments hlt => exact ⟨_, arguments_agrees h (htoken hlt) hlow'⟩
  | enclosed closing hlt => exact ⟨_, enclosed_agrees h closing (htoken hlt) hlow'⟩
  | items =>
    exact ⟨_, collection_agrees _ fun k hk =>
      (h.expression _ k (hlow.trans hk)).mono fun _ _ _ => Headed.lt⟩
  | entries => exact ⟨_, collection_agrees _ fun k hk => entry_agrees h (hlow.trans hk)⟩
  | entry => exact ⟨_, entry_agrees h hlow⟩
  | parameter => exact ⟨_, parameter_agrees h hlow⟩
  | parameters => exact ⟨_, parameters_agrees h hlow⟩
  | procedure keyword hlt => exact ⟨_, procedure_agrees h keyword (htoken hlt) hlow⟩
  | namedProcedure keyword hlt => exact ⟨_, namedProcedure_agrees h keyword (htoken hlt) hlow'⟩
  | close b hlt => exact ⟨_, close_agrees b (htoken hlt)⟩
  | statement => exact ⟨_, statement_agrees h hx hlow'⟩
  | wholeStatement => exact ⟨_, wholeStatement_agrees h hlow⟩
  | print hlt => exact ⟨_, print_agrees h (htoken hlt) hlow'⟩
  | operandStatement => exact ⟨_, operandStatement_agrees h hx hlow'⟩
  | label hlt => exact ⟨_, label_agrees (htoken (by omega)) (htoken hlt)⟩
  | goto hlt => exact ⟨_, goto_agrees (htoken hlt)⟩
  | giveBack hlt => exact ⟨_, giveBack_agrees h (htoken hlt) hlow'⟩
  | exit hlt => exact ⟨_, exit_agrees (htoken hlt)⟩
  | endProgram hlt => exact ⟨_, endProgram_agrees (htoken hlt)⟩
  | stop hlt => exact ⟨_, stop_agrees (htoken hlt)⟩
  | dim hlt => exact ⟨_, dim_agrees h (htoken hlt) hlow'⟩
  | library hlt => exact ⟨_, library_agrees (htoken hlt)⟩
  | branch hlt => exact ⟨_, branch_agrees h (htoken hlt) hlow'⟩
  | blockBranch condition hlt =>
    exact ⟨_, blockBranch_agrees h (hbefore hlt) condition hlt hlow⟩
  | inlineBranch condition hlt =>
    exact ⟨_, inlineBranch_agrees h (hbefore hlt) condition hlt hlow⟩
  | inlineElseIf hlt => exact ⟨_, inlineElseIf_agrees h (htoken hlt) hlow'⟩
  | inlineStatements => exact ⟨_, inlineStatements_agrees h hlow⟩
  | elseIfClause hend =>
    obtain ⟨t, ht, hk⟩ := exists_elseIf hend
    exact ⟨_, elseIfClause_agrees h ht hk hlow'⟩
  | forLoop hlt => exact ⟨_, forLoop_agrees h (htoken hlt) hlow'⟩
  | forEach hlt => exact ⟨_, forEach_agrees h (hbefore hlt) hlt hlow⟩
  | countedLoop hlt => exact ⟨_, countedLoop_agrees h (hbefore hlt) hlt hlow⟩
  | whileLoop hlt => exact ⟨_, whileLoop_agrees h (htoken hlt) hlow'⟩
  | directive hlt => exact ⟨_, directive_agrees h (htoken hlt) hlow'⟩
  | compileIf condition hlt => exact ⟨_, compileIf_agrees h (hbefore hlt) condition hlt hlow⟩

omit h hi hlow in
theorem BlockEnd.apply {atEnd : Indexed Bool} (hend : BlockEnd atEnd) (ts : List Token) :
    ∃ atEnd' : Cursor → Bool, ∀ s, atEnd ts s = .ok (atEnd' (.reached ts s.index)) s := by
  cases hend with
  | look see => exact ⟨fun c => see (.ofTokens c.rest), fun _ => rfl⟩
  | directive => exact ⟨_, atDirectiveEnd_apply ts⟩

omit hi in
theorem block_agrees_of_end {atEnd : Indexed Bool} (hend : BlockEnd atEnd) :
    ∃ q, Agrees ts i (fun _ _ => True) (block self atEnd) q := by
  obtain ⟨atEnd', hend⟩ := hend.apply ts
  exact ⟨_, block_agrees h hend hlow⟩

omit h hi hlow in
theorem skipOne_stays (kinds : List TokenKind) (hi : i ≤ ts.length) :
    Stays ts i (fun o j => ∀ a, o = some a → i < j) (skipOne kinds) := by
  intro es
  by_cases h : ∀ k ∈ kinds, kindAt ts i ≠ some k
  · rw [skipOne_of_notMem h]
    exact ⟨Nat.le_refl i, hi, nofun⟩
  · simp only [not_forall, not_not] at h
    obtain ⟨k, hk, hki⟩ := h
    obtain ⟨t, ht, rfl⟩ := exists_token hki
    rw [skipOne_of_mem ht hk]
    exact ⟨Nat.le_succ i, kindAt_lt hki, fun _ _ => Nat.lt_succ_self i⟩

omit h hi hlow in
theorem resumeStep_stays (hpos : 0 < i) (hi : i ≤ ts.length) :
    Stays ts i (fun o j => ∀ a, o = some a → i < j) resumeStep := by
  intro es
  obtain ⟨k, rfl⟩ : ∃ k, i = k + 1 := ⟨i - 1, by omega⟩
  rw [resumeStep_apply (List.getElem?_eq_getElem hi)]
  cases hnext : ts[k + 1]? with
  | none => exact ⟨Nat.le_refl _, hi, nofun⟩
  | some next =>
    have hlt := (List.getElem?_eq_some_iff.1 hnext).1
    by_cases hstop : (ts[k].kind = .newline || Cursor.resumesAt next.kind) = true
    · simp only [if_pos hstop]
      exact ⟨Nat.le_refl _, hi, nofun⟩
    · simp only [if_neg hstop]
      exact ⟨Nat.le_succ _, hlt, fun _ _ => Nat.lt_succ_self _⟩

theorem LoopStep.stays {step : Indexed (Option α)} (hstep : LoopStep ts self i step) :
    Stays ts i (fun o j => ∀ a, o = some a → i < j) step := by
  have hkeeps : ∀ {β : Type} {I : β → Nat → Prop} {b : β} {p : Indexed (Option β)} {q},
      Agrees ts i (Keeps I b i) p q → Stays ts i (fun o j => ∀ a, o = some a → i < j) p :=
    fun hq => (hq.mono fun _ _ _ hk _ => hk.lt).stays hi
  have hcomma : ∀ {β : Type} {p : Indexed β} {q},
      (∀ k, i < k → Agrees ts k (fun _ j => k < j) p q) →
      Stays ts i (fun o j => ∀ b, o = some b → i < j) (after (.symbol .comma) p) := by
    intro β p q hq
    exact (Agrees.after _ hq).stays hi
  have hexpression : ∀ k, i ≤ k → Agrees ts k (fun _ j => k < j) (self.expression .lowest)
      (other.expression .lowest) :=
    fun k hk => (h.expression _ k (hlow.trans hk)).mono fun _ _ _ => Headed.lt
  cases hstep with
  | program =>
    intro es
    obtain ⟨o, s, hround, hs, hends⟩ := round_apply h hi hlow es
    rw [hround]
    cases hends with
    | stop hij => exact ⟨hij, hs, nofun⟩
    | read hlt | giveUp hlt => exact ⟨hlt.le, hs, fun _ _ => hlt⟩
  | block hend =>
    obtain ⟨atEnd', hend⟩ := hend.apply ts
    exact (blockItem_agrees h hend hlow).stays hi
  | print items => exact hkeeps (printStep_agrees h items hlow)
  | argument => exact hcomma fun k hk => argument_agrees h (by omega)
  | parameter => exact hcomma fun k hk => parameter_agrees h (by omega)
  | dim => exact hcomma fun k hk => hexpression k (by omega)
  | item state => exact hkeeps (collectionItem_agrees _ hexpression state)
  | entry state =>
    exact hkeeps (collectionItem_agrees _ (fun k hk => entry_agrees h (hlow.trans hk)) state)
  | attached hobject => exact hkeeps (postfixStep_agrees h hobject (by omega))
  | binary min hleft => exact hkeeps (binaryStep_agrees h min hleft (by omega))
  | inlineItem => exact (inlineItem_agrees h (by omega)).stays hi
  | elseIf => exact (elseIf_agrees h (by omega)).stays hi
  | compileElseIf => exact (compileElseIf_agrees h (by omega)).stays hi
  | skip kinds => exact skipOne_stays kinds hi
  | resume hpos => exact resumeStep_stays hpos hi

end Stays

section Sources

variable {source : Text} {depth : Nat} (hi : i ≤ (lex source).length)
  (hdepth : (lex source).length < i + depth)

include hi hdepth

theorem SubParser.agrees_lex {p : Indexed α} (hp : SubParser (lex source) (ofDepth depth) i p) :
    ∃ q, Agrees (lex source) i (fun _ j => i < j) p q := by
  have hx := prefixed_lex source
  exact hp.agrees (agreesFrom_ofDepth hx depth) hi (by omega) hx

omit hi in
theorem block_agrees_lex {atEnd : Indexed Bool} (hend : BlockEnd atEnd) :
    ∃ q, Agrees (lex source) i (fun _ _ => True) (block (ofDepth depth) atEnd) q :=
  block_agrees_of_end (agreesFrom_ofDepth (prefixed_lex source) depth) (by omega) hend

theorem roundRecords_lex : RoundRecords (lex source) i (ofDepth depth) := by
  intro es
  obtain ⟨o, s, hround, -, hends⟩ :=
    round_apply (agreesFrom_ofDepth (prefixed_lex source) depth) hi (by omega) es
  refine ⟨o, s, hround, ?_⟩
  cases hends with
  | stop => exact .inl ⟨nofun, rfl⟩
  | read => exact .inl ⟨nofun, rfl⟩
  | @giveUp e => exact .inr ⟨rfl, e, rfl⟩

end Sources

/-- Every source is parsed to an end, to what it comes to on a list of tokens, and without a fault.
Wherever the recursion is deep enough for the tokens that are left, every parser reads a token when it
gives a value, unless it is a block; no loop goes on without one; and the index stays in bounds. -/
theorem never_faults (source : Text) :
    parseTokens (lex source) = some (parse source) ∧
      ∀ depth i, i ≤ (lex source).length → (lex source).length < i + depth →
        (∀ {α : Type} {p : Indexed α}, SubParser (lex source) (ofDepth depth) i p →
          Stays (lex source) i (fun _ j => i < j) p) ∧
        (∀ {atEnd : Indexed Bool}, BlockEnd atEnd →
          Stays (lex source) i (fun _ _ => True) (block (ofDepth depth) atEnd)) ∧
        ∀ {α : Type} {step : Indexed (Option α)}, LoopStep (lex source) (ofDepth depth) i step →
          Stays (lex source) i (fun o j => ∀ a, o = some a → i < j) step := by
  refine ⟨parseTokens_lex source, fun depth i hi hdepth => ⟨fun hp => ?_, fun hend => ?_, ?_⟩⟩
  · obtain ⟨q, hq⟩ := hp.agrees_lex hi hdepth
    exact hq.stays hi
  · obtain ⟨q, hq⟩ := block_agrees_lex hdepth hend
    exact hq.stays hi
  · intro α step hstep
    exact hstep.stays (agreesFrom_ofDepth (prefixed_lex source) depth) hi (by omega)

/-- The body of a loop, at its start: the block, its first statement and the step that reads it. -/
theorem never_faults_whileLoop :
    let source := "while a\nprint 1\nend while".toList
    let atEnd := look Block.whileLoop.atEnd
    parseTokens (lex source) = some (parse source) ∧
      Stays (lex source) 3 (fun _ j => 3 < j) (print (ofDepth 8)) ∧
      Stays (lex source) 2 (fun _ _ => True) (block (ofDepth 8) atEnd) ∧
      Stays (lex source) 2 (fun o j => ∀ a, o = some a → 2 < j) (blockItem (ofDepth 8) atEnd) := by
  intro source atEnd
  obtain ⟨hparse, hstays⟩ := never_faults source
  obtain ⟨hparser, -⟩ := hstays 8 3 (by decide) (by decide)
  obtain ⟨-, hblock, hstep⟩ := hstays 8 2 (by decide) (by decide)
  exact ⟨hparse, hparser (.print (by decide)), hblock (.look _), hstep (.block (.look _))⟩

end Indexed

end BrightCoverage
