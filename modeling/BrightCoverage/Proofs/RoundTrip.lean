import BrightCoverage.Proofs.ReadingBack

/-! Statements that are written canonically are read back. Where a list of statements stops is told
by the next tokens alone, so each statement has to start like none of the ends, and the end of each
block has to be one. -/

namespace BrightCoverage

open BrightCoverage.Parser

variable {ts us rest : List Token} {t : Token} {k : TokenKind}

section Openings

def enders : List TokenKind :=
  [.newline, .symbol .colon, .keyword .endIfKw, .keyword .endForKw, .keyword .endWhileKw,
    .keyword .endFunctionKw, .keyword .endSubKw, .keyword .nextKw, .keyword .elseKw,
    .keyword .elseIfKw]

theorem Block.closer_mem_enders {b : Block} {word : Keyword} (h : b.closer? = some word) :
    .keyword word ∈ enders := by
  rcases b with _ | _ | _ | (_ | _) | _ <;> cases h <;> decide

theorem Block.atEnd_of_kind (b : Block) (h : kindOf ts = some k) (hk : k ∉ enders)
    (hend : k = .keyword .endKw → kindOf ts.tail = some .newline) :
    b.atEnd (.ofTokens ts) = false := by
  have hkind : (Cursor.ofTokens ts).kind? = some k := h
  have hcloser : b.atCloser (.ofTokens ts) = false := by
    rw [Block.atCloser]
    split
    · next word hw =>
      simp only [hkind, decide_eq_false_iff_not, Option.some.injEq]
      rintro rfl
      exact hk (Block.closer_mem_enders hw)
    · rfl
  have hnext : b.atNext (.ofTokens ts) = false := by
    simp only [Block.atNext, hkind, Bool.and_eq_false_iff, decide_eq_false_iff_not,
      Option.some.injEq]
    refine .inr ?_
    rintro rfl
    exact hk (by decide)
  have hpair : b.atPair (.ofTokens ts) = false := by
    rw [Block.atPair]
    split
    · next word hw =>
      simp only [hkind, Bool.and_eq_false_iff, decide_eq_false_iff_not, Option.some.injEq]
      by_cases he : k = .keyword .endKw
      · have hnl : (Cursor.ofTokens ts).kindAt? 1 = some .newline := by
          rw [← hend he]
          simp [Cursor.kindAt?, Cursor.ofTokens, kindOf, List.head?_tail]
        exact .inr (by simp [hnl])
      · exact .inl he
    · rfl
  simp only [Block.atEnd, hcloser, hnext, hpair, Bool.or_self]

theorem opens_of_kind (h : kindOf ts = some k) (hk : k ∉ enders)
    (hend : k = .keyword .endKw → kindOf ts.tail = some .newline)
    (hdir : Directive.atBranchEnd (.ofTokens ts) = false) : Opens ts := by
  have hkind : (Cursor.ofTokens ts).kind? = some k := h
  have hne : ∀ k' ∈ enders, k ≠ k' := fun k' hk' heq => hk (heq ▸ hk')
  refine ⟨?_, fun stop => ?_, fun k' hk' heq => ?_⟩
  · rintro rfl
    cases h
  · cases stop with
    | never => rfl
    | block b => exact b.atEnd_of_kind h hk hend
    | branch =>
      have helse : k ≠ .keyword .elseKw := hne _ (by decide)
      have helseIf : k ≠ .keyword .elseIfKw := hne _ (by decide)
      simp [Stop.atEnd, Cursor.atBranchEnd, Cursor.atElseIf, hkind, helse, helseIf,
        Block.branch.atEnd_of_kind h hk hend]
    | directive => exact hdir
  · have hsub : ∀ k' ∈ [TokenKind.newline, .symbol .colon], k' ∈ enders := by decide
    rw [h] at heq
    exact hne k' (hsub k' hk') (Option.some.inj heq)

theorem atBranchEnd_of_kind (h : kindOf ts ≠ some .directive) :
    Directive.atBranchEnd (.ofTokens ts) = false := by
  cases ts with
  | nil => rfl
  | cons t ts =>
    have hdir : t.kind ≠ .directive := fun ht => h (kindOf_cons ht)
    simp [Directive.atBranchEnd, Directive.next?, Cursor.head?, Cursor.ofTokens,
      Directive.ofToken?, hdir]

theorem opens_of_identifier (h : kindOf ts = some .identifier) : Opens ts :=
  opens_of_kind h (by decide) (by simp) (atBranchEnd_of_kind (by simp [h]))

theorem opens_of_directive (ht : t.kind = .directive)
    (hdir : Directive.atBranchEnd (.ofTokens (t :: ts)) = false) : Opens (t :: ts) :=
  opens_of_kind (kindOf_cons ht) (by decide) (by simp) hdir

theorem next?_of_directive (ht : t.kind = .directive) :
    Directive.next? (.ofTokens (t :: ts)) = (Directive.ofLine t.text.toList).kind := by
  simp [Directive.next?, Cursor.head?, Cursor.ofTokens, Directive.ofToken?, ht]

end Openings

section Statements

variable {s : Statement Extent} {e : Expr Extent} {ls : List Lexeme} {ps : List (Part Extent)}

theorem Printed.statement_of_keyword {l : Lexeme} {p : String → Prop}
    (h : Printed (l :: ls) ts rest) (hk : l.kind ∉ enders ++ [.keyword .endKw, .directive])
    (form : Form (.statement s) (.token l.kind p :: ps)) (hp : p l.text)
    (hls : ∀ us, Printed ls us rest → Fits (Spells Plain) ps us rest) :
    Opens ts ∧ Spells Plain (.statement s) ts rest := by
  obtain ⟨t, us, rfl, ht, htext, h⟩ := printed_cons.1 h
  simp only [List.mem_append, List.mem_cons, List.not_mem_nil, or_false, not_or] at hk
  obtain ⟨hk, hend, hdir⟩ := hk
  refine ⟨opens_of_kind (kindOf_cons ht) hk (fun h => absurd h hend) ?_, ?_⟩
  · exact atBranchEnd_of_kind fun h => hdir (ht ▸ Option.some.inj h)
  · exact form.spells (.token ht (htext ▸ hp) (hls us h))

theorem Node.rendered_of_keyword {l : Lexeme} {p : String → Prop} (hr : s.render = l :: ls)
    (hk : l.kind ∉ enders ++ [.keyword .endKw, .directive])
    (form : Form (.statement s) (.token l.kind p :: ps)) (hp : p l.text)
    (hls : ∀ ts rest, Printed ls ts rest → kindOf rest = some .newline →
      Fits (Spells Plain) ps ts rest) : (Node.statement s).Rendered := by
  intro ts rest h hrest
  rw [hr] at h
  exact h.statement_of_keyword hk form hp fun us hus => hls us rest hus hrest

theorem Expr.Rooted.render_eq : ∀ {e : Expr Extent}, e.Rooted → (Node.expression e).Fine →
    ∃ name ls, e.render = .word name :: ls ∧ Name name
  | .identifier _ name, _, hf => ⟨name, [], rfl, hf.expression.2⟩
  | .call _ object _, h, hf
  | .member _ object _, h, hf
  | .index _ object _, h, hf
  | .attribute _ object _, h, hf => by
    obtain ⟨name, ls, hr, hname⟩ := Expr.Rooted.render_eq (e := object) h
      (hf.of_mem (List.mem_cons_self ..))
    exact ⟨name, _, by rw [Expr.render, hr]; rfl, hname⟩

theorem Expr.Rooted.isOperand (h : e.Rooted) : e.isOperand = true := by
  cases e <;> first | rfl | exact h.elim

theorem Printed.rooted (h : Printed (e.render ++ ls) ts rest) (hr : e.Rooted)
    (hf : (Node.expression e).Fine) : kindOf ts = some .identifier ∧ Opens ts := by
  obtain ⟨name, ms, hms, hname⟩ := hr.render_eq hf
  rw [hms, List.cons_append, printed_cons] at h
  obtain ⟨t, us, rfl, ht, -⟩ := h
  have hk : kindOf (t :: us) = some .identifier := kindOf_cons (ht.trans hname.kind)
  exact ⟨hk, opens_of_identifier hk⟩

theorem Printed.value_cons {l : Lexeme} (h : Printed (e.render ++ l :: ls) ts rest)
    (he : (Node.expression e).Rendered) (hl : l.kind ∈ closers) :
    ∃ t us, Spells Plain (.value e) ts (t :: us) ∧ t.kind = l.kind ∧ Printed ls us rest := by
  obtain ⟨_, h, h'⟩ := printed_append.1 h
  obtain ⟨t, us, rfl, ht, -, h'⟩ := printed_cons.1 h'
  exact ⟨t, us, h.value he (kindOf_cons ht) hl, ht, h'⟩

end Statements

section Branches

variable {elseBody : Option (List (Statement Extent))}

theorem Printed.elseBranch
    (h : Printed (renderBody? [.keyword .elseKw] elseBody ++ [.keyword .endKw, .keyword .ifKw])
      ts rest) (hbody : ∀ body ∈ elseBody, ∀ s ∈ body, (Node.statement s).Rendered) :
    Fits (Spells Plain) [.phrase (.maybe (.keyword .elseKw)
        (elseBody.map (.block (.block .branch)))), .phrase (.close .branch)] ts rest ∧
      Stop.branch.Ends ts ∧ (Cursor.ofTokens ts).atElseIf = false := by
  cases elseBody with
  | none =>
    obtain ⟨hclose, -, hk, hpair⟩ := Printed.close (b := .branch) rfl h
    have hkind : (Cursor.ofTokens ts).kind? = some (.keyword .endKw) := hk
    have helse : kindOf ts ≠ some (.keyword .elseKw) := by simp [hk]
    have hatElseIf : (Cursor.ofTokens ts).atElseIf = false := by
      simp [Cursor.atElseIf, hkind]
    refine ⟨.phrase (Form.maybeNone.spells (.ahead helse .nil)) (.phrase hclose .nil),
      ⟨.inr ?_, ?_⟩, hatElseIf⟩
    · simp [Stop.atEnd, Cursor.atBranchEnd, Block.atEnd, hpair]
    · simp [Unseparated, hk]
  | some body =>
    rw [renderBody?, List.singleton_append, List.cons_append, List.cons_append] at h
    obtain ⟨t, us, rfl, ht, -, h⟩ := printed_cons.1 h
    obtain ⟨hlines, hnl⟩ := h.lines (b := .branch) rfl (hbody body rfl)
    obtain ⟨mid, hblock, hclose⟩ := fits_phrase.1 hlines
    refine ⟨.phrase (Form.maybeSome.spells (.token ht trivial (.phrase hblock .nil))) hclose,
      ⟨.inr ?_, ?_⟩, ?_⟩
    · simp [Stop.atEnd, Cursor.atBranchEnd, Cursor.kind?, Cursor.ofTokens, ht, Lexeme.kind]
    · simp [Unseparated, kindOf_cons ht, Lexeme.kind]
    · have hnext : (Cursor.ofTokens (t :: us)).kindAt? 1 = some .newline := by
        rw [← hnl]
        simp [Cursor.kindAt?, Cursor.ofTokens, kindOf, List.head?_eq_getElem?]
      have hkind : (Cursor.ofTokens (t :: us)).kind? = some (.keyword .elseKw) := kindOf_cons ht
      simp [Cursor.atElseIf, hkind, hnext]

theorem Printed.conditioned {condition : Expr Extent} {body : List (Statement Extent)}
    (h : Printed (condition.render ++ .keyword .thenKw :: .newline :: renderBody body) ts rest)
    (hcondition : (Node.expression condition).Rendered)
    (hbody : ∀ s ∈ body, (Node.statement s).Rendered) (hend : Stop.branch.Ends rest) :
    ∃ us vs, Spells Plain (.value condition) ts us ∧
      Spells Plain (.accepted (.keyword .thenKw)) us vs ∧ kindOf vs = some .newline ∧
      Spells Plain (.block .branch body) vs rest := by
  obtain ⟨t, vs, hvalue, ht, h⟩ := h.value_cons hcondition (by decide)
  have hthen : Spells Plain (.accepted (.keyword .thenKw)) (t :: vs) vs :=
    Form.accepted.spells (.token ht trivial .nil)
  obtain ⟨t', us, rfl, ht', -, h⟩ := printed_cons.1 h
  exact ⟨_, _, hvalue, hthen, kindOf_cons ht', (h.block hbody hend).newline_block ht'⟩

theorem Printed.elseIfs {clauses : List (ElseIf Extent)}
    (h : Printed (renderElseIfs clauses) ts rest)
    (hc : ∀ clause ∈ clauses, (Node.expression clause.condition).Rendered ∧
      ∀ s ∈ clause.body, (Node.statement s).Rendered)
    (hend : Stop.branch.Ends rest) (helse : (Cursor.ofTokens rest).atElseIf = false) :
    Spells Plain (.elseIfs clauses) ts rest ∧ Stop.branch.Ends ts := by
  induction clauses generalizing ts with
  | nil =>
    obtain rfl := printed_nil.1 h
    exact ⟨Form.elseIfsNil.spells (.ahead helse .nil), hend⟩
  | cons clause clauses ih =>
    obtain ⟨⟨hcondition, hbody⟩, hclauses⟩ := List.forall_mem_cons.1 hc
    obtain ⟨here, condition, body⟩ := clause
    rw [renderElseIfs, ElseIf.render] at h
    obtain ⟨mid, h, hmore⟩ := printed_append.1 h
    obtain ⟨hmore, hmid⟩ := ih hmore hclauses
    obtain ⟨t₁, _, rfl, ht₁, -, h⟩ := printed_cons.1 h
    obtain ⟨t₂, _, rfl, ht₂, -, h⟩ := printed_cons.1 h
    obtain ⟨_, _, hvalue, hthen, -, hblock⟩ := h.conditioned hcondition hbody hmid
    refine ⟨Form.elseIfsTwo.spells (.token ht₁ trivial (.token ht₂ trivial (.phrase hvalue
      (.phrase hthen (.phrase hblock (.phrase hmore .nil)))))), ⟨.inr ?_, ?_⟩⟩
    · simp [Stop.atEnd, Cursor.atBranchEnd, Cursor.kind?, Cursor.ofTokens, ht₁, Lexeme.kind]
    · simp [Unseparated, kindOf_cons ht₁, Lexeme.kind]

end Branches

section Directives

variable {clauses : List (CompileElseIf Extent)} {elseBody : Option (List (Statement Extent))}

theorem ends_of_directive {d : DirectiveKind} (ht : t.kind = .directive)
    (hd : (Directive.ofLine t.text.toList).kind = some d)
    (hmem : d ∈ [DirectiveKind.elseIfDir, .elseDir, .endIfDir]) : Stop.directive.Ends (t :: ts) := by
  have hnext : Directive.next? (.ofTokens (t :: ts)) = some d := by rw [next?_of_directive ht, hd]
  refine ⟨.inr ?_, ?_⟩
  · simp only [List.mem_cons, List.not_mem_nil, or_false] at hmem
    rcases hmem with rfl | rfl | rfl <;> simp [Stop.atEnd, Directive.atBranchEnd, hnext]
  · simp [Unseparated, kindOf_cons ht]

theorem Printed.compileElse
    (h : Printed (renderBody? [.directive "#else"] elseBody ++ [.directive "#end if"]) ts rest)
    (hbody : ∀ body ∈ elseBody, ∀ s ∈ body, (Node.statement s).Rendered) :
    Fits (Spells Plain) [.phrase (.compileElse elseBody),
        .line fun d => d.kind = some .endIfDir] ts rest ∧
      Stop.directive.Ends ts ∧ Directive.next? (.ofTokens ts) ≠ some .elseIfDir := by
  obtain ⟨mid, helse, hclose⟩ := printed_append.1 h
  obtain ⟨t, us, rfl, ht, htext, hus⟩ := printed_cons.1 hclose
  obtain rfl := printed_nil.1 hus
  have hend : (Directive.ofLine t.text.toList).kind = some .endIfDir := by rw [htext]; decide
  have hends : Stop.directive.Ends (t :: us) := ends_of_directive ht hend (by decide)
  have hline : Fits (Spells Plain) [.line fun d => d.kind = some .endIfDir] (t :: us) us :=
    .line ht hend .nil
  have hnext : Directive.next? (.ofTokens (t :: us)) = some .endIfDir := by
    rw [next?_of_directive ht, hend]
  cases elseBody with
  | none =>
    obtain rfl := printed_nil.1 helse
    exact ⟨.phrase (Form.compileElseNone.spells (.ahead (by simp [hnext]) .nil)) hline, hends,
      by simp [hnext]⟩
  | some body =>
    obtain ⟨t₁, _, rfl, ht₁, htext₁, helse⟩ := printed_cons.1 helse
    obtain ⟨t₂, _, rfl, ht₂, -, helse⟩ := printed_cons.1 helse
    have hkind : (Directive.ofLine t₁.text.toList).kind = some .elseDir := by rw [htext₁]; decide
    have hblock := (helse.block (hbody body rfl) hends).newline_block ht₂
    refine ⟨.phrase (Form.compileElse.spells (.line ht₁ hkind (.phrase hblock .nil))) hline,
      ends_of_directive ht₁ hkind (by decide), ?_⟩
    rw [next?_of_directive ht₁, hkind]
    decide

theorem Printed.compileElseIfs (h : Printed (renderCompileElseIfs clauses) ts rest)
    (hc : ∀ clause ∈ clauses, Trimmed clause.condition ∧
      ∀ s ∈ clause.body, (Node.statement s).Rendered)
    (hend : Stop.directive.Ends rest) (helse : Directive.next? (.ofTokens rest) ≠ some .elseIfDir) :
    Spells Plain (.compileElseIfs clauses) ts rest ∧ Stop.directive.Ends ts := by
  induction clauses generalizing ts with
  | nil =>
    obtain rfl := printed_nil.1 h
    exact ⟨Form.compileElseIfsNil.spells (.ahead helse .nil), hend⟩
  | cons clause clauses ih =>
    obtain ⟨⟨hcondition, hbody⟩, hclauses⟩ := List.forall_mem_cons.1 hc
    obtain ⟨condition, body⟩ := clause
    rw [renderCompileElseIfs, CompileElseIf.render] at h
    obtain ⟨mid, h, hmore⟩ := printed_append.1 h
    obtain ⟨hmore, hmid⟩ := ih hmore hclauses
    obtain ⟨t₁, _, rfl, ht₁, htext, h⟩ := printed_cons.1 h
    obtain ⟨t₂, _, rfl, ht₂, -, h⟩ := printed_cons.1 h
    have hline : Directive.ofLine t₁.text.toList
        = ⟨some .elseIfDir, "else".toList, condition.toList⟩ := by
      rw [htext]
      exact ofLine_append "#else if " (fun _ => rfl) hcondition
    have hblock := (h.block hbody hmid).newline_block ht₂
    refine ⟨Form.compileElseIfsCons.spells (.line ht₁ ?_ (.phrase hblock (.phrase hmore .nil))),
      ends_of_directive ht₁ (by rw [hline]) (by decide)⟩
    rw [hline]
    exact ⟨rfl, String.ofList_toList⟩

end Directives

section Printing

theorem Printed.atStatementEnd {e : Expr Extent} (h : Printed e.render ts rest)
    (he : (Node.expression e).Rendered) : (Cursor.ofTokens ts).atStatementEnd = false := by
  obtain ⟨k, hk, hts⟩ := h.starts he
  have hkind : (Cursor.ofTokens ts).kind? = some k := hts
  rw [Cursor.atStatementEnd, hkind]
  clear hkind hts
  revert k
  decide

theorem atStatementEnd_of_newline (h : kindOf ts = some .newline) :
    (Cursor.ofTokens ts).atStatementEnd = true := by
  have hkind : (Cursor.ofTokens ts).kind? = some .newline := h
  simp [Cursor.atStatementEnd, hkind]

theorem PrintSeparator.ofKind?_symbol (separator : PrintSeparator) :
    ofKind? (.symbol separator.symbol) = some separator := by
  cases separator <;> rfl

theorem Printed.separators {separator : Option PrintSeparator}
    (h : Printed (separator.toList.map (Lexeme.symbol ·.symbol)) ts rest)
    (hrest : (kindOf rest).bind PrintSeparator.ofKind? = none) :
    Spells Plain (.separators separator) ts rest := by
  have hnone : Spells Plain (.separators none) rest rest :=
    Form.noSeparator.spells (.ahead hrest .nil)
  cases separator with
  | none =>
    obtain rfl := printed_nil.1 h
    exact hnone
  | some separator =>
    obtain ⟨t, us, rfl, ht, -, h⟩ := printed_cons.1 h
    obtain rfl := printed_nil.1 h
    exact (Form.lastSeparator separator.ofKind?_symbol).spells
      (.token ht trivial (.phrase hnone .nil))

theorem Printed.printItems {items : List (PrintItem Extent)}
    (h : Printed (renderPrintItems items) ts rest)
    (hv : ∀ item ∈ items, (Node.expression item.value).Rendered)
    (hs : ∀ item ∈ items.dropLast, item.separator ≠ none) (hrest : kindOf rest = some .newline) :
    Spells Plain (.printed items) ts rest ∧ (kindOf ts).bind PrintSeparator.ofKind? = none := by
  induction items generalizing ts with
  | nil =>
    obtain rfl := printed_nil.1 h
    refine ⟨Form.printedNil.spells (.ahead (atStatementEnd_of_newline hrest) .nil), ?_⟩
    rw [hrest]
    rfl
  | cons item items ih =>
    obtain ⟨hvalue, hvalues⟩ := List.forall_mem_cons.1 hv
    obtain ⟨value, separator⟩ := item
    rw [renderPrintItems, PrintItem.render, List.append_assoc] at h
    obtain ⟨mid, h, hmore⟩ := printed_append.1 h
    obtain ⟨mid', hseparator, hmore⟩ := printed_append.1 hmore
    have hs' : ∀ item ∈ items.dropLast, item.separator ≠ none := fun item hmem => hs item (by
      cases items with
      | nil => cases hmem
      | cons => exact List.mem_cons_of_mem _ hmem)
    obtain ⟨hmore', hbare⟩ := ih hmore hvalues hs'
    -- without a separator this is the last value, in front of the line break
    obtain ⟨k, hk, hmid⟩ : ∃ k ∈ closers, kindOf mid = some k := by
      cases separator with
      | some separator =>
        obtain ⟨t, us, rfl, ht, -⟩ := printed_cons.1 hseparator
        exact ⟨_, by cases separator <;> decide, kindOf_cons ht⟩
      | none =>
        obtain rfl := printed_nil.1 hseparator
        cases items with
        | nil =>
          obtain rfl := printed_nil.1 hmore
          exact ⟨_, by decide, hrest⟩
        | cons => exact absurd rfl (hs _ (List.mem_cons_self ..))
    refine ⟨Form.printedCons.spells (.ahead (h.atStatementEnd hvalue) (.phrase
      (h.value hvalue hmid hk) (.phrase (hseparator.separators hbare) (.phrase hmore' .nil)))), ?_⟩
    obtain ⟨k', hk', hts⟩ := h.starts hvalue
    have hstart : ∀ k ∈ starters, PrintSeparator.ofKind? k = none := by decide
    rw [hts]
    exact hstart k' hk'

end Printing

section Statements

variable {here : Extent}

theorem Printed.name {name : String} {ls : List Lexeme} (h : Printed (.word name :: ls) ts rest)
    (hname : Name name) :
    ∃ t us, ts = t :: us ∧ t.kind = .identifier ∧ t.text = name ∧ Printed ls us rest := by
  obtain ⟨t, us, rfl, ht, htext, h⟩ := printed_cons.1 h
  exact ⟨t, us, rfl, ht.trans hname.kind, htext, h⟩

theorem Node.rendered_procedure {name : String} {decl : Procedure Extent}
    (hname : Name name) (hd : decl.Fine) (hc : ∀ p ∈ decl.pieces, p.Rendered) :
    (Node.statement (.procedure here name decl)).Rendered := by
  have hk : .keyword decl.keyword.word ∉ enders ++ [.keyword .endKw, .directive] := by
    cases decl.keyword <;> decide
  refine Node.rendered_of_keyword rfl hk Form.namedProcedure trivial fun ts rest h _ => ?_
  obtain ⟨t, us, rfl, ht, htext, h⟩ := h.name hname
  exact .token ht htext (.phrase (h.procedure hd hc) .nil)

theorem Node.rendered_branch {condition : Expr Extent} {thenBody : List (Statement Extent)}
    {elseIfs : List (ElseIf Extent)} {elseBody : Option (List (Statement Extent))}
    (hc : ∀ p ∈ (Node.statement (.branch here condition thenBody elseIfs elseBody)).pieces,
      p.Rendered) :
    (Node.statement (.branch here condition thenBody elseIfs elseBody)).Rendered := by
  obtain ⟨hcondition, hc⟩ := List.forall_mem_cons.1 hc
  obtain ⟨hthen, hc⟩ := List.forall_mem_cons.1 hc
  obtain ⟨hclauses, helse⟩ := List.forall_mem_append.1 hc
  have hclauses' : ∀ clause ∈ elseIfs, (Node.expression clause.condition).Rendered ∧
      ∀ s ∈ clause.body, (Node.statement s).Rendered := fun clause hmem =>
    ⟨hclauses (.clause clause.keyword clause.condition)
        (List.mem_flatMap.2 ⟨clause, hmem, List.mem_cons_self ..⟩),
      hclauses (.statements clause.body)
        (List.mem_flatMap.2 ⟨clause, hmem, List.mem_cons_of_mem _ (List.mem_singleton_self _)⟩)⟩
  have helse' : ∀ body ∈ elseBody, ∀ s ∈ body, (Node.statement s).Rendered := fun body hmem =>
    helse (.statements body) (by simpa using hmem)
  refine Node.rendered_of_keyword rfl (by decide) Form.blockBranch trivial fun ts rest h _ => ?_
  rw [← List.cons_append, ← List.cons_append, ← List.append_assoc] at h
  obtain ⟨_, h, htail⟩ := printed_append.1 h
  obtain ⟨_, hclauses, helse⟩ := printed_append.1 htail
  obtain ⟨helse, hends, hnoElseIf⟩ := helse.elseBranch helse'
  obtain ⟨hclauses, hends⟩ := hclauses.elseIfs hclauses' hends hnoElseIf
  obtain ⟨_, vs, hvalue, hthen, hnl, hblock⟩ := h.conditioned hcondition hthen hends
  have hform : (Cursor.ofTokens vs).atBlockForm = true := by
    have hkind : (Cursor.ofTokens vs).kind? = some .newline := hnl
    simp [Cursor.atBlockForm, hkind]
  exact .phrase hvalue (.phrase hthen (.ahead hform (.phrase hblock (.phrase hclauses helse))))

theorem Node.rendered_forLoop {counter : String} {first last : Expr Extent}
    {step : Option (Expr Extent)} {body : List (Statement Extent)} (hname : Name counter)
    (hc : ∀ p ∈ (Node.statement (.forLoop here counter first last step body)).pieces, p.Rendered) :
    (Node.statement (.forLoop here counter first last step body)).Rendered := by
  obtain ⟨hfirst, hc⟩ := List.forall_mem_cons.1 hc
  obtain ⟨hlast, hc⟩ := List.forall_mem_cons.1 hc
  obtain ⟨hstep, hbody⟩ := List.forall_mem_append.1 hc
  have hstep' : ∀ e ∈ step, (Node.expression e).Rendered := fun e he =>
    hstep (.expression e) (by simpa using he)
  have hbody' : ∀ s ∈ body, (Node.statement s).Rendered := hbody _ (List.mem_singleton_self _)
  refine Node.rendered_of_keyword rfl (by decide) Form.forLoop trivial fun ts rest h _ => ?_
  obtain ⟨t₁, _, rfl, ht₁, htext, h⟩ := h.name hname
  obtain ⟨t₂, _, rfl, ht₂, -, h⟩ := printed_cons.1 h
  obtain ⟨t₃, us, hfirst, ht₃, h⟩ := h.value_cons hfirst (by decide)
  obtain ⟨mid, h, htail⟩ := printed_append.1 h
  obtain ⟨_, hstep, hlines⟩ := printed_append.1 htail
  obtain ⟨hlines, hnl⟩ := hlines.lines (b := .forLoop) rfl hbody'
  obtain ⟨hstep, hmid⟩ := hstep.expr? hstep' hnl (by decide) (by decide)
  have hlast : Spells Plain (.value last) us mid := by
    rcases hmid with hmid | hmid
    · exact h.value hlast hmid (by decide)
    · exact h.value hlast hmid (by decide)
  exact .token ht₁ htext (.token ht₂ trivial (.phrase hfirst (.token ht₃ trivial
    (.phrase hlast (.phrase hstep hlines)))))

theorem Node.rendered_forEach {item : String} {target : Expr Extent}
    {body : List (Statement Extent)} (hname : Name item)
    (hc : ∀ p ∈ (Node.statement (.forEach here item target body)).pieces, p.Rendered) :
    (Node.statement (.forEach here item target body)).Rendered := by
  obtain ⟨htarget, hc⟩ := List.forall_mem_cons.1 hc
  have hbody : ∀ s ∈ body, (Node.statement s).Rendered := hc _ (List.mem_singleton_self _)
  refine Node.rendered_of_keyword rfl (by decide) Form.forEach trivial fun ts rest h _ => ?_
  obtain ⟨t₁, _, rfl, ht₁, -, h⟩ := printed_cons.1 h
  obtain ⟨t₂, _, rfl, ht₂, htext, h⟩ := h.name hname
  obtain ⟨t₃, _, rfl, ht₃, -, h⟩ := printed_cons.1 h
  obtain ⟨_, h, hlines⟩ := printed_append.1 h
  obtain ⟨hlines, hnl⟩ := hlines.lines (b := .forLoop) rfl hbody
  exact .token ht₁ trivial (.token ht₂ htext (.token ht₃ trivial
    (.phrase (h.value htarget hnl (by decide)) hlines)))

theorem Node.rendered_whileLoop {condition : Expr Extent} {body : List (Statement Extent)}
    (hc : ∀ p ∈ (Node.statement (.whileLoop here condition body)).pieces, p.Rendered) :
    (Node.statement (.whileLoop here condition body)).Rendered := by
  obtain ⟨hcondition, hc⟩ := List.forall_mem_cons.1 hc
  have hbody : ∀ s ∈ body, (Node.statement s).Rendered := hc _ (List.mem_singleton_self _)
  refine Node.rendered_of_keyword rfl (by decide) Form.whileLoop trivial fun ts rest h _ => ?_
  obtain ⟨_, h, hlines⟩ := printed_append.1 h
  obtain ⟨hlines, hnl⟩ := hlines.lines (b := .whileLoop) rfl hbody
  exact .phrase (h.value hcondition hnl (by decide)) hlines

theorem Node.rendered_call {value : Expr Extent} (hr : value.Rooted)
    (hcall : ∃ there callee args, value = .call there callee args)
    (hf : (Node.expression value).Fine) (hv : (Node.expression value).Rendered) :
    (Node.statement (.call here value)).Rendered := by
  obtain ⟨there, callee, args, rfl⟩ := hcall
  intro ts rest h hrest
  have happend : Printed ((Expr.call there callee args).render ++ []) ts rest := by
    rw [List.append_nil]
    exact h
  obtain ⟨hk, hopens⟩ := happend.rooted hr hf
  have hunattached : Unattached rest := by
    rw [Unattached, hrest]
    decide
  exact ⟨hopens, Form.callStatement.spells (.ahead hk (.phrase (hv.2 _ _ h)
    (.ahead hunattached (.ahead (by simp [hrest, AssignOp.ofKind?]) .nil))))⟩

theorem Node.rendered_assign {name : String} {op : AssignOp} {value : Expr Extent}
    (hname : Name name) (hv : (Node.expression value).Rendered) :
    (Node.statement (.assign here name op value)).Rendered := by
  intro ts rest h hrest
  obtain ⟨t₁, us, rfl, ht₁, htext, h⟩ := h.name hname
  have htarget : Spells Plain (.expression (.identifier here name)) (t₁ :: us) us :=
    Form.identifier.spells (.token ht₁ htext .nil)
  obtain ⟨t₂, _, rfl, ht₂, -, h⟩ := printed_cons.1 h
  refine ⟨opens_of_identifier (kindOf_cons ht₁), ?_⟩
  exact (Form.assign op.ofKind?_kind).spells (.phrase htarget
    (.token ht₂ trivial (.phrase (h.value hv hrest (by decide)) .nil)))

theorem Node.rendered_assignMember {object value : Expr Extent} {name : String} {op : AssignOp}
    (hr : object.Rooted) (hname : Word name) (hf : (Node.expression object).Fine)
    (ho : (Node.expression object).Rendered) (hv : (Node.expression value).Rendered) :
    (Node.statement (.assignMember here object name op value)).Rendered := by
  intro ts rest h hrest
  obtain ⟨hk, hopens⟩ := Printed.rooted h hr hf
  obtain ⟨_, hobject, h⟩ := printed_append.1 h
  obtain ⟨t₁, _, rfl, ht₁, -, h⟩ := printed_cons.1 h
  obtain ⟨t₂, us, rfl, -, htext, h⟩ := printed_cons.1 h
  obtain ⟨t₃, _, rfl, ht₃, -, h⟩ := printed_cons.1 h
  have htarget : Spells Plain (.expression (.member here object name)) ts (t₃ :: _) :=
    (Form.member hr.isOperand).spells (.phrase (ho.2 _ _ hobject)
      (.token ht₁ trivial (.word (hname.isWord htext) htext .nil)))
  exact ⟨hopens, (Form.assignMember op.ofKind?_kind).spells (.ahead hk (.phrase htarget
    (.token ht₃ trivial (.phrase (h.value hv hrest (by decide)) .nil))))⟩

theorem Node.rendered_assignIndex {object index value : Expr Extent} {op : AssignOp}
    (hr : object.Rooted) (hf : (Node.expression object).Fine)
    (ho : (Node.expression object).Rendered) (hi : (Node.expression index).Rendered)
    (hv : (Node.expression value).Rendered) :
    (Node.statement (.assignIndex here object index op value)).Rendered := by
  intro ts rest h hrest
  obtain ⟨hk, hopens⟩ := Printed.rooted h hr hf
  obtain ⟨_, hobject, h⟩ := printed_append.1 h
  have hsplit : .symbol .leftBracket :: (index.render ++ .symbol .rightBracket :: .assign op ::
        value.render)
      = (.symbol .leftBracket :: (index.render ++ [.symbol .rightBracket])) ++ .assign op ::
        value.render := by simp
  rw [hsplit] at h
  obtain ⟨_, hindex, h⟩ := printed_append.1 h
  obtain ⟨t, us, rfl, ht, -, h⟩ := printed_cons.1 h
  have htarget : Spells Plain (.expression (.index here object index)) ts (t :: us) :=
    (Form.index hr.isOperand).spells
      (.phrase (ho.2 _ _ hobject) (hindex.bracketed hi (by decide)))
  exact ⟨hopens, (Form.assignIndex op.ofKind?_kind).spells (.ahead hk (.phrase htarget
    (.token ht trivial (.phrase (h.value hv hrest (by decide)) .nil))))⟩

theorem Node.rendered_print {items : List (PrintItem Extent)}
    (hs : ∀ item ∈ items.dropLast, item.separator ≠ none)
    (hv : ∀ item ∈ items, (Node.expression item.value).Rendered) :
    (Node.statement (.print here items)).Rendered := by
  have form : Form (.statement (.print here items)) [.keyword .printKw,
      .phrase (.separators none), .phrase (.printed items)] := .print (by decide)
  refine Node.rendered_of_keyword rfl (by decide) form trivial fun ts rest h hrest => ?_
  obtain ⟨hitems, hbare⟩ := h.printItems hv hs hrest
  exact .phrase (Form.noSeparator.spells (.ahead hbare .nil)) (.phrase hitems .nil)

theorem Node.rendered_giveBack {value : Option (Expr Extent)}
    (hv : ∀ e ∈ value, (Node.expression e).Rendered) :
    (Node.statement (.giveBack here value)).Rendered := by
  cases value with
  | none =>
    refine Node.rendered_of_keyword rfl (by decide) Form.giveNothing trivial
      fun ts rest h hrest => ?_
    obtain rfl := printed_nil.1 h
    exact .ahead (atStatementEnd_of_newline hrest) .nil
  | some e =>
    refine Node.rendered_of_keyword rfl (by decide) Form.giveBack trivial fun ts rest h hrest => ?_
    have he := hv e rfl
    exact .ahead (Printed.atStatementEnd h he) (.phrase (Printed.value h he hrest (by decide)) .nil)

theorem Node.rendered_increment {target : Expr Extent} {decrement : Bool} (hr : target.Rooted)
    (hf : (Node.expression target).Fine) (ht : (Node.expression target).Rendered) :
    (Node.statement (.increment here target decrement)).Rendered := by
  intro ts rest h hrest
  obtain ⟨hk, hopens⟩ := Printed.rooted h hr hf
  obtain ⟨_, htarget, h⟩ := printed_append.1 h
  obtain ⟨t, us, rfl, hkind, -, h⟩ := printed_cons.1 h
  obtain rfl := printed_nil.1 h
  have hspells := ht.2 _ _ htarget
  refine ⟨hopens, ?_⟩
  cases decrement with
  | false =>
    exact (Form.increment hr.isOperand).spells
      (.ahead hk (.phrase hspells (.token hkind trivial .nil)))
  | true =>
    exact (Form.decrement hr.isOperand).spells
      (.ahead hk (.phrase hspells (.token hkind trivial .nil)))

theorem Node.rendered_dim {name : String} {sizes : List (Expr Extent)} (hname : Name name)
    (hne : sizes ≠ []) (hs : ∀ e ∈ sizes, (Node.expression e).Rendered) :
    (Node.statement (.dim here name sizes)).Rendered := by
  cases sizes with
  | nil => exact absurd rfl hne
  | cons size sizes =>
    obtain ⟨hsize, hsizes⟩ := List.forall_mem_cons.1 hs
    refine Node.rendered_of_keyword rfl (by decide) Form.dim trivial fun ts rest h hrest => ?_
    obtain ⟨t₁, _, rfl, ht₁, htext, h⟩ := h.name hname
    obtain ⟨t₂, _, rfl, ht₂, -, h⟩ := printed_cons.1 h
    rw [renderExprs_eq_map, List.map_cons, commas, List.append_assoc] at h
    obtain ⟨mid, hfirst, htail⟩ := printed_append.1 h
    obtain ⟨_, hmore, hclose⟩ := printed_append.1 htail
    obtain ⟨t₃, us, rfl, ht₃, -, hclose⟩ := printed_cons.1 hclose
    obtain rfl := printed_nil.1 hclose
    have hvalue : ∀ e, (Node.expression e).Rendered → ∀ ts rest, Printed e.render ts rest →
        kindOf rest = some (.symbol .comma) ∨ kindOf rest = some (.symbol .rightBracket) →
        Spells Plain (.value e) ts rest := by
      rintro e he ts rest h (hrest | hrest)
      · exact h.value he hrest (by decide)
      · exact h.value he hrest (by decide)
    obtain ⟨hmore, hmid⟩ := Printed.more (fun e he => hvalue e (hsizes e he)) (by decide) hmore
      (kindOf_cons ht₃)
    exact .token ht₁ htext (.token ht₂ trivial (.phrase (hvalue size hsize _ _ hfirst hmid)
      (.phrase hmore (.token ht₃ trivial .nil))))

theorem Node.rendered_goto {label : String} (hname : Name label) :
    (Node.statement (.goto here label)).Rendered := by
  refine Node.rendered_of_keyword rfl (by decide) Form.goto trivial fun ts rest h _ => ?_
  obtain ⟨t, us, rfl, ht, htext, h⟩ := h.name hname
  obtain rfl := printed_nil.1 h
  exact .token ht htext .nil

theorem Node.rendered_label {name : String} (hname : Name name) :
    (Node.statement (.label here name)).Rendered := by
  intro ts rest h hrest
  obtain ⟨t₁, us, rfl, ht₁, htext, h⟩ := h.name hname
  obtain ⟨t₂, _, rfl, ht₂, -, h⟩ := printed_cons.1 h
  obtain rfl := printed_nil.1 h
  refine ⟨opens_of_identifier (kindOf_cons ht₁), ?_⟩
  exact Form.label.spells (.token ht₁ htext (.token ht₂ trivial (.ahead (.inr hrest) .nil)))

theorem Node.rendered_exit {loop : LoopKind} : (Node.statement (.exit here loop)).Rendered := by
  cases loop with
  | counted =>
    refine Node.rendered_of_keyword rfl (by decide) Form.exitCounted trivial fun ts rest h _ => ?_
    obtain ⟨t, us, rfl, ht, -, h⟩ := printed_cons.1 h
    obtain rfl := printed_nil.1 h
    exact .token ht trivial .nil
  | conditional =>
    refine Node.rendered_of_keyword rfl (by decide) Form.exitConditional trivial
      fun ts rest h _ => ?_
    obtain ⟨t, us, rfl, ht, -, h⟩ := printed_cons.1 h
    obtain rfl := printed_nil.1 h
    exact .token ht trivial .nil

theorem Node.rendered_endProgram : (Node.statement (.endProgram here)).Rendered := by
  intro ts rest h hrest
  obtain ⟨t, us, rfl, ht, -, h⟩ := printed_cons.1 h
  obtain rfl := printed_nil.1 h
  have hk : kindOf (t :: us) = some (.keyword .endKw) := kindOf_cons ht
  refine ⟨opens_of_kind hk (by decide) (fun _ => hrest) (atBranchEnd_of_kind (by simp [hk])), ?_⟩
  exact Form.endProgram.spells (.token ht trivial (.ahead (by simp [hrest]) .nil))

theorem Node.rendered_compileIf {condition : String} {thenBody : List (Statement Extent)}
    {elseIfs : List (CompileElseIf Extent)} {elseBody : Option (List (Statement Extent))}
    (hcondition : Trimmed condition) (hconditions : ∀ clause ∈ elseIfs, Trimmed clause.condition)
    (hc : ∀ p ∈ (Node.statement (.compileIf here condition thenBody elseIfs elseBody)).pieces,
      p.Rendered) :
    (Node.statement (.compileIf here condition thenBody elseIfs elseBody)).Rendered := by
  obtain ⟨hthen, hc⟩ := List.forall_mem_cons.1 hc
  obtain ⟨hclauses, helse⟩ := List.forall_mem_append.1 hc
  have hclauses' : ∀ clause ∈ elseIfs, Trimmed clause.condition ∧
      ∀ s ∈ clause.body, (Node.statement s).Rendered := fun clause hmem =>
    ⟨hconditions clause hmem,
      hclauses (.statements clause.body) (List.mem_map.2 ⟨clause, hmem, rfl⟩)⟩
  have helse' : ∀ body ∈ elseBody, ∀ s ∈ body, (Node.statement s).Rendered := fun body hmem =>
    helse (.statements body) (by simpa using hmem)
  intro ts rest h _
  obtain ⟨t₁, _, rfl, ht₁, htext, h⟩ := printed_cons.1 h
  obtain ⟨t₂, _, rfl, ht₂, -, h⟩ := printed_cons.1 h
  obtain ⟨_, h, htail⟩ := printed_append.1 h
  obtain ⟨_, hclauses, helse⟩ := printed_append.1 htail
  obtain ⟨helse, hends, hnoElseIf⟩ := helse.compileElse helse'
  obtain ⟨hclauses, hends⟩ := hclauses.compileElseIfs hclauses' hends hnoElseIf
  have hblock := (h.block hthen hends).newline_block ht₂
  have hline : Directive.ofLine t₁.text.toList = ⟨some .ifDir, "if".toList, condition.toList⟩ := by
    rw [htext]
    exact ofLine_append "#if " (fun _ => rfl) hcondition
  refine ⟨opens_of_directive ht₁ ?_, ?_⟩
  · simp [Directive.atBranchEnd, next?_of_directive ht₁, hline]
  · exact Form.compileIf.spells (.line ht₁ (by simp [hline]) (.phrase hblock
      (.phrase hclauses helse)))

theorem Node.rendered_directive {name args : String} (hname : name = "const" ∨ name = "error")
    (hargs : Trimmed args) : (Node.statement (.directive here name args)).Rendered := by
  intro ts rest h _
  obtain ⟨t, us, rfl, ht, htext, h⟩ := printed_cons.1 h
  obtain rfl := printed_nil.1 h
  obtain ⟨d, hd, hlower, hline⟩ : ∃ d, (d = .constDir ∨ d = .errorDir) ∧
      String.ofList (Directive.lower name.toList) = name ∧
      Directive.ofLine t.text.toList = ⟨some d, name.toList, args.toList⟩ := by
    rw [htext]
    rcases hname with rfl | rfl
    · exact ⟨_, .inl rfl, by decide, ofLine_append "#const " (fun _ => rfl) hargs⟩
    · exact ⟨_, .inr rfl, by decide, ofLine_append "#error " (fun _ => rfl) hargs⟩
  refine ⟨opens_of_directive ht ?_, ?_⟩
  · rcases hd with rfl | rfl <;> simp [Directive.atBranchEnd, next?_of_directive ht, hline]
  · exact Form.directive.spells (.line ht (by simpa [hline, hlower] using hd) .nil)

theorem Statement.rendered (s : Statement Extent) (hf : (Node.statement s).Fine)
    (hc : ∀ p ∈ (Node.statement s).pieces, p.Rendered) : (Node.statement s).Rendered := by
  have hfine := hf.statement
  have hchild : ∀ e, Piece.expression e ∈ (Node.statement s).pieces →
      (Node.expression e).Fine ∧ (Node.expression e).Rendered := fun e he =>
    ⟨hf.of_mem (List.mem_flatMap.2 ⟨_, he, List.mem_singleton_self _⟩), hc _ he⟩
  cases s with
  | procedure _ name decl => exact Node.rendered_procedure hfine.1 hfine.2 hc
  | branch => exact Node.rendered_branch hc
  | forLoop => exact Node.rendered_forLoop hfine hc
  | forEach => exact Node.rendered_forEach hfine hc
  | whileLoop => exact Node.rendered_whileLoop hc
  | call _ value =>
    obtain ⟨hvalue, hrendered⟩ := hchild value (List.mem_cons_self ..)
    exact Node.rendered_call hfine.1 hfine.2 hvalue hrendered
  | assign _ name op value =>
    exact Node.rendered_assign hfine (hchild value (List.mem_cons_self ..)).2
  | assignMember _ object name op value =>
    obtain ⟨hobject, hrendered⟩ := hchild object (List.mem_cons_self ..)
    exact Node.rendered_assignMember hfine.1 hfine.2 hobject hrendered
      (hchild value (by simp [Node.pieces])).2
  | assignIndex _ object index op value =>
    obtain ⟨hobject, hrendered⟩ := hchild object (List.mem_cons_self ..)
    exact Node.rendered_assignIndex hfine hobject hrendered
      (hchild index (by simp [Node.pieces])).2 (hchild value (by simp [Node.pieces])).2
  | print _ items =>
    exact Node.rendered_print hfine fun item hitem =>
      (hchild item.value (List.mem_map.2 ⟨item, hitem, rfl⟩)).2
  | giveBack _ value =>
    exact Node.rendered_giveBack fun e he => (hchild e (by simpa [Node.pieces] using he)).2
  | increment _ target =>
    obtain ⟨htarget, hrendered⟩ := hchild target (List.mem_cons_self ..)
    exact Node.rendered_increment hfine htarget hrendered
  | dim _ name sizes =>
    exact Node.rendered_dim hfine.1 hfine.2 fun e he =>
      (hchild e (List.mem_map.2 ⟨e, he, rfl⟩)).2
  | goto => exact Node.rendered_goto hfine
  | label => exact Node.rendered_label hfine
  | exit => exact Node.rendered_exit
  | endProgram => exact Node.rendered_endProgram
  | stop =>
    exact Node.rendered_of_keyword rfl (by decide) Form.stop trivial
      fun _ _ h _ => fits_nil.2 (printed_nil.1 h)
  | library _ path =>
    refine Node.rendered_of_keyword rfl (by decide) Form.library trivial fun ts rest h _ => ?_
    obtain ⟨t, us, rfl, ht, htext, h⟩ := printed_cons.1 h
    obtain rfl := printed_nil.1 h
    refine .token ht ?_ .nil
    rw [htext]
    exact unquoteText_quote path
  | compileIf => exact Node.rendered_compileIf hfine.1 hfine.2 hc
  | directive => exact Node.rendered_directive hfine.1 hfine.2

end Statements

theorem Node.Fine.rendered {n : Node} (h : n.Fine) : n.Rendered := by
  induction n using Node.induct with
  | h n ih =>
    have hpieces : ∀ p ∈ n.pieces, p.Rendered := fun p hp => Piece.rendered fun m hm =>
      have hmem : m ∈ n.children := List.mem_flatMap.2 ⟨p, hp, hm⟩
      ih m hmem (h.of_mem hmem)
    cases n with
    | expression e => exact e.rendered h.expression hpieces
    | statement s => exact s.rendered h hpieces

/-- Every program that is fine is read back from its canonical writing, up to where it stands. -/
theorem parseTokens_render {program : List (Statement Extent)} {ts : List Token}
    (hf : ∀ s ∈ program, (Node.statement s).Fine)
    (hts : ts.map (fun t => (t.kind, t.text)) = (renderBody program).map fun l => (l.kind, l.text)) :
    ∃ program', parseTokens ts = .ok program' ∧ shapes program' = shapes program := by
  have hprinted : Printed (renderBody program) ts [] := printed_of_map_eq hts
  have hblock : Spells Plain (.block .never program) ts [] :=
    hprinted.block (fun s hs => (hf s hs).rendered) ⟨.inl rfl, by simp [Unseparated, kindOf]⟩
  refine parseTokens_of_spells hblock fun t ht => ?_
  exact (hprinted.kind_ne_unknown t ht).resolve_left List.not_mem_nil

/-- The word `end` alone on a line of a branch, in front of `else`. -/
theorem parseTokens_render_end :
    let here := Mark.origin.extentTo Mark.origin
    let condition : Expr Extent := .unary here .not
      (.binary here .equal (.identifier here "x") (.integer here 1))
    let program : List (Statement Extent) :=
      [.branch here condition [.endProgram here] [] (some [.assign here "x" .add (.invalid here)])]
    let ts : List Token := (renderBody program).map fun l => ⟨l.kind, l.text, here⟩
    (∀ s ∈ program, (Node.statement s).Fine) ∧
      ∃ program', parseTokens ts = .ok program' ∧ shapes program' = shapes program := by
  intro here condition program ts
  have hname : Name "x" := ⟨⟨'x', [], rfl, by decide, by decide, rfl⟩, by decide⟩
  have hequal : (Node.expression (.binary here .equal (.identifier here "x")
      (.integer here 1))).Fine := by
    refine Node.fine_of_children ⟨by simp [Expr.Grouped, Expr.edge, Expr.Above], trivial⟩ ?_
    refine List.forall_mem_cons.2 ⟨?_, List.forall_mem_singleton.2 ?_⟩
    · exact Node.fine_of_children ⟨trivial, hname⟩ (List.forall_mem_nil _)
    · exact Node.fine_of_children ⟨trivial, by decide⟩ (List.forall_mem_nil _)
  have hcondition : (Node.expression condition).Fine :=
    have hbinds : UnaryOp.not.precedence.rank < BinaryOp.equal.precedence.rank := by decide
    Node.fine_of_children ⟨hbinds, trivial⟩ (List.forall_mem_singleton.2 hequal)
  have hinvalid : (Node.expression (.invalid here)).Fine :=
    Node.fine_of_children ⟨trivial, trivial⟩ (List.forall_mem_nil _)
  have hf : ∀ s ∈ program, (Node.statement s).Fine := by
    refine List.forall_mem_singleton.2 (Node.fine_of_children trivial ?_)
    refine List.forall_mem_cons.2 ⟨hcondition, List.forall_mem_cons.2 ⟨?_,
      List.forall_mem_singleton.2 ?_⟩⟩
    · exact Node.fine_of_children trivial (List.forall_mem_nil _)
    · exact Node.fine_of_children hname (List.forall_mem_singleton.2 hinvalid)
  exact ⟨hf, parseTokens_render hf (by simp [ts])⟩

end BrightCoverage
