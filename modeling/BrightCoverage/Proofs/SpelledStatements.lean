import BrightCoverage.Proofs.SpelledExpressions

/-! Runs of the statement parsers follow the grammar, and so does the run over a whole file: the
tokens of an accepted file spell its program. -/

namespace BrightCoverage

open BrightCoverage.Parser

variable {c c' : Cursor} {t : Token}

section Branches

variable {self : Recursion} (hs : self.Sound) (hg : self.Spelling)
include hs hg

omit hs in
theorem inlineItem_spelled {o : Option (Statement Extent)} (h : inlineItem self c = .ok o c') :
    match o with
    | none => (c.kind? ≠ some (.symbol .colon) ∧ c' = c) ∨
      c.kind? = some (.symbol .colon) ∧ c' = c.next ∧ c'.atInlineEnd = true
    | some s => c.kind? = some (.symbol .colon) ∧ c.next.atInlineEnd = false ∧
      Spelled (.statement s) c.next c' := by
  simp only [inlineItem, accept_bind] at h
  split at h
  · rename_i hk
    simp only [if_true, get_bind] at h
    split at h
    · rename_i hend
      cases h
      exact .inr ⟨hk, rfl, hend⟩
    · rename_i hend
      obtain ⟨s, c₁, hst, h⟩ := bind_eq_ok.1 h
      cases h
      exact ⟨hk, by simpa using hend, hg.statement hst⟩
  · rename_i hk
    simp only [Bool.false_eq_true, if_false] at h
    cases h
    exact .inl ⟨hk, rfl⟩

theorem inlineStatements_spelled {body : List (Statement Extent)}
    (h : inlineStatements self c = .ok body c') : Spelled (.inline body) c c' := by
  obtain ⟨first, c₁, hf, h⟩ := bind_eq_ok.1 h
  obtain ⟨rest, c₂, hm, h⟩ := bind_eq_ok.1 h
  cases h
  refine .mk .inline (.phrase (hg.statement hf) (.phrase ?_ .nil)) trivial
  refine many_ok (inlineItem_progress hs)
    (Q := fun body c c' => Spelled (.inlineMore body) c c') (fun c c' h => ?_)
    (fun c s c₁ h body c' hrest => ?_) hm
  · rcases inlineItem_spelled hg h with ⟨hk, rfl⟩ | ⟨hk, rfl, hend⟩
    · exact .mk .inlineNil (.ahead hk .nil) trivial
    · exact .mk .inlineEnd (.advance hk (.ahead hend .nil)) trivial
  · obtain ⟨hk, hend, hst⟩ := inlineItem_spelled hg h
    exact .mk .inlineCons (.advance hk (.ahead hend (.phrase hst (.phrase hrest .nil)))) trivial

theorem inlineElse_spelled {body : Option (List (Statement Extent))}
    (h : inlineElse self c = .ok body c') : Spelled (.inlineElse body) c c' := by
  simp only [inlineElse, peekKind_bind] at h
  obtain ⟨p, hp, h⟩ := named_run h
  split at hp <;> subst hp
  · rename_i hk
    obtain ⟨s, c₁, hst, h⟩ := bind_eq_ok.1 h
    cases h
    exact .mk .inlineElseIf (.ahead hk (.phrase (hg.inlineElseIf hst hk) .nil)) trivial
  · rename_i hk
    simp only [advance_bind] at h
    obtain ⟨body, c₁, hb, h⟩ := bind_eq_ok.1 h
    cases h
    exact .mk .inlineElse (.advance hk (.phrase (inlineStatements_spelled hs hg hb) .nil)) trivial
  · rename_i hk hk'
    cases h
    exact .mk .noElse (.ahead ⟨hk', hk⟩ .nil) trivial

theorem inlineBranch_fits {condition : Expr Extent} {s : Statement Extent}
    (h : inlineBranch self t condition c = .ok s c') :
    ∃ here thenBody elseBody, s = .branch here condition thenBody [] elseBody ∧
      Fits (Spells Noted) [.phrase (.inline thenBody), .phrase (.inlineElse elseBody)]
        c.rest c'.rest := by
  obtain ⟨thenBody, c₁, hb, h⟩ := bind_eq_ok.1 h
  obtain ⟨elseBody, c₂, he, h⟩ := bind_eq_ok.1 h
  cases h
  exact ⟨_, thenBody, elseBody, rfl, .phrase (inlineStatements_spelled hs hg hb)
    (.phrase (inlineElse_spelled hs hg he) .nil)⟩

theorem inlineElseIf_formed {s : Statement Extent} (hk : c.kind? = some (.keyword .elseIfKw))
    (h : Parser.inlineElseIf self c = .ok s c') : Formed (.chained s) c c' := by
  simp only [Parser.inlineElseIf, peek_bind] at h
  cases ht : c.head? with
  | none =>
    simp only [ht] at h
    exact absurd h expected_ne_ok
  | some t =>
    simp only [ht, advance_bind] at h
    obtain ⟨condition, c₁, hc, h⟩ := bind_eq_ok.1 h
    obtain ⟨_, c₂, he, h⟩ := bind_eq_ok.1 h
    obtain ⟨here, thenBody, elseBody, rfl, fits⟩ := inlineBranch_fits hs hg h
    exact ⟨_, .chained, .advance hk (.phrase (value_spelled hg hc) (.expect he trivial fits))⟩

omit hs hg in
theorem accept_spelled {k : TokenKind} {b : Bool} (h : accept k c = .ok b c') :
    Spelled (.accepted k) c c' := by
  rw [accept_apply] at h
  split at h
  · rename_i hk
    cases h
    exact .mk .accepted (.advance hk .nil) trivial
  · rename_i hk
    cases h
    exact .mk .omitted (.ahead hk .nil) trivial

theorem elseIf_spelled {o : Option (ElseIf Extent)} (h : elseIf self c = .ok o c') :
    match o with
    | none => c' = c ∧ c.atElseIf = false
    | some clause => ∀ clauses c₁, Spelled (.elseIfs clauses) c' c₁ →
      Spelled (.elseIfs (clause :: clauses)) c c₁ := by
  simp only [elseIf, get_bind] at h
  obtain ⟨p, hp, h⟩ := named_run h
  split at hp <;> subst hp
  · rename_i t ht hk
    obtain ⟨keyword, c₁, hkw, h⟩ := bind_eq_ok.1 h
    obtain ⟨condition, c₂, hc, h⟩ := bind_eq_ok.1 h
    obtain ⟨_, c₃, ha, h⟩ := bind_eq_ok.1 h
    obtain ⟨body, c₄, hb, h⟩ := bind_eq_ok.1 h
    cases h
    intro clauses c₅ hrest
    have fits : Fits (Spells Noted) [.value condition, .phrase (.accepted (.keyword .thenKw)),
        .phrase (.block .branch body), .phrase (.elseIfs clauses)] c₁.rest c₅.rest :=
      .phrase (value_spelled hg hc) (.phrase (accept_spelled ha)
        (.phrase (block_spelled hs hg .branch hb) (.phrase hrest .nil)))
    simp only [Cursor.atElseIf, Bool.or_eq_true, Bool.and_eq_true, decide_eq_true_eq] at hk
    simp only [elseIfKeyword, advance_bind] at hkw
    split at hkw
    · rename_i helse
      have hkind : c.kind? = some (.keyword .elseKw) := helse ▸ Cursor.kind?_of_head ht
      cases hkw
      rcases hk with hk | ⟨-, hk⟩
      · cases hkind.symm.trans hk
      · exact .mk .elseIfsTwo (.advance hkind (.advance (c.kindAt?_one ▸ hk) fits)) trivial
    · rename_i helse
      have hkind := Cursor.kind?_of_head ht
      cases hkw
      rcases hk with hk | ⟨hk, -⟩
      · exact .mk .elseIfsOne (.advance hk fits) trivial
      · exact absurd (Option.some.inj (hkind.symm.trans hk)) helse
  · rename_i hne
    cases h
    refine ⟨rfl, ?_⟩
    by_contra hk
    have hk : c.atElseIf = true := by simpa using hk
    cases ht : c.head? with
    | none => simp [Cursor.atElseIf, Cursor.kind?, ← Cursor.head?.eq_def, ht] at hk
    | some t => exact hne t ht hk

theorem elseIfs_spelled {clauses : List (ElseIf Extent)}
    (h : many (elseIf self) c = .ok clauses c') : Spelled (.elseIfs clauses) c c' := by
  refine many_ok (elseIf_progress hs) (Q := fun clauses c c' => Spelled (.elseIfs clauses) c c')
    (fun c c' h => ?_) (fun c clause c₁ h clauses c' hrest => ?_) h
  · obtain ⟨rfl, hk⟩ := elseIf_spelled hs hg h
    exact .mk .elseIfsNil (.ahead hk .nil) trivial
  · exact elseIf_spelled hs hg h clauses c' hrest

theorem blockBranch_fits {condition : Expr Extent} {s : Statement Extent}
    (h : blockBranch self t condition c = .ok s c') :
    ∃ here thenBody elseIfs elseBody, s = .branch here condition thenBody elseIfs elseBody ∧
      Fits (Spells Noted) [.phrase (.block .branch thenBody), .phrase (.elseIfs elseIfs),
        .phrase (.maybe (.keyword .elseKw) (elseBody.map (.block (.block .branch)))),
        .phrase (.close .branch)] c.rest c'.rest := by
  obtain ⟨thenBody, c₁, hb, h⟩ := bind_eq_ok.1 h
  obtain ⟨elseIfs, c₂, hes, h⟩ := bind_eq_ok.1 h
  obtain ⟨elseBody, c₃, he, h⟩ := bind_eq_ok.1 h
  obtain ⟨_, c₄, hc, h⟩ := bind_eq_ok.1 h
  cases h
  exact ⟨_, thenBody, elseIfs, elseBody, rfl, .phrase (block_spelled hs hg .branch hb)
    (.phrase (elseIfs_spelled hs hg hes) (.phrase (after_spelled
      (block_spelled hs hg (.block .branch)) he) (.phrase (close_spelled hc) .nil)))⟩

theorem branch_formed {s : Statement Extent} (hk : c.kind? = some (.keyword .ifKw))
    (h : branch self t c = .ok s c') : Formed (.statement s) c c' := by
  simp only [branch, advance_bind] at h
  obtain ⟨condition, c₁, hc, h⟩ := bind_eq_ok.1 h
  obtain ⟨hasThen, c₂, ha, h⟩ := bind_eq_ok.1 h
  simp only [get_bind] at h
  split at h
  · rename_i hform
    obtain ⟨here, thenBody, elseIfs, elseBody, rfl, fits⟩ := blockBranch_fits hs hg h
    exact ⟨_, .blockBranch, .advance hk (.phrase (value_spelled hg hc) (.phrase (accept_spelled ha)
      (.ahead hform fits)))⟩
  · rename_i hform
    split at h
    · rename_i hthen
      obtain ⟨here, thenBody, elseBody, rfl, fits⟩ := inlineBranch_fits hs hg h
      rw [accept_apply] at ha
      split at ha
      · rename_i hk'
        cases ha
        exact ⟨_, .inlineBranch, .advance hk (.phrase (value_spelled hg hc) (.advance hk'
          (.ahead (eq_false_of_ne_true hform) fits)))⟩
      · cases ha
        cases hthen
    · exact absurd h expected_ne_ok

end Branches

section Loops

variable {self : Recursion} (hs : self.Sound) (hg : self.Spelling)
include hs hg

theorem forLoop_formed {s : Statement Extent} (hk : c.kind? = some (.keyword .forKw))
    (h : forLoop self t c = .ok s c') : Formed (.statement s) c c' := by
  simp only [forLoop, advance_bind, accept_bind] at h
  split at h
  · rename_i heach
    obtain ⟨item, c₁, hv, h⟩ := bind_eq_ok.1 h
    obtain ⟨_, c₂, hin, h⟩ := bind_eq_ok.1 h
    obtain ⟨target, c₃, he, h⟩ := bind_eq_ok.1 h
    obtain ⟨body, c₄, hb, h⟩ := bind_eq_ok.1 h
    obtain ⟨_, c₅, hc, h⟩ := bind_eq_ok.1 h
    cases h
    exact ⟨_, .forEach, .advance hk (.advance heach (.expect hv rfl (.expect hin trivial
      (.phrase (value_spelled hg he) (.phrase (block_spelled hs hg (.block .forLoop) hb)
        (.phrase (close_spelled hc) .nil))))))⟩
  · obtain ⟨counter, c₁, hv, h⟩ := bind_eq_ok.1 h
    obtain ⟨_, c₂, heq, h⟩ := bind_eq_ok.1 h
    obtain ⟨first, c₃, hf, h⟩ := bind_eq_ok.1 h
    obtain ⟨_, c₄, hto, h⟩ := bind_eq_ok.1 h
    obtain ⟨last, c₅, hl, h⟩ := bind_eq_ok.1 h
    obtain ⟨step, c₆, hst, h⟩ := bind_eq_ok.1 h
    obtain ⟨body, c₇, hb, h⟩ := bind_eq_ok.1 h
    obtain ⟨_, c₈, hc, h⟩ := bind_eq_ok.1 h
    cases h
    exact ⟨_, .forLoop, .advance hk (.expect hv rfl (.expect heq trivial
      (.phrase (value_spelled hg hf) (.expect hto trivial (.phrase (value_spelled hg hl)
        (.phrase (after_spelled (value_spelled hg) hst)
          (.phrase (block_spelled hs hg (.block .forLoop) hb)
            (.phrase (close_spelled hc) .nil))))))))⟩

theorem whileLoop_formed {s : Statement Extent} (hk : c.kind? = some (.keyword .whileKw))
    (h : whileLoop self t c = .ok s c') : Formed (.statement s) c c' := by
  simp only [whileLoop, advance_bind] at h
  obtain ⟨condition, c₁, he, h⟩ := bind_eq_ok.1 h
  obtain ⟨body, c₂, hb, h⟩ := bind_eq_ok.1 h
  obtain ⟨_, c₃, hc, h⟩ := bind_eq_ok.1 h
  cases h
  exact ⟨_, .whileLoop, .advance hk (.phrase (value_spelled hg he)
    (.phrase (block_spelled hs hg (.block .whileLoop) hb) (.phrase (close_spelled hc) .nil)))⟩

end Loops

section Directives

variable {self : Recursion} (hs : self.Sound) (hg : self.Spelling)
include hs hg

omit hs hg in
theorem ofToken?_eq_some {d : Directive} :
    c.head?.bind Directive.ofToken? = some d ↔
      ∃ t, c.head? = some t ∧ t.kind = .directive ∧ d = .ofLine t.text.toList := by
  simp only [Option.bind_eq_some_iff, Directive.ofToken?]
  refine exists_congr fun t => and_congr_right fun _ => ?_
  split <;> simp_all [eq_comm]

omit hs hg in
theorem next?_eq_some {kind : DirectiveKind} (h : Directive.next? c = some kind) :
    ∃ t, c.head? = some t ∧ t.kind = .directive ∧
      (Directive.ofLine t.text.toList).kind = some kind := by
  obtain ⟨d, hd, hkind⟩ := Option.bind_eq_some_iff.1 h
  obtain ⟨t, ht, hk, rfl⟩ := ofToken?_eq_some.1 hd
  exact ⟨t, ht, hk, hkind⟩

theorem compileElseIf_spelled {o : Option (CompileElseIf Extent)}
    (h : compileElseIf self c = .ok o c') :
    match o with
    | none => c' = c ∧ Directive.next? c ≠ some .elseIfDir
    | some clause => ∀ clauses c₁, Spelled (.compileElseIfs clauses) c' c₁ →
      Spelled (.compileElseIfs (clause :: clauses)) c c₁ := by
  simp only [compileElseIf, peek_bind] at h
  obtain ⟨p, hp, h⟩ := named_run h
  split at hp <;> subst hp
  · rename_i hd
    simp only [advance_bind] at h
    obtain ⟨body, c₁, hb, h⟩ := bind_eq_ok.1 h
    cases h
    intro clauses c₂ hrest
    obtain ⟨t, ht, hk, hline⟩ := ofToken?_eq_some.1 hd
    exact .mk .compileElseIfsCons (.directive ht hk (by simp [← hline])
      (.phrase (block_spelled hs hg .directive hb) (.phrase hrest .nil))) trivial
  · rename_i hne
    cases h
    refine ⟨rfl, fun hnext => ?_⟩
    obtain ⟨⟨kind, name, args⟩, hd, hkind⟩ := Option.bind_eq_some_iff.1 hnext
    cases hkind
    exact hne _ _ hd

theorem compileElseIfs_spelled {clauses : List (CompileElseIf Extent)}
    (h : many (compileElseIf self) c = .ok clauses c') : Spelled (.compileElseIfs clauses) c c' := by
  refine many_ok (compileElseIf_progress hs)
    (Q := fun clauses c c' => Spelled (.compileElseIfs clauses) c c')
    (fun c c' h => ?_) (fun c clause c₁ h clauses c' hrest => ?_) h
  · obtain ⟨rfl, hk⟩ := compileElseIf_spelled hs hg h
    exact .mk .compileElseIfsNil (.ahead hk .nil) trivial
  · exact compileElseIf_spelled hs hg h clauses c' hrest

theorem compileElse_spelled {body : Option (List (Statement Extent))}
    (h : compileElse self c = .ok body c') : Spelled (.compileElse body) c c' := by
  simp only [compileElse, get_bind] at h
  split at h
  · rename_i hnext
    simp only [advance_bind] at h
    obtain ⟨body, c₁, hb, h⟩ := bind_eq_ok.1 h
    cases h
    obtain ⟨t, ht, hk, hkind⟩ := next?_eq_some hnext
    exact .mk .compileElse (.directive ht hk hkind
      (.phrase (block_spelled hs hg .directive hb) .nil)) trivial
  · rename_i hnext
    cases h
    exact .mk .compileElseNone (.ahead hnext .nil) trivial

theorem directive_formed {s : Statement Extent} (ht : c.head? = some t) (hk : t.kind = .directive)
    (h : directive self t c = .ok s c') : Formed (.statement s) c c' := by
  simp only [directive, advance_bind] at h
  obtain ⟨p, hp, h⟩ := named_run h
  split at hp <;> subst hp
  case h_1 hkind =>
    obtain ⟨thenBody, c₁, hb, h⟩ := bind_eq_ok.1 h
    obtain ⟨elseIfs, c₂, hes, h⟩ := bind_eq_ok.1 h
    obtain ⟨elseBody, c₃, he, h⟩ := bind_eq_ok.1 h
    simp only [get_bind] at h
    obtain ⟨p, hp, h⟩ := named_run h
    split at hp <;> subst hp
    · rename_i hend
      cases h
      obtain ⟨t', ht', hk', hkind'⟩ := next?_eq_some hend
      exact ⟨_, .compileIf, .directive ht hk ⟨hkind, rfl⟩
        (.phrase (block_spelled hs hg .directive hb) (.phrase (compileElseIfs_spelled hs hg hes)
          (.phrase (compileElse_spelled hs hg he) (.directive ht' hk' hkind' .nil))))⟩
    · exact absurd h expected_ne_ok
    · cases h
  case h_2 hkind =>
    cases h
    exact ⟨_, .directive, .directive ht hk ⟨.inl hkind, rfl, rfl⟩ .nil⟩
  case h_3 hkind =>
    cases h
    exact ⟨_, .directive, .directive ht hk ⟨.inr hkind, rfl, rfl⟩ .nil⟩
  all_goals cases h

end Directives

section Printing

variable {self : Recursion} (hs : self.Sound) (hg : self.Spelling)
include hs hg

/-- The printed values when a separator and further values follow those read so far, of which the
last comes first. -/
def printedWith (items : List (PrintItem Extent)) (separator : Option PrintSeparator)
    (more : List (PrintItem Extent)) : List (PrintItem Extent) :=
  match items with
  | [] => more
  | .mk value last :: items => items.reverse ++ .mk value (separator.or last) :: more

def PrintedSoFar (c : Cursor) (items : List (PrintItem Extent)) (c₁ : Cursor) : Prop :=
  ∀ separator more us vs, Spells Noted (.separators separator) c₁.rest us →
    Spells Noted (.printed more) us vs → ∃ lead us', Spells Noted (.separators lead) c.rest us' ∧
      Spells Noted (.printed (printedWith items separator more)) us' vs

omit hs hg in
theorem printedWith_separateLast (items more : List (PrintItem Extent)) (last : PrintSeparator)
    (separator : Option PrintSeparator) :
    printedWith (separateLast last items) separator more
      = printedWith items (separator.or (some last)) more := by
  obtain _ | ⟨⟨value, old⟩, items⟩ := items <;> cases separator <;> rfl

omit hs hg in
theorem printedWith_cons (items more : List (PrintItem Extent)) (value : Expr Extent)
    (separator : Option PrintSeparator) :
    printedWith (.mk value none :: items) separator more
      = printedWith items none (.mk value separator :: more) := by
  obtain _ | ⟨⟨first, old⟩, items⟩ := items <;> simp [printedWith]

omit hs hg in
theorem printedWith_nil (items : List (PrintItem Extent)) :
    printedWith items none [] = items.reverse := by
  obtain _ | ⟨⟨value, old⟩, items⟩ := items <;> simp [printedWith]

omit hs in
theorem printStep_spelled {items items' : List (PrintItem Extent)} {c₁ : Cursor}
    (hso : PrintedSoFar c items c₁) (h : printStep self items c₁ = .ok (some items') c') :
    PrintedSoFar c items' c' := by
  simp only [printStep, atStatementEnd_bind] at h
  split at h
  · cases h
  · rename_i hend
    simp only [peekKind_bind] at h
    obtain ⟨p, hp, h⟩ := named_run h
    split at hp <;> subst hp
    · rename_i last hsep
      obtain ⟨kind, hk, hkind⟩ := Option.bind_eq_some_iff.1 hsep
      cases h
      intro separator more us vs hs' hm
      rw [printedWith_separateLast]
      refine hso _ more us vs ?_ hm
      cases separator with
      | none => exact .mk (.lastSeparator hkind) (.advance hk (.phrase hs' .nil)) trivial
      | some other => exact .mk (.separator hkind) (.advance hk (.phrase hs' .nil)) trivial
    · rename_i hsep
      obtain ⟨value, c₂, hv, h⟩ := bind_eq_ok.1 h
      cases h
      intro separator more us vs hs' hm
      rw [printedWith_cons]
      exact hso none _ c₁.rest vs (.mk .noSeparator (.ahead hsep .nil) trivial)
        (.mk .printedCons (.ahead (eq_false_of_ne_true hend)
          (.phrase (value_spelled hg hv) (.phrase hs' (.phrase hm .nil)))) trivial)

omit hs hg in
theorem printStep_none {self : Recursion} {items : List (PrintItem Extent)}
    (h : printStep self items c = .ok none c') : c' = c ∧ c.atStatementEnd = true := by
  simp only [printStep, atStatementEnd_bind] at h
  split at h
  · rename_i hend
    cases h
    exact ⟨rfl, hend⟩
  · simp only [peekKind_bind] at h
    obtain ⟨p, hp, h⟩ := named_run h
    split at hp <;> subst hp
    · cases h
    · obtain ⟨value, c₂, -, h⟩ := bind_eq_ok.1 h
      cases h

omit hs hg in
theorem noSeparator_spelled (h : c.atStatementEnd = true) : Spelled (.separators none) c c := by
  refine .mk .noSeparator (.ahead ?_ .nil) trivial
  change c.kind?.bind PrintSeparator.ofKind? = none
  simp only [Cursor.atStatementEnd] at h
  generalize c.kind? = kind at h ⊢
  split at h <;> first | rfl | cases h

theorem print_formed {s : Statement Extent} {k : TokenKind}
    (hmem : k ∈ [TokenKind.keyword .printKw, .symbol .question]) (hk : c.kind? = some k)
    (h : print self t c = .ok s c') : Formed (.statement s) c c' := by
  simp only [print, advance_bind] at h
  obtain ⟨items, c₁, hrep, h⟩ := bind_eq_ok.1 h
  cases h
  obtain ⟨lead, us, hlead, hitems⟩ : ∃ lead us, Spells Noted (.separators lead) c.next.rest us ∧
      Spells Noted (.printed items.reverse) us c'.rest := by
    refine repeatFrom_ok (printStep_progress hs) (I := PrintedSoFar c.next)
      (Q := fun items c₁ => ∃ lead us, Spells Noted (.separators lead) c.next.rest us ∧
        Spells Noted (.printed items.reverse) us c₁.rest)
      (fun items c₁ c₂ hso h => ?_) (fun items c₁ items' c₂ hso h => printStep_spelled hg hso h)
      (b := []) (fun separator more us vs hs' hm => ⟨separator, us, hs', hm⟩) hrep
    obtain ⟨rfl, hend⟩ := printStep_none h
    rw [← printedWith_nil]
    exact hso none [] _ _ (noSeparator_spelled hend) (.mk .printedNil (.ahead hend .nil) trivial)
  exact ⟨_, .print hmem, .advance hk (.phrase hlead (.phrase hitems .nil))⟩

end Printing

section Simple

variable {self : Recursion} (hs : self.Sound) (hg : self.Spelling)
include hs hg

omit hs hg in
theorem assignTo_formed {s : Statement Extent} {target value : Expr Extent} {op : AssignOp}
    {here : Extent} {k : TokenKind} {c₁ : Cursor} (hid : c.kind? = some .identifier)
    (hop : AssignOp.ofKind? k = some op) (htarget : Spelled (.expression target) c c₁)
    (hk : c₁.kind? = some k) (hvalue : Spelled (.value value) c₁.next c')
    (h : assignTo here target op value c' = .ok s c') : Formed (.statement s) c c' := by
  cases target
  case identifier =>
    cases h
    exact ⟨_, .assign hop, .phrase htarget (.advance hk (.phrase hvalue .nil))⟩
  case member =>
    cases h
    exact ⟨_, .assignMember hop, .ahead hid (.phrase htarget (.advance hk (.phrase hvalue .nil)))⟩
  case index =>
    cases h
    exact ⟨_, .assignIndex hop, .ahead hid (.phrase htarget (.advance hk (.phrase hvalue .nil)))⟩
  all_goals cases h

omit hs hg in
theorem assignTo_cursor {s : Statement Extent} {target value : Expr Extent} {op : AssignOp}
    {here : Extent} (h : assignTo here target op value c = .ok s c') : c' = c := by
  cases target <;> cases h <;> rfl

theorem operandStatement_formed {s : Statement Extent} (hid : c.kind? = some .identifier)
    (h : operandStatement self c = .ok s c') : Formed (.statement s) c c' := by
  obtain ⟨target, c₁, ho, h⟩ := bind_eq_ok.1 h
  obtain ⟨hop, htarget, hu⟩ := operand_spelled hs hg ho
  simp only [peekKind_bind] at h
  obtain ⟨p, hp, h⟩ := named_run h
  split at hp
  · rename_i op hassign
    obtain ⟨kind, hk, hkind⟩ := Option.bind_eq_some_iff.1 hassign
    subst hp
    simp only [advance_bind] at h
    obtain ⟨value, c₂, hv, h⟩ := bind_eq_ok.1 h
    simp only [extentFrom_bind] at h
    obtain rfl := assignTo_cursor h
    exact assignTo_formed hid hkind htarget hk (value_spelled hg hv) h
  · rename_i hassign
    split at hp <;> subst hp
    · rename_i hk
      simp only [Bool.or_eq_true, decide_eq_true_eq] at hk
      cases h
      rcases hk with hk | hk
      · rw [hk]
        exact ⟨_, .increment hop, .ahead hid (.phrase htarget (.advance hk .nil))⟩
      · rw [hk]
        exact ⟨_, .decrement hop, .ahead hid (.phrase htarget (.advance hk .nil))⟩
    · rename_i hk
      simp only [callStatement, peek_bind] at h
      obtain ⟨p, hp, h⟩ := named_run h
      split at hp <;> subst hp
      · cases h
        simp only [Bool.or_eq_true, decide_eq_true_eq, not_or] at hk
        exact ⟨_, .callStatement, .ahead hid (.phrase htarget (.ahead hu
          (.ahead ⟨hassign, hk⟩ .nil)))⟩
      · cases h
      · cases h

omit hs in
theorem giveBack_formed {s : Statement Extent} (hk : c.kind? = some (.keyword .returnKw))
    (h : giveBack self t c = .ok s c') : Formed (.statement s) c c' := by
  simp only [giveBack, advance_bind, atStatementEnd_bind] at h
  split at h
  · rename_i hend
    cases h
    exact ⟨_, .giveNothing, .advance hk (.ahead hend .nil)⟩
  · rename_i hend
    obtain ⟨value, c₁, hv, h⟩ := bind_eq_ok.1 h
    cases h
    exact ⟨_, .giveBack, .advance hk (.ahead (eq_false_of_ne_true hend)
      (.phrase (value_spelled hg hv) .nil))⟩

omit hs hg in
theorem exit_formed {s : Statement Extent} (ht : c.head? = some t)
    (hk : t.kind = .keyword .exitKw ∨ t.kind = .keyword .exitWhileKw)
    (h : exit t c = .ok s c') : Formed (.statement s) c c' := by
  simp only [exit, advance_bind] at h
  split at h
  · rename_i hk'
    cases h
    exact ⟨_, .exitWhile, .head ht hk' trivial .nil⟩
  · rename_i hk'
    have hexit := hk.resolve_right hk'
    simp only [exitedLoop, bind_assoc, accept_bind] at h
    split at h
    · rename_i hfor
      cases h
      exact ⟨_, .exitCounted, .head ht hexit trivial (.advance hfor .nil)⟩
    · simp only [Bool.false_eq_true, if_false, bind_assoc, accept_bind] at h
      split at h
      · rename_i hwhile
        cases h
        exact ⟨_, .exitConditional, .head ht hexit trivial (.advance hwhile .nil)⟩
      · obtain ⟨a, c₁, h, -⟩ := bind_eq_ok.1 h
        exact absurd h expected_ne_ok

theorem dim_formed {s : Statement Extent} (hk : c.kind? = some (.keyword .dimKw))
    (h : dim self t c = .ok s c') : Formed (.statement s) c c' := by
  have hp : StepProgress (Parser.after (.symbol .comma) (self.expression .lowest)) :=
    after_progress _ fun h => (expression_row hs h).imp fun j hj => ⟨hj.1, hj.2.1⟩
  simp only [dim, advance_bind] at h
  obtain ⟨name, c₁, hn, h⟩ := bind_eq_ok.1 h
  obtain ⟨_, c₂, ho, h⟩ := bind_eq_ok.1 h
  obtain ⟨size, c₃, he, h⟩ := bind_eq_ok.1 h
  obtain ⟨sizes, c₄, hm, h⟩ := bind_eq_ok.1 h
  obtain ⟨_, c₅, hc, h⟩ := bind_eq_ok.1 h
  cases h
  exact ⟨_, .dim, .advance hk (.expect hn rfl (.expect ho trivial (.phrase (value_spelled hg he)
    (.phrase (commaItems_spelled hp (value_spelled hg) hm) (.expect hc trivial .nil)))))⟩

theorem namedProcedure_formed {s : Statement Extent} {keyword : ProcedureKind}
    (hk : c.kind? = some (.keyword keyword.word))
    (h : namedProcedure self keyword t c = .ok s c') : Formed (.statement s) c c' := by
  simp only [namedProcedure, advance_bind] at h
  obtain ⟨name, c₁, hn, h⟩ := bind_eq_ok.1 h
  obtain ⟨decl, c₂, hd, h⟩ := bind_eq_ok.1 h
  cases h
  obtain ⟨rfl, hdecl⟩ := procedure_spelled hs hg hd
  exact ⟨_, .namedProcedure, .advance hk (.expect hn rfl (.phrase hdecl .nil))⟩

omit hs hg in
theorem endProgram_formed {s : Statement Extent} (hk : c.kind? = some (.keyword .endKw))
    (h : endProgram t c = .ok s c') : Formed (.statement s) c c' := by
  simp only [endProgram, advance_bind, extentFrom_bind, peek_bind] at h
  obtain ⟨p, hp, h⟩ := named_run h
  split at hp
  · rename_i next hnext
    split at hp <;> subst hp
    · cases h
    · rename_i hword
      cases h
      refine ⟨_, .endProgram, .advance hk (.ahead ?_ .nil)⟩
      have hkind : kindOf c.next.rest = some next.kind := Cursor.kind?_of_head hnext
      simpa [hkind] using hword
  · rename_i hnext
    subst hp
    cases h
    refine ⟨_, .endProgram, .advance hk (.ahead ?_ .nil)⟩
    have hkind : kindOf c.next.rest = none := by
      cases hc : kindOf c.next.rest with
      | none => rfl
      | some k =>
        obtain ⟨t', ht', -⟩ := Cursor.exists_head (c := c.next) hc
        exact absurd ht' (hnext t')
    simp [hkind]

omit hs hg in
theorem label_formed {s : Statement Extent} (ht : c.head? = some t) (hk : t.kind = .identifier)
    (hl : atLabel c = true) (h : label t c = .ok s c') : Formed (.statement s) c c' := by
  simp only [atLabel, Bool.and_eq_true, Bool.or_eq_true, decide_eq_true_eq] at hl
  rw [c.kindAt?_one, c.kindAt?_two] at hl
  cases h
  exact ⟨_, .label, .head ht hk rfl (.advance hl.1 (.ahead hl.2 .nil))⟩

theorem statement_formed {s : Statement Extent} (h : Parser.statement self c = .ok s c') :
    Formed (.statement s) c c' := by
  simp only [Parser.statement, peek_bind] at h
  cases ht : c.head? with
  | none => simp [ht] at h
  | some t =>
    simp only [ht] at h
    have hkind : ∀ {k}, t.kind = k → c.kind? = some k := fun hk => hk ▸ Cursor.kind?_of_head ht
    obtain ⟨p, hp, h⟩ := named_run h
    split at hp <;> subst hp
    case h_1 hk => exact print_formed hs hg (by simp) (hkind hk) h
    case h_2 hk => exact print_formed hs hg (by simp) (hkind hk) h
    case h_3 hk => exact branch_formed hs hg (hkind hk) h
    case h_4 hk => exact forLoop_formed hs hg (hkind hk) h
    case h_5 hk => exact whileLoop_formed hs hg (hkind hk) h
    case h_6 hk =>
      simp only [goto, advance_bind] at h
      obtain ⟨name, c₁, hn, h⟩ := bind_eq_ok.1 h
      cases h
      exact ⟨_, .goto, .advance (hkind hk) (.expect hn rfl .nil)⟩
    case h_7 hk => exact giveBack_formed hg (hkind hk) h
    case h_8 hk => exact exit_formed ht (.inl hk) h
    case h_9 hk => exact exit_formed ht (.inr hk) h
    case h_10 hk => exact endProgram_formed (hkind hk) h
    case h_11 hk =>
      cases h
      exact ⟨_, .stop, .advance (hkind hk) .nil⟩
    case h_12 hk =>
      refine namedProcedure_formed hs hg ?_ h
      exact hkind hk
    case h_13 hk =>
      refine namedProcedure_formed hs hg ?_ h
      exact hkind hk
    case h_14 hk => exact dim_formed hs hg (hkind hk) h
    case h_15 hk =>
      simp only [library, advance_bind] at h
      obtain ⟨path, c₁, hn, h⟩ := bind_eq_ok.1 h
      cases h
      exact ⟨_, .library, .advance (hkind hk) (.expect hn rfl .nil)⟩
    case h_16 hk => exact directive_formed hs hg ht hk h
    case h_17 hk =>
      simp only [get_bind] at h
      split at h
      · rename_i hl
        exact label_formed ht hk hl h
      · exact operandStatement_formed hs hg (hkind hk) h
    case h_18 => cases h
    case h_19 => cases h

end Simple

section Programs

theorem statement_spelled {self : Recursion} (hs : self.Sound) (hg : self.Spelling)
    {s : Statement Extent} (h : Parser.statement self c = .ok s c') :
    Spelled (.statement s) c c' := by
  obtain ⟨ps, form, fits⟩ := statement_formed hs hg h
  rw [c.eq_after] at h
  obtain ⟨j, rfl, laid⟩ := statement_run hs h
  exact .mk form fits ⟨j, rfl, laid⟩

theorem inlineElseIf_spelled {self : Recursion} (hs : self.Sound) (hg : self.Spelling)
    {s : Statement Extent} (h : Parser.inlineElseIf self c = .ok s c')
    (hk : c.kind? = some (.keyword .elseIfKw)) : Spelled (.chained s) c c' := by
  obtain ⟨ps, form, fits⟩ := inlineElseIf_formed hs hg hk h
  rw [c.eq_after] at h
  obtain ⟨j, rfl, laid⟩ := inlineElseIf_run hs h (by rwa [c.eq_after, Cursor.after_kind?] at hk)
  exact .mk form fits ⟨j, rfl, laid⟩

theorem spelling_ofDepth (depth : Nat) : (Recursion.ofDepth depth).Spelling := by
  induction depth with
  | zero =>
    exact ⟨fun h => absurd h expected_ne_ok, fun h => absurd h expected_ne_ok,
      fun h => absurd h expected_ne_ok⟩
  | succ depth ih =>
    have hs := sound_ofDepth depth
    exact ⟨expression_spelled hs ih, statement_spelled hs ih, inlineElseIf_spelled hs ih⟩

theorem readStatements_spelled {self : Recursion} (hs : self.Sound) (hg : self.Spelling)
    {rounds : Nat} (hr : c.rest.length < rounds) (h : (readStatements self rounds c).errors = []) :
    Spells Noted (.block .never (readStatements self rounds c).statements) c.rest [] := by
  induction rounds generalizing c with
  | zero => omega
  | succ rounds ih =>
    have hle : c.skipSeparators.rest.length ≤ c.rest.length := by
      rw [Cursor.skipSeparators, skip_rest]
      exact (List.dropWhile_suffix _).length_le
    simp only [readStatements] at h ⊢
    by_cases hend : c.skipSeparators.rest.isEmpty
    · rw [if_pos hend] at h ⊢
      have hnil : c.skipSeparators.rest = [] := by simpa using hend
      refine .mk .blockNil (.skipped ?_) trivial
      exact .ahead (.inl hnil) (hnil ▸ .nil)
    · rw [if_neg hend] at h ⊢
      rcases hw : wholeStatement self c.skipSeparators with ⟨s, c₁⟩ | ⟨e, c₁⟩
      · simp only [hw, Reading.addStatement] at h ⊢
        obtain ⟨s, c₂, hst, hw⟩ := bind_eq_ok.1 hw
        simp only [atStatementEnd_bind] at hw
        split at hw
        · rename_i hse
          cases hw
          have hlt : c₁.rest.length < c.skipSeparators.rest.length := by
            rw [c.skipSeparators.eq_after] at hst
            obtain ⟨j, rfl, laid⟩ := hs.statement hst
            exact rest_length_lt laid.lt laid.le_length
          refine .mk .blockCons (.skipped (.ahead ⟨by simpa [Cursor.skipSeparators] using hend, rfl⟩
            (.phrase (hg.statement hst) (.ahead hse (.phrase (ih (by omega) h) .nil))))) trivial
        · exact absurd hw expected_ne_ok
      · simp [hw, Reading.addError] at h

theorem parseTokens_spelled {ts : List Token} {program : List (Statement Extent)}
    (h : parseTokens ts = .ok program) : Spells Noted (.block .never program) ts [] := by
  simp only [parseTokens] at h
  split at h
  · rename_i hnil
    cases h
    obtain ⟨-, herr⟩ := List.append_eq_nil_iff.1 hnil
    exact readStatements_spelled (sound_ofDepth _) (spelling_ofDepth _) (c := .ofTokens ts)
      (Nat.lt_succ_self _) herr
  · cases h

end Programs

end BrightCoverage
