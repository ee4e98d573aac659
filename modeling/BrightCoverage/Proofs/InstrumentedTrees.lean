import BrightCoverage.Proofs.InstrumentedText

/-! The tree of an instrumented text. What the owners of the lines put around the tokens of a text is
what the seams of its tree say, so the instrumented text spells what the pass makes of the tree. -/

namespace BrightCoverage

variable {r : Reporter} {source : Text} {program : List (Statement Extent)} {ws : List Stitch}
  {w w' : Stitch} {t u : Token} {us vs : List Token} {offset n : Nat} {lexemes : List Lexeme}
  {s : Statement Extent}

/-! ### Seams -/

theorem start_mem_seams : .start offset s ∈ seams ws ↔
    ∃ w ∈ ws, w.token.span.start = offset ∧ w.statement = some s := by
  simp only [seams, Stitch.seams, Seam.lead, Seam.trail, List.mem_flatMap, List.mem_append]
  refine exists_congr fun w => and_congr_right fun _ => ?_
  split <;> split <;> simp [and_comm]

theorem before_mem_seams : .before offset lexemes ∈ seams ws ↔
    ∃ w ∈ ws, w.token.span.start = offset ∧ w.before = lexemes ∧ lexemes ≠ [] := by
  simp only [seams, Stitch.seams, Seam.lead, Seam.trail, List.mem_flatMap, List.mem_append]
  refine exists_congr fun w => and_congr_right fun _ => ?_
  split <;> split <;> simp_all <;> grind

theorem after_mem_seams : .after offset lexemes ∈ seams ws ↔
    ∃ w ∈ ws, w.token.span.stop = offset ∧ w.after = lexemes ∧ lexemes ≠ [] := by
  simp only [seams, Stitch.seams, Seam.lead, Seam.trail, List.mem_flatMap, List.mem_append]
  refine exists_congr fun w => and_congr_right fun _ => ?_
  split <;> split <;> simp_all <;> grind

theorem mem_visitSeams {plan : Plan} {visits : List Visit} {seam : Seam} :
    seam ∈ visitSeams r plan visits ↔ ∃ line s, .claim line (.statement s) ∈ visits ∧
      seam ∈ claimSeams r plan s ++ conditionSeams r plan s := by
  rw [visitSeams, List.mem_flatMap]
  constructor
  · rintro ⟨v, hv, hseam⟩
    rcases v with ⟨line, s | clause⟩ | _
    · exact ⟨line, s, hv, hseam⟩
    all_goals cases hseam
  · rintro ⟨line, s, hc, hseam⟩
    exact ⟨_, hc, hseam⟩

theorem line_of_claim (hc : .claim n (.statement s) ∈ visitAll program) : n = s.here.startLine := by
  obtain ⟨s₀, -, hc⟩ := mem_visitAll.1 hc
  exact (Statement.below_of_claim hc).2.1

namespace Ownership

variable {owners : Ownership}

theorem owns_of_get? (h : owners.get? s.here.startLine = some (.statement s)) :
    owners.owns s = true := by
  simp [owns, h]

theorem plan_code : owners.plan.code s = some n ↔
    owners.owns s = true ∧ s.isCode = true ∧ s.here.startLine = n := by
  simp [plan, and_assoc]

theorem plan_condition : owners.plan.condition s = some n ↔
    ∃ here condition thenBody elseIfs elseBody,
      s = .branch here condition thenBody elseIfs elseBody ∧ owners.owns s = true ∧
        condition.here.location.isSingleLine = true ∧ s.here.startLine = n := by
  cases s <;> simp [plan, and_assoc]

end Ownership

section Seams

variable {plan : Plan}

theorem before_mem_claimSeams : .before offset lexemes ∈ claimSeams r plan s ↔
    offset = s.here.span.start ∧ ∃ line, plan.code s = some line ∧ lexemes = r.lead (some line) := by
  cases hcode : plan.code s <;> simp [claimSeams, Seam.lead, hcode, Reporter.lead, Reporter.report]

theorem after_notMem_claimSeams : .after offset lexemes ∉ claimSeams r plan s := by
  simp only [claimSeams, Seam.lead, List.mem_cons]
  split <;> simp

theorem before_mem_conditionSeams : .before offset lexemes ∈ conditionSeams r plan s ↔
    ∃ here condition thenBody elseIfs elseBody line,
      s = .branch here condition thenBody elseIfs elseBody ∧ plan.condition s = some line ∧
        offset = condition.here.span.start ∧ lexemes = r.opening (some line) := by
  cases s with
  | branch here condition thenBody elseIfs elseBody =>
    cases hcondition : plan.condition (.branch here condition thenBody elseIfs elseBody) <;>
      simp [conditionSeams, Seam.lead, Seam.trail, hcondition, Reporter.opening, Reporter.closing,
        Reporter.report]
  | _ => simp [conditionSeams]

theorem after_mem_conditionSeams : .after offset lexemes ∈ conditionSeams r plan s ↔
    ∃ here condition thenBody elseIfs elseBody line,
      s = .branch here condition thenBody elseIfs elseBody ∧ plan.condition s = some line ∧
        offset = condition.here.span.stop ∧ lexemes = Reporter.closing (some line) := by
  cases s with
  | branch here condition thenBody elseIfs elseBody =>
    cases hcondition : plan.condition (.branch here condition thenBody elseIfs elseBody) <;>
      simp [conditionSeams, Seam.lead, Seam.trail, hcondition, Reporter.opening, Reporter.closing,
        Reporter.report]
  | _ => simp [conditionSeams]

end Seams

/-- Stitches for the tokens of a text, with the seams of its tree. -/
structure Stitched (r : Reporter) (source : Text) (program : List (Statement Extent))
    (owners : Ownership) (ws : List Stitch) : Prop where
  parsed : parse source = .ok program
  owned : owners.OwnersOf program
  tokens : lex source = ws.map Stitch.token
  sewn : seams ws = visitSeams r owners.plan (visitAll program)

namespace Stitched

variable {owners : Ownership} (h : Stitched r source program owners ws)
include h

theorem token_mem (hw : w ∈ ws) : w.token ∈ lex source := by
  rw [h.tokens]
  exact List.mem_map_of_mem hw

theorem eq_of_start (hw : w ∈ ws) (hw' : w' ∈ ws)
    (heq : w.token.span.start = w'.token.span.start) : w = w' := by
  have hpairwise := (lex_ordered source).pairwise
  rw [h.tokens, List.pairwise_map] at hpairwise
  have hnodup : (ws.map fun w => w.token.span.start).Nodup :=
    List.pairwise_map.2 (hpairwise.imp fun hlt => Nat.ne_of_lt hlt)
  exact List.inj_on_of_nodup_map hnodup hw hw' heq

theorem eq_of_stop (hw : w ∈ ws) (hw' : w' ∈ ws)
    (heq : w.token.span.stop = w'.token.span.stop) : w = w' := by
  refine h.eq_of_start hw hw' ?_
  rw [(lex_ordered source).eq_of_stop (h.token_mem hw) (h.token_mem hw') heq]

theorem claim_unique {line line' : Nat} {s' : Statement Extent}
    (hc : .claim line (.statement s) ∈ visitAll program)
    (hc' : .claim line' (.statement s') ∈ visitAll program)
    (heq : s.here.span.start = s'.here.span.start) : s = s' := by
  have hstart : ∀ {line s}, .claim line (.statement s) ∈ visitAll program →
      ∃ w ∈ ws, w.token.span.start = s.here.span.start ∧ w.statement = some s := fun hc => by
    rw [← start_mem_seams, h.sewn, mem_visitSeams]
    exact ⟨_, _, hc, by simp [claimSeams]⟩
  obtain ⟨w, hw, hat, hs⟩ := hstart hc
  obtain ⟨w', hw', hat', hs'⟩ := hstart hc'
  obtain rfl := h.eq_of_start hw hw' (by rw [hat, hat', heq])
  exact Option.some.inj (hs.symm.trans hs')

theorem owner_of_owns (hc : .claim n (.statement s) ∈ visitAll program)
    (howns : owners.owns s = true) :
    owners.get? s.here.startLine = some (.statement s) := by
  unfold Ownership.owns at howns
  split at howns
  · next owner howner =>
    rw [howner, h.claim_unique (claim_of_classify (h.owned _ _ howner)) hc
      (congrArg (·.span.start) (of_decide_eq_true howns))]
  · cases howns

theorem startLine_of_start (hc : .claim n (.statement s) ∈ visitAll program) (ht : t ∈ lex source)
    (heq : t.span.start = s.here.span.start) : t.extent.startLine = s.here.startLine := by
  obtain ⟨t', ht', -, hstart, hline⟩ := claim_token h.parsed hc
  rw [(lex_ordered source).eq_of_start ht ht' (heq.trans hstart.symm), hline, line_of_claim hc]

section Condition

variable {here : Extent} {condition : Expr Extent} {thenBody : List (Statement Extent)}
  {elseIfs : List (ElseIf Extent)} {elseBody : Option (List (Statement Extent))}
  (howner : owners.get? n
    = some (.statement (.branch here condition thenBody elseIfs elseBody)))
include howner

theorem startLine_of_condition (ht : t ∈ lex source)
    (heq : t.span.start = condition.here.span.start) : t.extent.startLine = n := by
  obtain ⟨_, _, _, _, first, last, g, hline⟩ := owner_guard h.parsed (h.owned _ _ howner)
  rw [g.covers] at heq
  rw [(lex_ordered source).eq_of_start ht (g.mem_of_tokens (List.mem_of_head? g.head)) heq,
    g.first_line, hline]

theorem startLine_of_condition_stop (ht : t ∈ lex source)
    (hsingle : condition.here.location.isSingleLine = true)
    (heq : t.span.stop = condition.here.span.stop) : t.extent.startLine = n := by
  obtain ⟨_, _, _, _, first, last, g, hline⟩ := owner_guard h.parsed (h.owned _ _ howner)
  have hlast := g.last_line hsingle
  rw [g.covers] at heq
  rw [(lex_ordered source).eq_of_stop ht g.last_mem heq, hlast, hline]

end Condition

theorem before_iff (ht : t ∈ lex source) (hne : lexemes ≠ []) :
    Seam.before t.span.start lexemes ∈ seams ws ↔
      owners.leading r t = lexemes := by
  rw [h.sewn, mem_visitSeams]
  constructor
  · rintro ⟨line, s, hc, hseam⟩
    rcases List.mem_append.1 hseam with hseam | hseam
    · obtain ⟨heq, _, hline, rfl⟩ := before_mem_claimSeams.1 hseam
      obtain ⟨howns, hs, rfl⟩ := Ownership.plan_code.1 hline
      have hat := h.startLine_of_start hc ht heq
      rw [(Ownership.leading_code (hat ▸ h.owner_of_owns hc howns) hs).1, if_pos heq, hat]
    · obtain ⟨here, condition, _, _, _, _, rfl, hline, heq, rfl⟩ := before_mem_conditionSeams.1 hseam
      obtain ⟨_, _, _, _, _, hbranch, howns, hsingle, rfl⟩ := Ownership.plan_condition.1 hline
      cases hbranch
      have howner := h.owner_of_owns hc howns
      have hat := h.startLine_of_condition howner ht heq
      rw [(Ownership.leading_branch (hat ▸ howner)).1, if_pos ⟨hsingle, heq⟩, hat]
  · rintro rfl
    cases howner : owners.get? t.extent.startLine with
    | none => simp [Ownership.leading, howner] at hne
    | some owner =>
      cases owner with
      | elseIf => simp [Ownership.leading, howner] at hne
      | statement s =>
        have hc := claim_of_classify (h.owned _ _ howner)
        have hline := line_of_claim hc
        have howns := Ownership.owns_of_get? (hline ▸ howner)
        refine ⟨_, _, hc, List.mem_append.2 ?_⟩
        rcases claim_cases hc with hs | ⟨here, condition, thenBody, elseIfs, elseBody, rfl⟩
        · rw [(Ownership.leading_code howner hs).1] at hne ⊢
          have heq : t.span.start = s.here.span.start := by
            by_contra hnot
            exact hne (if_neg hnot)
          rw [if_pos heq]
          exact .inl (before_mem_claimSeams.2
            ⟨heq, _, Ownership.plan_code.2 ⟨howns, hs, hline.symm⟩, rfl⟩)
        · rw [(Ownership.leading_branch howner).1] at hne ⊢
          have heq : condition.here.location.isSingleLine ∧
              t.span.start = condition.here.span.start := by
            by_contra hnot
            exact hne (if_neg hnot)
          rw [if_pos heq]
          exact .inr (before_mem_conditionSeams.2 ⟨_, _, _, _, _, _, rfl, Ownership.plan_condition.2
            ⟨_, _, _, _, _, rfl, howns, heq.1, hline.symm⟩, heq.2, rfl⟩)

theorem after_iff (ht : t ∈ lex source) (hne : lexemes ≠ []) :
    Seam.after t.span.stop lexemes ∈ seams ws ↔
      owners.trailing t = lexemes := by
  rw [h.sewn, mem_visitSeams]
  constructor
  · rintro ⟨line, s, hc, hseam⟩
    obtain ⟨here, condition, _, _, _, _, rfl, hline, heq, rfl⟩ :=
      after_mem_conditionSeams.1 ((List.mem_append.1 hseam).resolve_left after_notMem_claimSeams)
    obtain ⟨_, _, _, _, _, hbranch, howns, hsingle, rfl⟩ := Ownership.plan_condition.1 hline
    cases hbranch
    have howner := h.owner_of_owns hc howns
    have hat := h.startLine_of_condition_stop howner ht hsingle heq
    rw [(Ownership.leading_branch (r := r) (hat ▸ howner)).2, if_pos ⟨hsingle, heq⟩, hat]
  · rintro rfl
    cases howner : owners.get? t.extent.startLine with
    | none => simp [Ownership.trailing, howner] at hne
    | some owner =>
      cases owner with
      | elseIf => simp [Ownership.trailing, howner] at hne
      | statement s =>
        have hc := claim_of_classify (h.owned _ _ howner)
        have hline := line_of_claim hc
        refine ⟨_, _, hc, List.mem_append.2 ?_⟩
        rcases claim_cases hc with hs | ⟨here, condition, thenBody, elseIfs, elseBody, rfl⟩
        · exact absurd (Ownership.leading_code (r := r) howner hs).2 hne
        · rw [(Ownership.leading_branch (r := r) howner).2] at hne ⊢
          have heq : condition.here.location.isSingleLine ∧
              t.span.stop = condition.here.span.stop := by
            by_contra hnot
            exact hne (if_neg hnot)
          rw [if_pos heq]
          exact .inr (after_mem_conditionSeams.2 ⟨_, _, _, _, _, _, rfl, Ownership.plan_condition.2
            ⟨_, _, _, _, _, rfl, Ownership.owns_of_get? (hline ▸ howner), heq.1, hline.symm⟩,
            heq.2, rfl⟩)

theorem around (hw : w ∈ ws) : w.before = owners.leading r w.token ∧
    w.after = owners.trailing w.token := by
  have ht := h.token_mem hw
  constructor
  · by_cases hne : w.before = []
    · by_contra hother
      have hlead : owners.leading r w.token ≠ [] := fun hnil => hother (hne.trans hnil.symm)
      obtain ⟨w', hw', heq, hbefore, -⟩ := before_mem_seams.1 ((h.before_iff ht hlead).2 rfl)
      obtain rfl := h.eq_of_start hw' hw heq
      exact hother hbefore
    · exact ((h.before_iff ht hne).1 (before_mem_seams.2 ⟨w, hw, rfl, rfl, hne⟩)).symm
  · by_cases hne : w.after = []
    · by_contra hother
      have htrail : owners.trailing w.token ≠ [] := fun hnil => hother (hne.trans hnil.symm)
      obtain ⟨w', hw', heq, hafter, -⟩ := after_mem_seams.1 ((h.after_iff ht htrail).2 rfl)
      obtain rfl := h.eq_of_stop hw' hw heq
      exact hother hafter
    · exact ((h.after_iff ht hne).1 (after_mem_seams.2 ⟨w, hw, rfl, rfl, hne⟩)).symm

end Stitched

/-! ### What tokens say -/

def Token.sense (t : Token) : Sense :=
  BrightCoverage.sense (t.kind, t.text)

theorem sense_cases {a b : TokenKind × String} (h : sense a = sense b) : a = b ∨
    (a.1 = .directive ∧ b.1 = .directive ∧ Directive.ofLine a.2.toList = .ofLine b.2.toList) := by
  unfold sense at h
  split at h <;> split at h
  · next ha hb => exact .inr ⟨ha, hb, Sense.line.inj h⟩
  · cases h
  · cases h
  · obtain ⟨hkind, htext⟩ := Sense.token.inj h
    exact .inl (Prod.ext hkind htext)

theorem alike_of_sense (ht : t ∈ lex source) (h : u.sense = t.sense) : Alike t u := by
  rcases sense_cases h with heq | ⟨hu, hk, hline⟩
  · obtain ⟨hkind, htext⟩ := Prod.mk.inj heq
    exact ⟨hkind.symm, .inl htext.symm⟩
  · have hk : t.kind = .directive := hk
    exact ⟨hk.trans hu.symm,
      .inr ⟨hk, isWord_of_lineEnder ht (by simp [hk, lineEnders]), hline.symm⟩⟩

theorem Lexeme.kind_ne_directive {l : Lexeme} (h : ∀ line, l ≠ .directive line) :
    l.kind ≠ .directive := by
  cases l with
  | directive line => exact absurd rfl (h line)
  | word name => cases hname : Keyword.ofWord? name <;> simp [kind, hname]
  | binary op => cases op <;> simp [kind, BinaryOp.kind]
  | unary op => cases op <;> simp [kind, UnaryOp.kind]
  | assign op => cases op <;> simp [kind, AssignOp.kind]
  | keyword | symbol | integer | string | newline => simp [kind]

theorem printed_of_senses {rest : List Sense} (hls : ∀ l ∈ lexemes, ∀ line, l ≠ .directive line)
    (h : us.map Token.sense = (lexemes.map Lexeme.face).map sense ++ rest) :
    ∃ vs, Printed lexemes us vs ∧ vs.map Token.sense = rest := by
  induction lexemes generalizing us with
  | nil => exact ⟨us, .nil, h⟩
  | cons l lexemes ih =>
    obtain ⟨hl, hls⟩ := List.forall_mem_cons.1 hls
    obtain ⟨u, us, rfl, hu, h⟩ := List.map_eq_cons_iff.1 h
    obtain ⟨vs, hprinted, hvs⟩ := ih hls h
    have hface : (u.kind, u.text) = l.face := (sense_cases hu).resolve_right
      fun h => Lexeme.kind_ne_directive hl h.2.1
    obtain ⟨hkind, htext⟩ := Prod.mk.inj hface
    exact ⟨vs, .cons hkind htext hprinted, hvs⟩

namespace Ownership

theorem leading_ne_directive (owners : Ownership) :
    ∀ l ∈ owners.leading r t, ∀ line, l ≠ .directive line := by
  unfold leading
  split
  all_goals try split
  all_goals simp [Reporter.opening, Reporter.lead, Reporter.report]

theorem trailing_ne_directive (owners : Ownership) :
    ∀ l ∈ owners.trailing t, ∀ line, l ≠ .directive line := by
  unfold trailing
  split
  all_goals try split
  all_goals simp [Reporter.closing]

end Ownership

theorem Woven.known (h : Woven ws us []) (hws : ∀ w ∈ ws, w.token.kind ≠ .unknown) :
    ∀ u ∈ us, u.kind ≠ .unknown := by
  generalize hvs : ([] : List Token) = vs at h
  induction h with
  | nil =>
    subst hvs
    exact List.forall_mem_nil _
  | @cons w ws u us us₁ us₂ vs hb ha hc _ ih =>
    obtain ⟨hw, hws⟩ := List.forall_mem_cons.1 hws
    intro u' hu'
    rcases hb.kind_ne_unknown u' hu' with hu' | hu'
    · rcases List.mem_cons.1 hu' with rfl | hu'
      · rwa [← ha.kind]
      · rcases hc.kind_ne_unknown u' hu' with hu' | hu'
        · exact ih hws hvs u' hu'
        · exact hu'
    · exact hu'

namespace Stitched

theorem woven {owners : Ownership} {rest : List Sense} (hws : ∀ w ∈ ws, w.token ∈ lex source ∧
      w.before = owners.leading r w.token ∧ w.after = owners.trailing w.token)
    (h : us.map Token.sense = (ws.map Stitch.token).flatMap (owners.senses r) ++ rest) :
    ∃ vs, Woven ws us vs ∧ vs.map Token.sense = rest := by
  induction ws generalizing us with
  | nil => exact ⟨us, .nil, h⟩
  | cons w ws ih =>
    obtain ⟨⟨htoken, hbefore, hafter⟩, hws⟩ := List.forall_mem_cons.1 hws
    rw [List.map_cons, List.flatMap_cons, Ownership.senses, List.map_append, List.map_cons,
      ← hbefore, ← hafter, List.append_assoc, List.append_assoc] at h
    obtain ⟨us₁, hlead, h⟩ := printed_of_senses (hbefore ▸ owners.leading_ne_directive) h
    obtain ⟨u, us₂, rfl, hu, h⟩ := List.map_eq_cons_iff.1 h
    obtain ⟨us₃, htrail, h⟩ := printed_of_senses (hafter ▸ owners.trailing_ne_directive) h
    obtain ⟨vs, hwoven, hvs⟩ := ih hws h
    exact ⟨vs, .cons hlead (alike_of_sense htoken hu) htrail hwoven, hvs⟩

end Stitched

/-! ### The tree of the text -/

theorem Mark.line_advance_le (m : Mark) (u : Text) :
    (m.advance u).position.line ≤ m.position.line + byteLength u := by
  induction u generalizing m with
  | nil => exact Nat.le_refl _
  | cons c u ih =>
    have hrest : ((m.next c).advance u).position.line ≤ _ := ih (m.next c)
    have hnext : (m.next c).position.line ≤ m.position.line + 1 := by
      unfold next
      split <;> simp
    have hpos := c.utf8Size_pos
    simp only [byteLength]
    exact Nat.le_trans hrest (by omega)

theorem startLine_le (ht : t ∈ lex source) : t.extent.startLine ≤ byteLength source := by
  rw [lex_eq_place] at ht
  have hline := (line_of_mem_place ht).2
  have hadvance := Mark.origin.line_advance_le (Item.join (items source))
  rw [join_items] at hline hadvance
  have horigin : Mark.origin.position.line = 1 := rfl
  rw [Extent.startLine, Position.lineIndex]
  omega

theorem plan_sound (h : parse source = .ok program) {owners : Ownership}
    (howners : owners.OwnersOf program) (hsize : byteLength source ≤ maxInteger) :
    owners.plan.Sound := by
  have hline : ∀ s, owners.owns s = true → s.here.startLine ≤ maxInteger := by
    intro s howns
    unfold Ownership.owns at howns
    split at howns
    · next owner howner =>
      obtain ⟨t, ht, -, -, hline⟩ := claim_token h (claim_of_classify (howners _ _ howner))
      exact hline ▸ (startLine_le ht).trans hsize
    · cases howns
  refine ⟨fun s line hcode => ?_, fun s line hcondition => ?_⟩
  · obtain ⟨howns, hs, rfl⟩ := Ownership.plan_code.1 hcode
    exact ⟨hs, hline s howns⟩
  · obtain ⟨_, _, _, _, _, -, howns, -, rfl⟩ := Ownership.plan_condition.1 hcondition
    exact hline s howns

theorem map_sense_lex (text : Text) : (lex text).map Token.sense = (wording text).map sense := by
  rw [← map_lex, List.map_map]
  rfl

/-- Tokens that say what a text says, with what owners of its lines put around its tokens and a line
break behind them, spell what the pass makes of its tree. -/
theorem spells_of_senses (h : parse source = .ok program) (hr : IsPlain r.stem.toList)
    {owners : Ownership} (howners : owners.OwnersOf program) (hsize : byteLength source ≤ maxInteger)
    (hus : us.map Token.sense
      = (lex source).flatMap (owners.senses r) ++ [sense (.newline, "\n")]) :
    Spells Plain (.block .never (passBody r owners.plan program)) us [] ∧
      ∀ u ∈ us, u.kind ≠ .unknown := by
  obtain ⟨ws, htokens, hseams, hspells⟩ :=
    (parseTokens_spelled h).sewn (Reporter.name_functionName hr) (plan_sound h howners hsize)
  rw [List.append_nil] at htokens
  have hstitched : Stitched r source program owners ws := ⟨h, howners, htokens, hseams⟩
  rw [htokens] at hus
  obtain ⟨us, vs, rfl, hus, hvs⟩ := List.map_eq_append_iff.1 hus
  rw [← List.append_nil (List.flatMap _ _)] at hus
  obtain ⟨_, hwoven, hnil⟩ := Stitched.woven
    (fun w hw => ⟨hstitched.token_mem hw, hstitched.around hw⟩) hus
  obtain rfl := List.map_eq_nil_iff.1 hnil
  obtain ⟨nl, rfl, hnl⟩ := List.map_eq_singleton_iff.1 hvs
  have hnewline : (nl.kind, nl.text) = (.newline, "\n") :=
    (sense_cases hnl).resolve_right fun h => by cases h.2.1
  have hkind : nl.kind = .newline := (Prod.mk.inj hnewline).1
  refine ⟨(hspells us [] hwoven .nil).2.append_newline hkind, fun t ht => ?_⟩
  rcases List.mem_append.1 ht with ht | ht
  · exact hwoven.known (fun w hw => ((complete_of_parse h).known _ (hstitched.token_mem hw)).1) t ht
  · rw [List.mem_singleton.1 ht, hkind]
    decide

/-- The instrumented text can be read, and its tree is what the pass makes of the tree. A text has at
most `maxInteger` bytes, so the numbers of its lines can be written as integers. -/
theorem parse_instrument (h : parse source = .ok program) (hr : IsPlain r.stem.toList)
    (hleads : LeadsLines source (classify program))
    (hremarks : Unremarked source (classify program)) (hsize : byteLength source ≤ maxInteger) :
    ∃ program', parse (instrument r (classify program) source).text = .ok program' ∧
      shapes program' = shapes (passBody r (classify program).plan program) := by
  have howners := ownersOf_classify program
  have hsenses := senses_instrument h howners hr hleads hremarks
  rw [← map_sense_lex] at hsenses
  obtain ⟨hspells, hknown⟩ := spells_of_senses h hr howners hsize hsenses
  exact parseTokens_of_spells hspells hknown

theorem parse_instrument_branch :
    let source := "if a then\nx = 1\nend if".toList
    let r : Reporter := ⟨"RBS_CC", 1⟩
    ∃ program program', parse source = .ok program ∧
      parse (instrument r (classify program) source).text = .ok program' ∧
      shapes program' = shapes (passBody r (classify program).plan program) := by
  intro source r
  have hparse : parse source = .ok [.branch
      ⟨⟨0, 22⟩, ⟨⟨1, 0⟩, ⟨3, 6⟩⟩⟩ (.identifier ⟨⟨3, 4⟩, ⟨⟨1, 3⟩, ⟨1, 4⟩⟩⟩ "a")
      [.assign ⟨⟨10, 15⟩, ⟨⟨2, 0⟩, ⟨2, 5⟩⟩⟩ "x" .assign
        (.integer ⟨⟨14, 15⟩, ⟨⟨2, 4⟩, ⟨2, 5⟩⟩⟩ 1)] [] none] := rfl
  have hremarks : remarks source = [] := by decide +kernel
  have hr : IsPlain r.stem.toList :=
    ⟨'R', ['B', 'S', '_', 'C', 'C'], by decide, by decide, List.all_iff_forall_prop.1 (by decide)⟩
  obtain ⟨program', hparse', hshapes⟩ := parse_instrument hparse hr
    (by
      rintro (_ | _ | line) s howner hs
      · cases howner
        cases hs
      · cases howner
        decide
      · cases howner)
    (fun _ _ _ _ _ _ _ => by simp [hremarks]) (by decide)
  exact ⟨_, program', hparse, hparse', hshapes⟩

end BrightCoverage
