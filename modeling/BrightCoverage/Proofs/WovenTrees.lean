import BrightCoverage.Proofs.TreePositions
import BrightCoverage.Proofs.Weaving

/-! Calls woven into the tokens of a tree spell the tree that the pass makes of it. A call goes in
front of a statement, in the list of statements that the statement stands in, or into a condition,
where parentheses keep the condition together. The seams follow the visits of the statements. -/

namespace BrightCoverage

variable {t u : Token} {ts us rest vs mid : List Token}

namespace Reporter

def lead (r : Reporter) : Option Nat → List Lexeme
  | none => []
  | some line => r.report line .code ++ [.symbol .colon]

def opening (r : Reporter) : Option Nat → List Lexeme
  | none => []
  | some line => r.report line .condition ++ [.binary .and, .symbol .leftParen]

def closing : Option Nat → List Lexeme
  | none => []
  | some _ => [.symbol .rightParen]

end Reporter

def Statement.claims {α : Type} : Statement α → Bool
  | .branch .. => true
  | s => s.isCode

def Statement.inner : Statement Extent → List Visit
  | .procedure _ _ decl => decl.visits
  | .branch _ _ thenBody elseIfs elseBody =>
    visitAll thenBody ++ visitElseIfs elseIfs ++ visitOptional elseBody
  | .forLoop _ _ _ _ _ body | .forEach _ _ _ body | .whileLoop _ _ body => visitAll body
  | .compileIf _ _ thenBody elseIfs elseBody =>
    visitAll thenBody ++ visitCompileElseIfs elseIfs ++ visitOptional elseBody
  | _ => []

section Seams

variable (r : Reporter) (plan : Plan)

def conditionSeams : Statement Extent → List Seam
  | s@(.branch _ condition ..) =>
    Seam.lead condition.here.span.start (r.opening (plan.condition s))
      ++ Seam.trail condition.here.span.stop (Reporter.closing (plan.condition s))
  | _ => []

/-- What there is at the start of a statement that claims its line. -/
def claimSeams (s : Statement Extent) : List Seam :=
  .start s.here.span.start s :: Seam.lead s.here.span.start (r.lead (plan.code s))

def Visit.seams : Visit → List Seam
  | .claim _ (.statement s) => claimSeams r plan s ++ conditionSeams r plan s
  | _ => []

def visitSeams (visits : List Visit) : List Seam :=
  visits.flatMap (Visit.seams r plan)

@[simp] theorem visitSeams_nil : visitSeams r plan [] = [] := rfl

@[simp] theorem visitSeams_append (vs ws : List Visit) :
    visitSeams r plan (vs ++ ws) = visitSeams r plan vs ++ visitSeams r plan ws :=
  List.flatMap_append

/-- The seams of a statement apart from those at its start. -/
def innerSeams (s : Statement Extent) : List Seam :=
  conditionSeams r plan s ++ visitSeams r plan s.inner

theorem visitSeams_visits (s : Statement Extent) : visitSeams r plan s.visits =
    (if s.claims then claimSeams r plan s else []) ++ innerSeams r plan s := by
  cases s <;> simp [Statement.visits, visitSeams, Visit.seams, Visit.byStatement, Visit.past,
    innerSeams, Statement.inner, Statement.claims, Statement.isCode, conditionSeams]

/-- The calls of a plan stand in front of statements that count as code, and its lines can be
written as integers. -/
structure Plan.Sound (plan : Plan) : Prop where
  code : ∀ s line, plan.code s = some line → s.isCode = true ∧ line ≤ maxInteger
  condition : ∀ s line, plan.condition s = some line → line ≤ maxInteger

end Seams

/-! ### Calls -/

section Calls

variable {r : Reporter} {here : Extent} {line : Nat} {kind : LineKind}

theorem Reporter.callExpr_fine (hname : Name r.functionName) (hline : line ≤ maxInteger) :
    (Node.expression (r.callExpr here line kind)).Fine := by
  have hkind : kind.toNat ≤ maxInteger := by cases kind <;> decide
  refine Node.fine_of_children ⟨rfl, trivial⟩ ?_
  refine List.forall_mem_cons.2 ⟨?_, List.forall_mem_cons.2 ⟨?_, List.forall_mem_singleton.2 ?_⟩⟩
  · exact Node.fine_of_children ⟨trivial, hname⟩ (List.forall_mem_nil _)
  · exact Node.fine_of_children ⟨trivial, hline⟩ (List.forall_mem_nil _)
  · exact Node.fine_of_children ⟨trivial, hkind⟩ (List.forall_mem_nil _)

theorem Printed.report (h : Printed (r.report line kind) us vs) (hname : Name r.functionName)
    (hline : line ≤ maxInteger) :
    kindOf us = some .identifier ∧ Spells Plain (.expression (r.callExpr here line kind)) us vs := by
  refine ⟨?_, (Reporter.callExpr_fine hname hline).rendered.2 _ _ h⟩
  obtain ⟨t, ts, rfl, ht, -⟩ := printed_cons.1 h
  exact kindOf_cons (ht.trans hname.kind)

theorem Printed.lead (here : Extent) (h : Printed (r.lead (some line)) us vs) (hname : Name r.functionName)
    (hline : line ≤ maxInteger) :
    kindOf us = some .identifier ∧ ∃ colon, colon.kind = .symbol .colon ∧
      Spells Plain (.statement (.call here (r.callExpr here line .code))) us (colon :: vs) := by
  obtain ⟨_, hreport, h⟩ := printed_append.1 h
  simp only [printed_cons, printed_nil] at h
  obtain ⟨colon, vs, rfl, hcolon, -, rfl⟩ := h
  have hcall : _ ∧ Spells Plain (.expression (r.callExpr here line .code)) _ (colon :: vs) :=
    hreport.report hname hline
  have hnext : kindOf (colon :: vs) = some (.symbol .colon) := kindOf_cons hcolon
  have hunattached : Unattached (colon :: vs) := by
    rw [Unattached, hnext]
    decide
  refine ⟨hcall.1, colon, hcolon, Form.callStatement.spells (.ahead hcall.1 (.phrase hcall.2
    (.ahead hunattached (.ahead ?_ .nil))))⟩
  rw [hnext]
  decide

end Calls

/-! ### Lists of statements -/

section Lists

variable {r : Reporter} {plan : Plan} {s : Statement Extent} {stop : Stop}
  {body : List (Statement Extent)}

abbrev pastSeparators (ts : List Token) : List Token :=
  ts.dropWhile (·.kind ∈ [TokenKind.newline, .symbol .colon])

theorem pastSeparators_eq (h : Unseparated ts) : pastSeparators ts = ts := by
  cases ts with
  | nil => rfl
  | cons t ts => exact List.dropWhile_cons_of_neg (by simpa using fun hk => h _ hk rfl)

theorem unseparated_pastSeparators (ts : List Token) : Unseparated (pastSeparators ts) := by
  intro k hk hkind
  have hnot := List.head?_dropWhile_not
    (fun t : Token => decide (t.kind ∈ [TokenKind.newline, .symbol .colon])) ts
  cases hd : pastSeparators ts with
  | nil =>
    rw [hd] at hkind
    cases hkind
  | cons t rest =>
    rw [pastSeparators] at hd
    rw [pastSeparators, hd] at hkind
    rw [hd] at hnot
    obtain rfl := Option.some.inj hkind
    simp at hnot hk
    tauto

theorem Spells.block_congr (h : Spells Plain (.block stop body) us rest)
    (heq : pastSeparators vs = pastSeparators us) : Spells Plain (.block stop body) vs rest := by
  obtain ⟨_, form, fits⟩ := h.form
  cases form with
  | blockNil | blockCons =>
    have hfits : Fits _ _ (pastSeparators us) rest := fits_skip.1 fits
    rw [← heq] at hfits
    first
    | exact Form.blockNil.spells (fits_skip.2 hfits)
    | exact Form.blockCons.spells (fits_skip.2 hfits)

theorem Spells.separated_block (h : Spells Plain (.block stop body) (pastSeparators ts) rest) :
    Spells Plain (.block stop body) ts rest :=
  h.block_congr (pastSeparators_eq (unseparated_pastSeparators ts)).symm

theorem pastSeparators_cons (hu : u.kind ∈ [TokenKind.newline, .symbol .colon]) :
    pastSeparators (u :: us) = pastSeparators us :=
  List.dropWhile_cons_of_pos (by simpa using hu)

theorem Spells.cons_block (h : Spells Plain (.block stop body) us rest)
    (hu : u.kind ∈ [TokenKind.newline, .symbol .colon]) :
    Spells Plain (.block stop body) (u :: us) rest :=
  h.block_congr (pastSeparators_cons hu)

theorem Printed.lead_block {line : Nat} (here : Extent) (h : Printed (r.lead (some line)) us vs)
    (hname : Name r.functionName) (hline : line ≤ maxInteger)
    (hblock : Spells Plain (.block stop body) vs rest) :
    Spells Plain (.block stop (.call here (r.callExpr here line .code) :: body)) us rest := by
  obtain ⟨hk, colon, hcolon, hcall⟩ := h.lead here hname hline
  have hopens := opens_of_identifier hk
  refine Form.blockCons.spells (.skip_none hopens.apart (.ahead ⟨hopens.ne_nil, hopens.inside stop⟩
    (.phrase hcall (.ahead ?_ (.phrase (hblock.cons_block (by simp [hcolon])) .nil)))))
  simp [Cursor.atStatementEnd, kind?_ofTokens, kindOf_cons hcolon]

theorem Look.atInlineEnd (h : Look ts us) (hts : (Cursor.ofTokens ts).atInlineEnd = false) :
    (Cursor.ofTokens us).atInlineEnd = false := by
  rcases h with h | ⟨-, h⟩
  · rwa [h.atInlineEnd]
  · rw [Cursor.atInlineEnd, kind?_ofTokens, h]

theorem Look.unseparated (h : Look ts us) (hu : Unseparated ts) : Unseparated us := by
  rcases h with h | ⟨-, h⟩
  · intro k hk
    rw [h.kindOf_eq]
    exact hu k hk
  · intro k hk
    rw [h]
    revert k
    decide

theorem Weaves.unseparated {A P : List Token → List Token → Prop} {is : List Seam}
    (h : Weaves A is ts rest P) (hlook : ∀ us vs, P us vs → Look ts us) (hu : Unseparated ts) :
    Weaves A is ts rest fun us vs => Look ts us ∧ P (pastSeparators us) vs := by
  refine h.imp fun us vs _ hp => ?_
  rw [pastSeparators_eq ((hlook us vs hp).unseparated hu)]
  exact ⟨hlook us vs hp, hp⟩

theorem Weaves.separators {A P : List Token → List Token → Prop} {is : List Seam}
    (h : Weaves A is (pastSeparators ts) rest P)
    (hlook : ∀ us vs, P us vs → Look (pastSeparators ts) us) :
    Weaves A is ts rest fun us vs => Look ts us ∧ P (pastSeparators us) vs := by
  induction ts with
  | nil => exact h.unseparated hlook (by simp [Unseparated, kindOf])
  | cons t ts ih =>
    by_cases ht : t.kind ∈ [TokenKind.newline, .symbol .colon]
    · have hpast : ∀ {u us}, u.kind = t.kind → pastSeparators (u :: us) = pastSeparators us :=
        fun hu => List.dropWhile_cons_of_pos (by simpa [hu] using ht)
      have hpartners : ∀ k ∈ [TokenKind.newline, .symbol .colon], partners k = [] := by decide
      rw [hpast rfl] at h hlook
      refine ((ih h hlook).cons t).weaves.imp ?_
      rintro us vs - ⟨u, us, rfl, halike, -, hp⟩
      rw [hpast halike.kind.symm]
      exact ⟨.inl (.cons halike (by simp [SamePartner, hpartners _ ht])), hp⟩
    · have hu : Unseparated (t :: ts) := fun k hk hkind => ht (Option.some.inj hkind ▸ hk)
      rw [pastSeparators_eq hu] at h hlook
      exact h.unseparated hlook hu

/-- The statement as the pass leaves it, behind the call that stands in front of it. -/
def Announced (r : Reporter) (plan : Plan) (s : Statement Extent) (ts us vs : List Token) : Prop :=
  ∃ us₁, Printed (r.lead (plan.code s)) us us₁ ∧ Agree ts us₁ ∧
    Spells Plain (.statement (s.pass r plan)) us₁ vs

theorem Laid.head {n : Node} {j : Nat} (h : Laid ts n 0 j) :
    ∃ t, ts.head? = some t ∧ n.here.span.start = t.span.start := by
  obtain ⟨a, b, ha, -, hab⟩ := exists_tokens h.lt h.le_length
  refine ⟨a, by rw [List.head?_eq_getElem?, ha], ?_⟩
  rw [h.here_eq, hab]
  rfl

theorem Laid.leads {j : Nat} (h : Laid ts (.statement s) 0 j) (hs : s.isCode = true) :
    ∃ k ∈ leaders, kindOf ts = some k := by
  have hkind : ∀ k, kindAt ts 0 = some k → kindOf ts = some k := fun k hk => by
    rwa [kindOf, List.head?_eq_getElem?]
  have hspelled := h.spelled
  cases s <;> cases hs
  case print =>
    rcases hspelled with h | h
    · exact ⟨_, by decide, hkind _ h⟩
    · exact ⟨_, by decide, hkind _ h⟩
  all_goals exact ⟨_, by decide, hkind _ hspelled⟩

theorem Started.announced (hs : Spells Noted (.statement s) ts mid) (hplan : plan.Sound)
    (h : Started Agree (innerSeams r plan s) ts mid fun us vs =>
      Agree ts us ∧ Spells Plain (.statement (s.pass r plan)) us vs) :
    Weaves Agree (visitSeams r plan s.visits) ts mid (Announced r plan s ts) := by
  obtain ⟨j, -, laid⟩ := hs.note
  obtain ⟨t, ht, hstart⟩ := laid.head
  rw [visitSeams_visits]
  split
  · have hlead := h.lead s (r.lead (plan.code s)) ht
    rw [← hstart] at hlead
    exact hlead
  · next hclaims =>
    have hcode : plan.code s = none := by
      refine Option.eq_none_iff_forall_not_mem.2 fun line hline => hclaims ?_
      have := (hplan.code s line hline).1
      cases s <;> first | rfl | exact this
    refine h.weaves.imp fun us vs _ ⟨hagree, hspells⟩ => ⟨us, ?_, hagree, hspells⟩
    rw [hcode]
    exact .nil

section Announced

variable {body' : List (Statement Extent)} (hname : Name r.functionName) (hplan : plan.Sound)
include hname hplan

theorem Announced.look (h : Announced r plan s ts us vs) {j : Nat}
    (laid : Laid ts (.statement s) 0 j) : Look ts us := by
  obtain ⟨us₁, hlead, hagree, -⟩ := h
  cases hcode : plan.code s with
  | none =>
    rw [hcode] at hlead
    obtain rfl := printed_nil.1 hlead
    exact .inl hagree
  | some line =>
    rw [hcode] at hlead
    obtain ⟨hs, hline⟩ := hplan.code s line hcode
    exact .inr ⟨laid.leads hs, (hlead.lead s.here hname hline).1⟩

theorem Announced.block (h : Announced r plan s ts us mid)
    (hopen : ts ≠ [] ∧ stop.atEnd (.ofTokens ts) = false) (hu : Unseparated ts)
    (hend : (Cursor.ofTokens mid).atStatementEnd = true)
    (hbody : Spells Plain (.block stop body') mid rest) :
    Spells Plain (.block stop (r.before s.here (plan.code s) ++ s.pass r plan :: body')) us rest := by
  obtain ⟨us₁, hlead, hagree, hs⟩ := h
  have hu₁ : Unseparated us₁ := Look.unseparated (.inl hagree) hu
  have hopen₁ : us₁ ≠ [] ∧ stop.atEnd (.ofTokens us₁) = false := by
    rwa [ne_eq, hagree.nil_iff, hagree.atEnd]
  have hblock : Spells Plain (.block stop (s.pass r plan :: body')) us₁ rest :=
    Form.blockCons.spells (.skip_none hu₁ (.ahead hopen₁ (.phrase hs
      (.ahead hend (.phrase hbody .nil)))))
  cases hcode : plan.code s with
  | none =>
    rw [hcode] at hlead
    obtain rfl := printed_nil.1 hlead
    exact hblock
  | some line =>
    rw [hcode] at hlead
    exact hlead.lead_block s.here hname (hplan.code s line hcode).2 hblock

theorem Announced.inline (h : Announced r plan s ts us mid) {j : Nat}
    (laid : Laid ts (.statement s) 0 j) (hmore : Spells Plain (.inlineMore body') mid rest) :
    ∃ s₀ body₀, r.before s.here (plan.code s) ++ s.pass r plan :: body' = s₀ :: body₀ ∧
      Fits (Spells Plain) [.phrase (.statement s₀), .phrase (.inlineMore body₀)] us rest := by
  obtain ⟨us₁, hlead, hagree, hs⟩ := h
  cases hcode : plan.code s with
  | none =>
    rw [hcode] at hlead
    obtain rfl := printed_nil.1 hlead
    exact ⟨_, _, rfl, .phrase hs (.phrase hmore .nil)⟩
  | some line =>
    rw [hcode] at hlead
    obtain ⟨hcode, hline⟩ := hplan.code s line hcode
    obtain ⟨hk, colon, hcolon, hcall⟩ := hlead.lead s.here hname hline
    have hgoes : (Cursor.ofTokens us₁).atInlineEnd = false := by
      obtain ⟨k, hk, hts⟩ := laid.leads hcode
      rw [hagree.atInlineEnd, Cursor.atInlineEnd, kind?_ofTokens, hts]
      clear hts
      revert k
      decide
    exact ⟨_, _, rfl, .phrase hcall (.phrase (Form.inlineCons.spells (.token hcolon trivial
      (.ahead hgoes (.phrase hs (.phrase hmore .nil))))) .nil)⟩

end Announced

end Lists

/-! ### Conditions -/

theorem Laid.ends {n : Node} {j : Nat} (h : Laid ts n 0 j) : ∃ first last,
    (ts.take j).head? = some first ∧ (ts.take j).getLast? = some last ∧
      n.here = first.extent.through last.extent := by
  obtain ⟨a, b, ha, hb, hab⟩ := exists_tokens h.lt h.le_length
  have hlt := h.lt
  have hle := h.le_length
  refine ⟨a, b, ?_, ?_, h.here_eq.trans hab⟩
  · rw [List.head?_eq_getElem?, List.getElem?_take_of_lt hlt, ha]
  · rw [List.getLast?_eq_getElem?, List.length_take, Nat.min_eq_left hle,
      List.getElem?_take_of_lt (by omega), hb]

theorem Spells.weaves_condition {r : Reporter} {c : Expr Extent} {line? : Option Nat}
    (h : Spells Noted (.value c) ts rest) (hname : Name r.functionName)
    (hline : ∀ line, line? = some line → line ≤ maxInteger) :
    Weaves Look (Seam.lead c.here.span.start (r.opening line?)
        ++ Seam.trail c.here.span.stop (Reporter.closing line?)) ts rest
      fun us vs => Anyhow ts us ∧ Spells Plain (.value (r.joined c line?)) us vs := by
  cases line? with
  | none => exact h.weaves_value.imp fun us vs _ hv => ⟨trivial, hv.2⟩
  | some line =>
    obtain ⟨_, form, fits⟩ := h.form
    cases form
    simp only [fits_phrase, fits_ahead, fits_nil] at fits
    obtain ⟨rest, he, hinert, rfl⟩ := fits
    obtain ⟨j, hrest, laid⟩ := he.note
    obtain ⟨first, last, hfirst, hlast, hhere⟩ := laid.ends
    have hts : ts = ts.take j ++ rest := by rw [hrest, List.take_append_drop]
    -- The call and `and (` go in front of the first token of the condition, `)` behind its last.
    refine ⟨frame (r.opening (some line)) [.symbol .rightParen] (ts.take j), ?_, ?_,
      fun us vs hw hlook => ⟨trivial, ?_⟩⟩
    · rw [map_token_frame]
      exact hts
    · rw [seams_frame hfirst hlast, show c.here = _ from hhere]
      rfl
    · have hne : ts.take j ≠ [] := by
        rintro hnil
        rw [hnil] at hfirst
        cases hfirst
      obtain ⟨xs, ys, hopening, halikes, hclosing⟩ := hw.framed hne rest
      rw [← hts] at halikes
      obtain ⟨_, hreport, hopening⟩ := printed_append.1 hopening
      simp only [printed_cons, printed_nil] at hopening hclosing
      obtain ⟨tand, _, rfl, hand, -, tleft, _, rfl, hleft, -, rfl⟩ := hopening
      obtain ⟨tright, vs, rfl, hright, -, rfl⟩ := hclosing
      have hcall : Spells Plain (.expression (r.callExpr c.here line .condition)) us _ :=
        (hreport.report hname (hline line rfl)).2
      have hinner := he.transcribed _ _ halikes trivial
      have hvalue := Form.value.spells (.phrase hinner
        (.ahead (inert_of_closer (kindOf_cons hright) (by decide)) .nil))
      have hgrouped : Spells Plain (.expression (.grouped c.here c)) _ vs := Form.grouped.spells
        (.token hleft trivial (.newlines (hinner.expression_head.2 _ (by decide)) (.phrase hvalue
          (.newlines (by simp [kindOf_cons hright, Lexeme.kind]) (.token hright trivial .nil)))))
      have hbinds : (r.joined c (some line)).Grouped :=
        ⟨by simp [Reporter.callExpr, Expr.edge], trivial⟩
      refine Form.value.spells (.phrase ?_ (.ahead (hlook.inert hinert) .nil))
      exact (Form.binary (k := .keyword .andKw) rfl hbinds).spells
        (.phrase hcall (.token hand trivial (.phrase hgrouped .nil)))

/-! ### Phrases -/

/-- The tokens can be woven, and then they spell the phrase. -/
def Sews (R : List Token → List Token → Prop) (is : List Seam) (ph : Phrase Extent)
    (ts rest : List Token) : Prop :=
  Weaves Agree is ts rest fun us vs => R ts us ∧ Spells Plain ph us vs

section Sews

variable {R : List Token → List Token → Prop} {is : List Seam} {ph : Phrase Extent}
  {ps : List (Part Extent)}

theorem Threads.sews (h : Threads R ps is ts rest) (form : Form ph ps) : Sews R is ph ts rest :=
  Weaves.imp h fun _ _ _ h => ⟨h.1, form.spells h.2⟩

theorem Sews.threads (h : Sews R is ph ts rest) : Threads R [.phrase ph] is ts rest := by
  have hthreads := Threads.phrase h Threads.nil fun _ h => h
  rwa [List.append_nil] at hthreads

theorem Threads.started (h : Threads R ps is ts rest) {k : TokenKind} {p : String → Prop}
    (hk : t.kind = k) (hp : p t.text) (hd : k = .directive → ∀ text, p text)
    (hR : ∀ us, R ts us → SamePartner k ts us) (form : Form ph (.token k p :: ps)) :
    Started Agree is (t :: ts) rest fun us vs => Agree (t :: ts) us ∧ Spells Plain ph us vs :=
  (h.started_token hk hp hd hR).imp fun _ _ _ h => ⟨h.1, form.spells h.2⟩

end Sews

/-- The calls can be put into the tokens of a phrase, and then these spell what the pass makes of
it. In front of a list of statements a call may stand that has been put in. -/
def Sewn (r : Reporter) (plan : Plan) : Phrase Extent → List Token → List Token → Prop
  | .statement s, ts, rest => Started Agree (innerSeams r plan s) ts rest fun us vs =>
      Agree ts us ∧ Spells Plain (.statement (s.pass r plan)) us vs
  | .chained s, ts, rest => Started Agree (innerSeams r plan s) ts rest fun us vs =>
      Agree ts us ∧ Spells Plain (.chained (s.pass r plan)) us vs
  | .block stop body, ts, rest =>
    Sews Look (visitSeams r plan (visitAll body)) (.block stop (passBody r plan body)) ts rest
  | .inline body, ts, rest =>
    Sews Look (visitSeams r plan (visitAll body)) (.inline (passBody r plan body)) ts rest
  | .inlineMore body, ts, rest =>
    Sews Agree (visitSeams r plan (visitAll body)) (.inlineMore (passBody r plan body)) ts rest
  | .inlineElse body, ts, rest =>
    Sews Agree (visitSeams r plan (visitOptional body)) (.inlineElse (passBody? r plan body)) ts rest
  | .elseIfs clauses, ts, rest =>
    Sews Agree (visitSeams r plan (visitElseIfs clauses)) (.elseIfs (passElseIfs r plan clauses))
      ts rest
  | .maybe kind phrase, ts, rest => ∀ body, kind = .keyword .elseKw →
    phrase = body.map (.block (.block .branch)) →
    Sews Agree (visitSeams r plan (visitOptional body))
      (.maybe kind ((passBody? r plan body).map (.block (.block .branch)))) ts rest
  | .procedure decl, ts, rest =>
    Sews Agree (visitSeams r plan decl.visits) (.procedure (decl.pass r plan)) ts rest
  | .compileElseIfs clauses, ts, rest =>
    Sews Agree (visitSeams r plan (visitCompileElseIfs clauses))
      (.compileElseIfs (passCompileElseIfs r plan clauses)) ts rest
  | .compileElse body, ts, rest =>
    Sews Agree (visitSeams r plan (visitOptional body)) (.compileElse (passBody? r plan body))
      ts rest
  | _, _, _ => True

/-- A phrase that is spelled and sewn. -/
def Spun (r : Reporter) (plan : Plan) (ph : Phrase Extent) (ts rest : List Token) : Prop :=
  Spells Noted ph ts rest ∧ Sewn r plan ph ts rest

section Sewn

variable {r : Reporter} {plan : Plan} {s : Statement Extent} {stop : Stop}
  {body : List (Statement Extent)}

theorem sewn_blockNil (hend : rest = [] ∨ stop.atEnd (.ofTokens rest) = true)
    (hrest : pastSeparators ts = rest) : Sewn r plan (.block stop []) ts rest := by
  subst hrest
  have hu := unseparated_pastSeparators ts
  have h : Sews Look [] (.block stop []) (pastSeparators ts) (pastSeparators ts) :=
    Weaves.nil fun us ha => ⟨.inl ha, Form.blockNil.spells (.skip_none
      (Look.unseparated (.inl ha) hu) (.ahead (by rwa [ha.nil_iff, ha.atEnd]) .nil))⟩
  exact (Weaves.separators h fun _ _ h => h.1).imp fun us vs _ h => ⟨h.1, h.2.2.separated_block⟩

section Named

variable (hname : Name r.functionName) (hplan : plan.Sound)
include hname hplan

theorem sewn_blockCons
    (hopen : pastSeparators ts ≠ [] ∧ stop.atEnd (.ofTokens (pastSeparators ts)) = false)
    (hs : Spun r plan (.statement s) (pastSeparators ts) mid)
    (hend : (Cursor.ofTokens mid).atStatementEnd = true)
    (hbody : Spun r plan (.block stop body) mid rest) :
    Sewn r plan (.block stop (s :: body)) ts rest := by
  obtain ⟨j, -, laid⟩ := hs.1.note
  have hu := unseparated_pastSeparators ts
  have h := (hs.2.announced hs.1 hplan).append hbody.2 fun us vs h =>
    h.1.agree_of_atStatementEnd hend
  have hblock : Sews Look (visitSeams r plan (visitAll (s :: body)))
      (.block stop (passBody r plan (s :: body))) (pastSeparators ts) rest := by
    rw [visitAll, visitSeams_append]
    refine h.imp fun us vs _ happended => ?_
    obtain ⟨mid', hs, hlook, hbody⟩ := happended
    refine ⟨hs.look hname hplan laid, ?_⟩
    have hend' : (Cursor.ofTokens mid').atStatementEnd = true := by
      rwa [(hlook.agree_of_atStatementEnd hend).atStatementEnd]
    exact hs.block hname hplan hopen hu hend' hbody
  exact (Weaves.separators hblock fun _ _ h => h.1).imp fun us vs _ h =>
    ⟨h.1, h.2.2.separated_block⟩

theorem sewn_inline (hs : Spun r plan (.statement s) ts mid)
    (hbody : Spun r plan (.inlineMore body) mid rest) :
    Weaves Agree (visitSeams r plan (visitAll (s :: body))) ts rest fun us vs => Look ts us ∧
      ∃ s₀ body₀, passBody r plan (s :: body) = s₀ :: body₀ ∧
        Fits (Spells Plain) [.phrase (.statement s₀), .phrase (.inlineMore body₀)] us vs := by
  obtain ⟨j, -, laid⟩ := hs.1.note
  rw [visitAll, visitSeams_append]
  refine ((hs.2.announced hs.1 hplan).append hbody.2 fun us vs h => h.1).imp
    fun us vs _ happended => ?_
  obtain ⟨mid', hs, hagree, hbody⟩ := happended
  exact ⟨hs.look hname hplan laid, hs.inline hname hplan laid hbody⟩

end Named

theorem samePartner_of_nil {k : TokenKind} (hk : partners k = []) (ts us : List Token) :
    SamePartner k ts us := by
  simp [SamePartner, hk]

theorem sewn_elseIfs (here : Extent) {condition : Expr Extent} {clauses : List (ElseIf Extent)}
    {m₁ m₂ m₃ : List Token} (hcondition : Spells Noted (.value condition) ts m₁)
    (hthen : Spells Noted (.accepted (.keyword .thenKw)) m₁ m₂)
    (hbody : Sewn r plan (.block .branch body) m₂ m₃)
    (hclauses : Sewn r plan (.elseIfs clauses) m₃ rest) :
    Threads Agree [.value condition, .phrase (.accepted (.keyword .thenKw)),
        .phrase (.block .branch (passBody r plan body)),
        .phrase (.elseIfs (passElseIfs r plan clauses))]
      (visitSeams r plan (visitElseIfs (.mk here condition body :: clauses))) ts rest := by
  have h₃ := Threads.phrase hbody (Sews.threads hclauses) fun _ h => h
  have h₂ := Threads.plain (hthen.weaves_accepted (by decide)) h₃ fun _ h => h
  have h₁ := Threads.plain hcondition.weaves_value h₂ fun _ h => h
  exact Weaves.congr h₁ (by simp [visitElseIfs, ElseIf.visits, visitSeams, Visit.seams])

theorem sewn_blockBranch {here : Extent} {condition : Expr Extent}
    {thenBody : List (Statement Extent)} {elseIfs : List (ElseIf Extent)}
    {elseBody : Option (List (Statement Extent))} (hname : Name r.functionName) (hplan : plan.Sound)
    (fits : Fits (Spun r plan) [.keyword .ifKw, .value condition,
      .phrase (.accepted (.keyword .thenKw)),
      .ahead fun ts => (Cursor.ofTokens ts).atBlockForm = true, .phrase (.block .branch thenBody),
      .phrase (.elseIfs elseIfs),
      .phrase (.maybe (.keyword .elseKw) (elseBody.map (.block (.block .branch)))),
      .phrase (.close .branch)] ts rest) :
    Sewn r plan (.statement (.branch here condition thenBody elseIfs elseBody)) ts rest := by
  simp only [fits_token, fits_phrase, fits_ahead, fits_nil] at fits
  obtain ⟨t, ts, rfl, ht, -, m₁, hcondition, m₂, hthen, hform, m₃, hbody, m₄, helseIfs, m₅, helse, _,
    hclose, rfl⟩ := fits
  have h₅ := Threads.phrase (helse.2 elseBody rfl rfl) (Sews.threads hclose.1.weaves_agree) fun _ h => h
  have h₄ := Threads.phrase helseIfs.2 h₅ fun _ h => h
  have h₃ := (Threads.phrase hbody.2 h₄ fun _ h => h).ahead
    (p := fun ts => (Cursor.ofTokens ts).atBlockForm = true)
    fun us hlook => by rwa [hlook.atBlockForm]
  have h₂ := Threads.plain (hthen.1.weaves_accepted (by decide)) h₃ fun _ h => h
  have h₁ := Threads.phrase (hcondition.1.weaves_condition hname
    (hplan.condition (.branch here condition thenBody elseIfs elseBody))) h₂ fun _ h => h
  exact (h₁.started ht trivial (by simp) (fun _ _ => samePartner_of_nil rfl _ _)
    Form.blockBranch).congr (by simp [innerSeams, conditionSeams, Statement.inner])

theorem threads_condition {condition : Expr Extent} {line? : Option Nat} {is : List Seam}
    {ps : List (Part Extent)} (hname : Name r.functionName)
    (hline : ∀ line, line? = some line → line ≤ maxInteger)
    (hcondition : Spells Noted (.value condition) ts (t :: mid)) (ht : t.kind = .keyword .thenKw)
    (h : Threads Look ps is mid rest) :
    Threads Anyhow (.value (r.joined condition line?) :: .keyword .thenKw :: ps)
      (Seam.lead condition.here.span.start (r.opening line?)
        ++ Seam.trail condition.here.span.stop (Reporter.closing line?) ++ is) ts rest := by
  have hthen := h.kind ht fun _ _ => samePartner_of_nil rfl _ _
  exact Threads.phrase (hcondition.weaves_condition hname hline) hthen fun _ h => .inl h

theorem sewn_inlineBranch {here : Extent} {condition : Expr Extent}
    {thenBody : List (Statement Extent)} {elseBody : Option (List (Statement Extent))}
    (hname : Name r.functionName) (hplan : plan.Sound)
    (fits : Fits (Spun r plan) [.keyword .ifKw, .value condition, .keyword .thenKw,
      .ahead fun ts => (Cursor.ofTokens ts).atBlockForm = false, .phrase (.inline thenBody),
      .phrase (.inlineElse elseBody)] ts rest) :
    Sewn r plan (.statement (.branch here condition thenBody [] elseBody)) ts rest := by
  simp only [fits_token, fits_phrase, fits_ahead, fits_nil] at fits
  obtain ⟨t, ts, rfl, ht, -, _, hcondition, t₁, m₁, rfl, ht₁, -, hform, m₂, hbody, _, helse, rfl⟩ := fits
  have h₂ := (Threads.phrase hbody.2 (Sews.threads helse.2) fun _ h => h).ahead
    (p := fun ts => (Cursor.ofTokens ts).atBlockForm = false)
    fun us hlook => by rwa [hlook.atBlockForm]
  have h₁ := threads_condition hname
    (hplan.condition (.branch here condition thenBody [] elseBody)) hcondition.1 ht₁ h₂
  exact (h₁.started ht trivial (by simp) (fun _ _ => samePartner_of_nil rfl _ _)
    Form.inlineBranch).congr (by simp [innerSeams, conditionSeams, Statement.inner, visitElseIfs])

theorem sewn_chained {here : Extent} {condition : Expr Extent}
    {thenBody : List (Statement Extent)} {elseBody : Option (List (Statement Extent))}
    (hname : Name r.functionName) (hplan : plan.Sound)
    (fits : Fits (Spun r plan) [.keyword .elseIfKw, .value condition, .keyword .thenKw,
      .phrase (.inline thenBody), .phrase (.inlineElse elseBody)] ts rest) :
    Sewn r plan (.chained (.branch here condition thenBody [] elseBody)) ts rest := by
  simp only [fits_token, fits_phrase, fits_nil] at fits
  obtain ⟨t, ts, rfl, ht, -, _, hcondition, t₁, m₁, rfl, ht₁, -, m₂, hbody, _, helse, rfl⟩ := fits
  have h₂ := Threads.phrase hbody.2 (Sews.threads helse.2) fun _ h => h
  have h₁ := threads_condition hname
    (hplan.condition (.branch here condition thenBody [] elseBody)) hcondition.1 ht₁ h₂
  exact (h₁.started ht trivial (by simp) (fun _ _ => samePartner_of_nil rfl _ _)
    Form.chained).congr (by simp [innerSeams, conditionSeams, Statement.inner, visitElseIfs])

/-- An `if` that an `elseif` starts claims a line like any other, and gets no call in front. -/
theorem sewn_inlineElseIf (hplan : plan.Sound) (hk : kindOf ts = some (.keyword .elseIfKw))
    (hs : Spun r plan (.chained s) ts rest) : Sewn r plan (.inlineElse (some [s])) ts rest := by
  obtain ⟨j, -, laid⟩ := hs.1.note
  obtain ⟨t, ht, hstart⟩ := laid.head
  obtain ⟨_, form, -⟩ := hs.1.form
  cases form with
  | @chained here condition thenBody elseBody =>
    have hcode : plan.code (.branch here condition thenBody [] elseBody) = none :=
      Option.eq_none_iff_forall_not_mem.2 fun line hline => by cases (hplan.code _ line hline).1
    have hlead := hs.2.lead (.branch here condition thenBody [] elseBody) [] ht
    rw [← hstart] at hlead
    refine (hlead.imp ?_).congr ?_
    · rintro us vs - ⟨us₁, hprinted, hagree, hspells⟩
      obtain rfl := printed_nil.1 hprinted
      refine ⟨hagree, ?_⟩
      rw [passBody?, passBody, passBody, hcode]
      refine Form.inlineElseIf.spells (.ahead ?_ (.phrase hspells .nil))
      rwa [hagree.kindOf_eq]
    · rw [visitOptional, visitAll, visitAll, List.append_nil, visitSeams_visits, claimSeams, hcode]
      rfl

theorem sewn_closed {b : Block} (hbody : Sewn r plan (.block stop body) ts mid)
    (hclose : Spells Noted (.close b) mid rest) :
    Threads Look [.phrase (.block stop (passBody r plan body)), .phrase (.close b)]
      (visitSeams r plan (visitAll body)) ts rest := by
  have h := Threads.phrase hbody (Sews.threads hclose.weaves_agree) fun _ h => h
  exact Weaves.congr h (List.append_nil _)

theorem sewn_forLoop {here : Extent} {counter : String} {first last : Expr Extent}
    {step : Option (Expr Extent)}
    (fits : Fits (Spun r plan) [.keyword .forKw, .name counter, .symbol .equals, .value first,
      .keyword .toKw, .value last, .phrase (.maybe (.keyword .stepKw) (step.map .value)),
      .phrase (.block (.block .forLoop) body), .phrase (.close .forLoop)] ts rest) :
    Sewn r plan (.statement (.forLoop here counter first last step body)) ts rest := by
  simp only [fits_token, fits_phrase, fits_nil] at fits
  obtain ⟨t, _, rfl, ht, -, t₁, _, rfl, ht₁, hcounter, t₂, ts, rfl, ht₂, -, _, hfirst, t₃, m₁, rfl,
    ht₃, -, m₂, hlast, m₃, hstep, m₄, hbody, _, hclose, rfl⟩ := fits
  have h₇ := sewn_closed hbody.2 hclose.1
  have h₆ := Threads.plain (hstep.1.weaves_maybe (by decide) ?_) h₇ fun _ h => h
  · have h₅ := Threads.plain hlast.1.weaves_value h₆ fun _ h => h
    have h₄ := h₅.kind ht₃ fun _ _ => samePartner_of_nil rfl _ _
    have h₃ := Threads.plain hfirst.1.weaves_value h₄ fun _ h => .inl h
    have h₂ := h₃.kind ht₂ fun _ _ => samePartner_of_nil rfl _ _
    have h₁ := h₂.name ht₁ hcounter
    exact (Threads.started h₁ ht trivial (by simp) (fun _ _ => samePartner_of_nil rfl _ _)
      Form.forLoop).congr (by simp [innerSeams, conditionSeams, Statement.inner])
  · rintro _ hsome xs hspells us vs halikes hlook
    obtain ⟨e, -, rfl⟩ := Option.map_eq_some_iff.1 hsome
    exact (hspells.value_of_look halikes hlook).2

theorem sewn_forEach {here : Extent} {item : String} {target : Expr Extent}
    (fits : Fits (Spun r plan) [.keyword .forKw, .keyword .eachKw, .name item, .keyword .inKw,
      .value target, .phrase (.block (.block .forLoop) body), .phrase (.close .forLoop)] ts rest) :
    Sewn r plan (.statement (.forEach here item target body)) ts rest := by
  simp only [fits_token, fits_phrase, fits_nil] at fits
  obtain ⟨t, _, rfl, ht, -, t₁, _, rfl, ht₁, -, t₂, _, rfl, ht₂, hitem, t₃, ts, rfl, ht₃, -, m₁,
    htarget, m₂, hbody, _, hclose, rfl⟩ := fits
  have h₄ := Threads.plain htarget.1.weaves_value (sewn_closed hbody.2 hclose.1) fun _ h => h
  have h₃ := h₄.kind ht₃ fun _ _ => samePartner_of_nil rfl _ _
  have h₂ := h₃.name ht₂ hitem
  have h₁ := h₂.kind ht₁ fun _ _ => samePartner_of_nil rfl _ _
  exact h₁.started ht trivial (by simp) (fun _ _ => samePartner_of_nil rfl _ _) Form.forEach

theorem sewn_whileLoop {here : Extent} {condition : Expr Extent}
    (fits : Fits (Spun r plan) [.keyword .whileKw, .value condition,
      .phrase (.block (.block .whileLoop) body), .phrase (.close .whileLoop)] ts rest) :
    Sewn r plan (.statement (.whileLoop here condition body)) ts rest := by
  simp only [fits_token, fits_phrase, fits_nil] at fits
  obtain ⟨t, ts, rfl, ht, -, m₁, hcondition, m₂, hbody, _, hclose, rfl⟩ := fits
  have h₁ := Threads.plain hcondition.1.weaves_value (sewn_closed hbody.2 hclose.1) fun _ h => h
  exact h₁.started ht trivial (by simp) (fun _ _ => samePartner_of_nil rfl _ _) Form.whileLoop

theorem sewn_procedure {keyword : ProcedureKind} {params : List (Parameter Extent)}
    {returns : Option String}
    (fits : Fits (Spun r plan) [.symbol .leftParen,
      .phrase (.list .rightParen (params.map .parameter)), .symbol .rightParen,
      .phrase (.maybe (.keyword .asKw) (returns.map .word)),
      .phrase (.block (.block (.procedure keyword)) body), .phrase (.close (.procedure keyword))]
      ts rest) :
    Sewn r plan (.procedure (.mk keyword params returns body)) ts rest := by
  simp only [fits_token, fits_phrase, fits_nil] at fits
  obtain ⟨t, ts, rfl, ht, -, _, hparams, t₁, m₁, rfl, ht₁, -, m₂, hreturns, m₃, hbody, _, hclose,
    rfl⟩ := fits
  have h₄ := sewn_closed hbody.2 hclose.1
  have h₃ := Threads.plain (hreturns.1.weaves_maybe (by decide) ?_) h₄ fun _ h => h
  · have h₂ := h₃.kind ht₁ fun _ _ => samePartner_of_nil rfl _ _
    have h₁ := Threads.plain hparams.1.weaves_agree h₂ fun _ h => h
    exact (h₁.kind ht fun _ _ => samePartner_of_nil rfl _ _).sews Form.procedure
  · rintro _ hsome xs hspells us vs halikes -
    obtain ⟨n, -, rfl⟩ := Option.map_eq_some_iff.1 hsome
    exact hspells.transcribed _ _ halikes trivial

theorem sewn_namedProcedure {here : Extent} {n : String} {decl : Procedure Extent} {t₁ : Token}
    (ht : t.kind = .keyword decl.keyword.word) (ht₁ : t₁.kind = .identifier) (hn : t₁.text = n)
    (hdecl : Sewn r plan (.procedure decl) ts rest) :
    Sewn r plan (.statement (.procedure here n decl)) (t :: t₁ :: ts) rest := by
  obtain ⟨keyword, params, returns, body⟩ := decl
  have h := (Sews.threads hdecl).name ht₁ hn
  refine h.started ht trivial (by simp) (fun _ _ => samePartner_of_nil ?_ _ _) Form.namedProcedure
  cases keyword <;> rfl

theorem sewn_compileIf {here : Extent} {condition : String} {thenBody : List (Statement Extent)}
    {elseIfs : List (CompileElseIf Extent)} {elseBody : Option (List (Statement Extent))}
    (fits : Fits (Spun r plan)
      [.line fun d => d.kind = some .ifDir ∧ String.ofList d.args = condition,
        .phrase (.block .directive thenBody), .phrase (.compileElseIfs elseIfs),
        .phrase (.compileElse elseBody), .line fun d => d.kind = some .endIfDir] ts rest) :
    Sewn r plan (.statement (.compileIf here condition thenBody elseIfs elseBody)) ts rest := by
  simp only [fits_line, fits_phrase, fits_nil] at fits
  obtain ⟨t, ts, rfl, ht, hif, m₁, hbody, m₂, helseIfs, _, helse, t₁, _, rfl, ht₁, hend, rfl⟩ := fits
  have h₃ := Threads.phrase helse.2
    (Threads.nil.started_line (p := fun d => d.kind = some .endIfDir) ht₁ hend).weaves fun _ h => h
  have h₂ := Threads.phrase helseIfs.2 h₃ fun _ h => h
  have h₁ := Threads.phrase hbody.2 h₂ fun _ h => h
  exact ((h₁.started_line ht hif).imp fun _ _ _ h => ⟨h.1, Form.compileIf.spells h.2⟩).congr
    (by simp [innerSeams, conditionSeams, Statement.inner])

theorem sewn_leaf (h : Spells Noted (.statement s) ts rest) (hpass : s.pass r plan = s)
    (hinner : innerSeams r plan s = []) : Sewn r plan (.statement s) ts rest := by
  obtain ⟨j, hrest, laid⟩ := h.note
  have hne : ts ≠ rest := by
    intro heq
    have hlength := congrArg List.length (heq.trans hrest)
    have hlt := laid.lt
    have hle := laid.le_length
    rw [List.length_drop] at hlength
    omega
  rw [Sewn, hpass, hinner]
  exact h.started hne fun us vs ha hr => ⟨ha.agree hr, h.transcribed us vs ha (.inl hr)⟩

theorem Form.sewn {ph : Phrase Extent} {ps : List (Part Extent)} (hname : Name r.functionName)
    (hplan : plan.Sound) (form : Form ph ps) (hnote : Noted ph ts rest)
    (fits : Fits (Spun r plan) ps ts rest) : Sewn r plan ph ts rest := by
  have hspells : Spells Noted ph ts rest := .mk form (fits.imp fun _ _ _ h => h.1) hnote
  -- A statement without others in it is left as it is. The last line takes those together.
  cases form
  case blockNil =>
    simp only [fits_skip, fits_ahead, fits_nil] at fits
    obtain ⟨hend, rfl⟩ := fits
    exact sewn_blockNil hend rfl
  case blockCons =>
    simp only [fits_skip, fits_ahead, fits_phrase, fits_nil] at fits
    obtain ⟨hopen, mid, hs, hend, _, hbody, rfl⟩ := fits
    exact sewn_blockCons hname hplan hopen hs hend hbody
  case namedProcedure =>
    simp only [fits_token, fits_phrase, fits_nil] at fits
    obtain ⟨t, _, rfl, ht, -, t₁, ts, rfl, ht₁, hn, _, hdecl, rfl⟩ := fits
    exact sewn_namedProcedure ht ht₁ hn hdecl.2
  case procedure => exact sewn_procedure fits
  case blockBranch => exact sewn_blockBranch hname hplan fits
  case inlineBranch => exact sewn_inlineBranch hname hplan fits
  case chained => exact sewn_chained hname hplan fits
  case elseIfsOne here _ _ _ =>
    simp only [fits_token, fits_phrase, fits_nil] at fits
    obtain ⟨t, ts, rfl, ht, -, _, hcondition, _, hthen, _, hbody, _, hclauses, rfl⟩ := fits
    have h := sewn_elseIfs here hcondition.1 hthen.1 hbody.2 hclauses.2
    exact (h.kind ht fun _ _ => samePartner_of_nil rfl _ _).sews Form.elseIfsOne
  case elseIfsTwo here _ _ _ =>
    simp only [fits_token, fits_phrase, fits_nil] at fits
    obtain ⟨t, _, rfl, ht, -, t₁, ts, rfl, ht₁, -, _, hcondition, _, hthen, _, hbody, _, hclauses,
      rfl⟩ := fits
    have h := (sewn_elseIfs here hcondition.1 hthen.1 hbody.2 hclauses.2).kind ht₁
      fun _ _ => samePartner_of_nil rfl _ _
    exact (h.kind ht fun _ hagree => hagree.samePartner _).sews Form.elseIfsTwo
  case inline =>
    simp only [fits_phrase, fits_nil] at fits
    obtain ⟨mid, hs, _, hbody, rfl⟩ := fits
    refine (sewn_inline hname hplan hs hbody).imp fun us vs _ hinline => ?_
    obtain ⟨hlook, s₀, body₀, heq, fits⟩ := hinline
    rw [heq]
    exact ⟨hlook, Form.inline.spells fits⟩
  case inlineCons =>
    simp only [fits_token, fits_phrase, fits_ahead, fits_nil] at fits
    obtain ⟨t, ts, rfl, ht, -, hgoes, mid, hs, _, hbody, rfl⟩ := fits
    refine ((sewn_inline hname hplan hs hbody).cons t).weaves.imp ?_
    rintro _ vs - ⟨u, us, rfl, halike, hlook, s₀, body₀, heq, fits⟩
    rw [heq]
    exact ⟨.cons halike (samePartner_of_nil (ht ▸ rfl) _ _), Form.inlineCons.spells
      (.token (halike.kind ▸ ht) trivial (.ahead (hlook.atInlineEnd hgoes) fits))⟩
  case inlineElse =>
    simp only [fits_token, fits_phrase, fits_nil] at fits
    obtain ⟨t, ts, rfl, ht, -, _, hbody, rfl⟩ := fits
    exact ((Sews.threads hbody.2).kind ht fun _ hlook => hlook.samePartner (by decide)).sews
      Form.inlineElse
  case inlineElseIf =>
    simp only [fits_ahead, fits_phrase, fits_nil] at fits
    obtain ⟨hk, _, hs, rfl⟩ := fits
    exact sewn_inlineElseIf hplan hk hs
  case maybeNone =>
    rintro (_ | _) - hbody
    · exact hspells.weaves_agree
    · cases hbody
  case maybeSome =>
    rintro (_ | body) rfl hbody
    · cases hbody
    · cases hbody
      simp only [fits_token, fits_phrase, fits_nil] at fits
      obtain ⟨t, ts, rfl, ht, -, _, hbody, rfl⟩ := fits
      exact ((Sews.threads hbody.2).kind ht fun _ hlook => hlook.samePartner (by decide)).sews
        Form.maybeSome
  case forLoop => exact sewn_forLoop fits
  case forEach => exact sewn_forEach fits
  case whileLoop => exact sewn_whileLoop fits
  case compileIf => exact sewn_compileIf fits
  case compileElseIfsCons =>
    simp only [fits_line, fits_phrase, fits_nil] at fits
    obtain ⟨t, ts, rfl, ht, hline, _, hbody, _, hclauses, rfl⟩ := fits
    have h := Threads.phrase hbody.2 (Sews.threads hclauses.2) fun _ h => h
    refine ((h.started_line ht hline).weaves.imp fun _ _ _ h =>
      ⟨h.1, Form.compileElseIfsCons.spells h.2⟩).congr ?_
    rw [visitCompileElseIfs, visitSeams_append]
    rfl
  case compileElse =>
    simp only [fits_line, fits_phrase, fits_nil] at fits
    obtain ⟨t, ts, rfl, ht, hline, _, hbody, rfl⟩ := fits
    exact ((Sews.threads hbody.2).started_line ht hline).weaves.imp fun _ _ _ h =>
      ⟨h.1, Form.compileElse.spells h.2⟩
  case inlineNil | inlineEnd | noElse | elseIfsNil | compileElseIfsNil | compileElseNone =>
    exact hspells.weaves_agree
  all_goals first | trivial | exact sewn_leaf hspells rfl rfl

/-- Every phrase that is spelled can be sewn. -/
theorem Spells.sewn {ph : Phrase Extent} (hname : Name r.functionName) (hplan : plan.Sound)
    (h : Spells Noted ph ts rest) : Sewn r plan ph ts rest :=
  Spells.induct (Q := Sewn r plan)
    (fun _ _ _ _ form hnote fits => form.sewn hname hplan hnote fits) h

end Sewn

end BrightCoverage
