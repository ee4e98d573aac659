import BrightCoverage.Proofs.Erasing

/-! Forms of phrases that differ in reporting calls only. Where the phrases among the parts of a form
are replaced by others with which they agree but for the calls that an eraser takes out, the parts are
those of a form again, of a phrase that agrees with the first one likewise. -/

namespace BrightCoverage

variable {α : Type} {x : Eraser}

mutual

/-- A phrase without the calls that are taken out. -/
@[simp] def Phrase.erase (x : Eraser) : Phrase α → Phrase α
  | .expression e => .expression (e.erase x)
  | .value e => .value (e.erase x)
  | .argument e => .argument (e.erase x)
  | .entry entry => .entry (entry.erase x)
  | .parameter param => .parameter (param.erase x)
  | .word name => .word name
  | .list closing items => .list closing (erasePhrases x items)
  | .more items => .more (erasePhrases x items)
  | .items closing items => .items closing (erasePhrases x items)
  | .maybe kind phrase => .maybe kind (erasePhrase? x phrase)
  | .accepted kind => .accepted kind
  | .procedure decl => .procedure (decl.erase x)
  | .statement s => .statement (s.erase x)
  | .chained s => .chained (s.erase x)
  | .block stop body => .block stop (eraseBody x body)
  | .inline body => .inline (eraseBody x body)
  | .inlineMore body => .inlineMore (eraseBody x body)
  | .inlineElse body => .inlineElse (eraseBody? x body)
  | .elseIfs clauses => .elseIfs (eraseElseIfs x clauses)
  | .close b => .close b
  | .separators last => .separators last
  | .printed items => .printed (erasePrintItems x items)
  | .compileElseIfs clauses => .compileElseIfs (eraseCompileElseIfs x clauses)
  | .compileElse body => .compileElse (eraseBody? x body)

def erasePhrases (x : Eraser) : List (Phrase α) → List (Phrase α)
  | [] => []
  | ph :: rest => ph.erase x :: erasePhrases x rest

def erasePhrase? (x : Eraser) : Option (Phrase α) → Option (Phrase α)
  | none => none
  | some ph => some (ph.erase x)

end

/-- Parts among which phrases are replaced by others that differ in calls only. -/
inductive Alters (x : Eraser) : List (Part α) → List (Part α) → Prop
  | nil : Alters x [] []
  | same {p : Part α} {ps qs : List (Part α)} : Alters x ps qs → Alters x (p :: ps) (p :: qs)
  | phrase {ph ph' : Phrase α} {ps qs : List (Part α)} : ph'.erase x = ph.erase x →
    Alters x ps qs → Alters x (.phrase ph :: ps) (.phrase ph' :: qs)

section Alters

variable {ps qs : List (Part α)}

@[simp] theorem alters_nil : Alters x [] qs ↔ qs = [] := by
  constructor
  · intro h
    cases h
    rfl
  · rintro rfl
    exact .nil

theorem alters_cons {p : Part α} (hp : ∀ ph, p ≠ .phrase ph) :
    Alters x (p :: ps) qs ↔ ∃ qs', qs = p :: qs' ∧ Alters x ps qs' := by
  constructor
  · intro h
    cases h with
    | same h => exact ⟨_, rfl, h⟩
    | phrase _ _ => exact absurd rfl (hp _)
  · rintro ⟨qs', rfl, h⟩
    exact .same h

@[simp] theorem alters_token {k : TokenKind} {p : String → Prop} :
    Alters x (.token k p :: ps) qs ↔ ∃ qs', qs = .token k p :: qs' ∧ Alters x ps qs' :=
  alters_cons (by simp)

@[simp] theorem alters_word {n : String} :
    Alters x (.word n :: ps) qs ↔ ∃ qs', qs = .word n :: qs' ∧ Alters x ps qs' :=
  alters_cons (by simp)

@[simp] theorem alters_line {p : Directive → Prop} :
    Alters x (.line p :: ps) qs ↔ ∃ qs', qs = .line p :: qs' ∧ Alters x ps qs' :=
  alters_cons (by simp)

@[simp] theorem alters_skip {ks : List TokenKind} :
    Alters x (.skip ks :: ps) qs ↔ ∃ qs', qs = .skip ks :: qs' ∧ Alters x ps qs' :=
  alters_cons (by simp)

@[simp] theorem alters_ahead {p : List Token → Prop} :
    Alters x (.ahead p :: ps) qs ↔ ∃ qs', qs = .ahead p :: qs' ∧ Alters x ps qs' :=
  alters_cons (by simp)

@[simp] theorem alters_phrase {ph : Phrase α} : Alters x (.phrase ph :: ps) qs ↔
    ∃ ph' qs', qs = .phrase ph' :: qs' ∧ ph'.erase x = ph.erase x ∧ Alters x ps qs' := by
  constructor
  · intro h
    cases h with
    | same h => exact ⟨ph, _, rfl, rfl, h⟩
    | phrase he h => exact ⟨_, _, rfl, he, h⟩
  · rintro ⟨ph', qs', rfl, he, h⟩
    exact .phrase he h

end Alters

/-! ### Phrases and what they are made of -/

section Wraps

variable {β : Type} {f : β → Phrase α} {er : β → β} {b : β} {ps qs : List (Part α)}

/-- A phrase that differs in calls only from one made of a part of a tree is made so of a part that
differs in calls only. -/
def Wraps (x : Eraser) (f : β → Phrase α) (er : β → β) : Prop :=
  ∀ q b, q.erase x = (f b).erase x ↔ ∃ b', q = f b' ∧ er b' = er b

theorem alters_wraps (h : Wraps x f er) : Alters x (.phrase (f b) :: ps) qs ↔
    ∃ b' qs', qs = .phrase (f b') :: qs' ∧ er b' = er b ∧ Alters x ps qs' := by
  rw [alters_phrase]
  constructor
  · rintro ⟨q, qs', rfl, hq, hrest⟩
    obtain ⟨b', rfl, hb⟩ := (h q b).1 hq
    exact ⟨b', qs', rfl, hb, hrest⟩
  · rintro ⟨b', qs', rfl, hb, hrest⟩
    exact ⟨f b', qs', rfl, (h _ b).2 ⟨b', rfl, hb⟩, hrest⟩

theorem wraps_expression : Wraps (α := α) x .expression (Expr.erase x) := fun q e => by
  cases q <;> simp [Phrase.erase]

theorem wraps_value : Wraps (α := α) x .value (Expr.erase x) := fun q e => by
  cases q <;> simp [Phrase.erase]

theorem wraps_argument : Wraps (α := α) x .argument (Expr.erase x) := fun q e => by
  cases q <;> simp [Phrase.erase]

theorem wraps_entry : Wraps (α := α) x .entry (Entry.erase x) := fun q entry => by
  cases q <;> simp [Phrase.erase]

theorem wraps_parameter : Wraps (α := α) x .parameter (Parameter.erase x) := fun q param => by
  cases q <;> simp [Phrase.erase]

theorem wraps_word : Wraps (α := α) x .word id := fun q n => by
  cases q <;> simp [Phrase.erase]

theorem wraps_accepted : Wraps (α := α) x .accepted id := fun q k => by
  cases q <;> simp [Phrase.erase]

theorem wraps_procedure : Wraps (α := α) x .procedure (Procedure.erase x) := fun q decl => by
  cases q <;> simp [Phrase.erase]

theorem wraps_statement : Wraps (α := α) x .statement (Statement.erase x) := fun q s => by
  cases q <;> simp [Phrase.erase]

theorem wraps_chained : Wraps (α := α) x .chained (Statement.erase x) := fun q s => by
  cases q <;> simp [Phrase.erase]

theorem wraps_block (stop : Stop) : Wraps (α := α) x (.block stop) (eraseBody x) := fun q body => by
  cases q <;> simp [Phrase.erase, and_assoc, eq_comm]

theorem wraps_inline : Wraps (α := α) x .inline (eraseBody x) := fun q body => by
  cases q <;> simp [Phrase.erase]

theorem wraps_inlineMore : Wraps (α := α) x .inlineMore (eraseBody x) := fun q body => by
  cases q <;> simp [Phrase.erase]

theorem wraps_inlineElse : Wraps (α := α) x .inlineElse (eraseBody? x) := fun q body => by
  cases q <;> simp [Phrase.erase]

theorem wraps_elseIfs : Wraps (α := α) x .elseIfs (eraseElseIfs x) := fun q clauses => by
  cases q <;> simp [Phrase.erase]

theorem wraps_close : Wraps (α := α) x .close id := fun q block => by
  cases q <;> simp [Phrase.erase]

theorem wraps_separators : Wraps (α := α) x .separators id := fun q last => by
  cases q <;> simp [Phrase.erase]

theorem wraps_printed : Wraps (α := α) x .printed (erasePrintItems x) := fun q items => by
  cases q <;> simp [Phrase.erase]

theorem wraps_compileElseIfs :
    Wraps (α := α) x .compileElseIfs (eraseCompileElseIfs x) := fun q clauses => by
  cases q <;> simp [Phrase.erase]

theorem wraps_compileElse : Wraps (α := α) x .compileElse (eraseBody? x) := fun q body => by
  cases q <;> simp [Phrase.erase]

theorem erasePhrases_eq_iff (h : Wraps x f er) (items : List (Phrase α)) (bs : List β) :
    erasePhrases x items = erasePhrases x (bs.map f) ↔
      ∃ bs' : List β, items = bs'.map f ∧ bs'.map er = bs.map er := by
  induction bs generalizing items with
  | nil => cases items <;> simp [erasePhrases]
  | cons b bs ih =>
    cases items with
    | nil => simp [erasePhrases]
    | cons q items =>
      simp only [List.map_cons, erasePhrases, List.cons.injEq, ih, h q b]
      constructor
      · rintro ⟨⟨b', rfl, hb⟩, bs', rfl, hbs⟩
        exact ⟨b' :: bs', rfl, by rw [List.map_cons, hb, hbs]⟩
      · rintro ⟨_ | ⟨b', bs'⟩, hitems, hbs⟩
        · cases hitems
        · obtain ⟨rfl, rfl⟩ := List.cons.inj hitems
          obtain ⟨hb, hbs⟩ := List.cons.inj hbs
          exact ⟨⟨b', rfl, hb⟩, bs', rfl, hbs⟩

theorem wraps_rest : Wraps (α := α) x .more (erasePhrases x) := fun q items => by
  cases q <;> simp [Phrase.erase]

theorem wraps_collection (closing : Symbol) :
    Wraps (α := α) x (.items closing) (erasePhrases x) := fun q items => by
  cases q <;> simp [Phrase.erase, and_assoc, eq_comm]

theorem wraps_list (h : Wraps x f er) (closing : Symbol) :
    Wraps x (fun bs => .list closing (bs.map f)) (List.map er) := fun q bs => by
  cases q <;> simp [Phrase.erase, erasePhrases_eq_iff h, and_assoc, eq_comm]

theorem wraps_more (h : Wraps x f er) : Wraps x (fun bs => .more (bs.map f)) (List.map er) :=
  fun q bs => by cases q <;> simp [Phrase.erase, erasePhrases_eq_iff h]

theorem wraps_items (h : Wraps x f er) (closing : Symbol) :
    Wraps x (fun bs => .items closing (bs.map f)) (List.map er) := fun q bs => by
  cases q <;> simp [Phrase.erase, erasePhrases_eq_iff h, and_assoc, eq_comm]

theorem wraps_maybe (h : Wraps x f er) (kind : TokenKind) :
    Wraps x (fun o => .maybe kind (o.map f)) (Option.map er) := fun q o => by
  cases q
  case maybe kind' ph =>
    cases ph <;> cases o <;> simp [Phrase.erase, erasePhrase?, h _ _, and_assoc, eq_comm]
  all_goals simp [Phrase.erase]

end Wraps

def Part.isPhrase : Part α → Bool
  | .phrase _ => true
  | _ => false

theorem Alters.eq_of_plain {ps qs : List (Part α)} (h : Alters x ps qs)
    (hp : ps.any Part.isPhrase = false) : qs = ps := by
  induction h with
  | nil => rfl
  | same _ ih => rw [ih (Bool.or_eq_false_iff.1 hp).2]
  | phrase _ _ _ => cases hp

theorem Form.erased {ph : Phrase α} {ps qs : List (Part α)} (form : Form ph ps)
    (h : Alters x ps qs) : ∃ ph', ph'.erase x = ph.erase x ∧ Form ph' qs := by
  by_cases hplain : ps.any Part.isPhrase = false
  · exact ⟨ph, rfl, h.eq_of_plain hplain ▸ form⟩
  -- What is left are the forms with phrases in them, one by one.
  cases form
  all_goals first
  | exact absurd rfl hplain
  | simp only [alters_token, alters_word, alters_line, alters_skip, alters_ahead, alters_nil,
      alters_wraps wraps_expression, alters_wraps wraps_value, alters_wraps wraps_accepted,
      alters_wraps wraps_procedure, alters_wraps wraps_statement,
      alters_wraps wraps_chained, alters_wraps (wraps_block _), alters_wraps wraps_inline,
      alters_wraps wraps_inlineMore, alters_wraps wraps_inlineElse, alters_wraps wraps_elseIfs,
      alters_wraps wraps_close, alters_wraps wraps_separators, alters_wraps wraps_printed,
      alters_wraps wraps_compileElseIfs, alters_wraps wraps_compileElse,
      alters_wraps (wraps_list wraps_argument _), alters_wraps (wraps_list wraps_parameter _),
      alters_wraps (wraps_more wraps_value), alters_wraps (wraps_items wraps_value _),
      alters_wraps (wraps_items wraps_entry _), alters_wraps (wraps_maybe wraps_value _),
      alters_wraps (wraps_maybe wraps_word _), alters_wraps (wraps_maybe (wraps_block _) _),
      Option.map_id, id_eq] at h
  case binary here op left right k hk hgrouped =>
    obtain ⟨left', _, rfl, hleft, _, rfl, right', _, rfl, hright, rfl⟩ := h
    refine ⟨.expression (.binary here op left' right'), ?_, .binary hk ⟨?_, ?_⟩⟩
    · simp only [Phrase.erase, Expr.erase, hleft, hright]
    · rw [Expr.edge_congr hleft]
      exact hgrouped.1
    · exact (Expr.above_congr hright _).2 hgrouped.2
  case unary here op operand k hk hgrouped =>
    obtain ⟨_, rfl, operand', _, rfl, hoperand, rfl⟩ := h
    refine ⟨.expression (.unary here op operand'), ?_, .unary hk ?_⟩
    · simp only [Phrase.erase, Expr.erase, hoperand]
    · exact (Expr.above_congr hoperand _).2 hgrouped
  case grouped here inner =>
    obtain ⟨_, rfl, _, rfl, inner', _, rfl, hinner, _, rfl, _, rfl, rfl⟩ := h
    refine ⟨.expression (.grouped here inner'), ?_, .grouped⟩
    simp only [Phrase.erase, Expr.erase, hinner]
  case call here callee args hgrouped =>
    obtain ⟨callee', _, rfl, hcallee, _, rfl, _, rfl, args', _, rfl, hargs, _, rfl, rfl⟩ := h
    refine ⟨.expression (.call here callee' args'), ?_, .call ?_⟩
    · simp only [Phrase.erase, Expr.erase, hcallee, eraseExprs_eq_map, hargs]
    · exact (Expr.isOperand_congr hcallee).trans hgrouped
  case member here object n hgrouped =>
    obtain ⟨object', _, rfl, hobject, _, rfl, _, rfl, rfl⟩ := h
    refine ⟨.expression (.member here object' n), ?_, .member ?_⟩
    · simp only [Phrase.erase, Expr.erase, hobject]
    · exact (Expr.isOperand_congr hobject).trans hgrouped
  case index here object index hgrouped =>
    obtain ⟨object', _, rfl, hobject, _, rfl, _, rfl, index', _, rfl, hindex, _, rfl, _, rfl,
      rfl⟩ := h
    refine ⟨.expression (.index here object' index'), ?_, .index ?_⟩
    · simp only [Phrase.erase, Expr.erase, hobject, hindex]
    · exact (Expr.isOperand_congr hobject).trans hgrouped
  case attr here object n hgrouped =>
    obtain ⟨object', _, rfl, hobject, _, rfl, _, rfl, rfl⟩ := h
    refine ⟨.expression (.attribute here object' n), ?_, .attr ?_⟩
    · simp only [Phrase.erase, Expr.erase, hobject]
    · exact (Expr.isOperand_congr hobject).trans hgrouped
  case array here items =>
    obtain ⟨_, rfl, items', _, rfl, hitems, _, rfl, rfl⟩ := h
    refine ⟨.expression (.array here items'), ?_, .array⟩
    simp only [Phrase.erase, Expr.erase, eraseExprs_eq_map, hitems]
  case assoc here entries =>
    obtain ⟨_, rfl, entries', _, rfl, hentries, _, rfl, rfl⟩ := h
    refine ⟨.expression (.assoc here entries'), ?_, .assoc⟩
    simp only [Phrase.erase, Expr.erase, eraseEntries_eq_map, hentries]
  case anonymous here decl =>
    obtain ⟨_, rfl, decl', _, rfl, hdecl, rfl⟩ := h
    refine ⟨.expression (.procedure here decl'), ?_, ?_⟩
    · simp only [Phrase.erase, Expr.erase, hdecl]
    · rw [← Procedure.keyword_congr hdecl]
      exact .anonymous
  case value e =>
    obtain ⟨e', _, rfl, he, _, rfl, rfl⟩ := h
    exact ⟨.value e', by simp only [Phrase.erase, he], .value⟩
  case argument e =>
    obtain ⟨_, rfl, e', _, rfl, he, _, rfl, rfl⟩ := h
    exact ⟨.argument e', by simp only [Phrase.erase, he], .argument⟩
  case stringKey key e =>
    obtain ⟨_, rfl, _, rfl, e', _, rfl, he, rfl⟩ := h
    exact ⟨.entry (.mk key e'), by simp only [Phrase.erase, Entry.erase, he], .stringKey⟩
  case wordKey key e =>
    obtain ⟨_, rfl, _, rfl, _, rfl, e', _, rfl, he, rfl⟩ := h
    exact ⟨.entry (.mk key e'), by simp only [Phrase.erase, Entry.erase, he], .wordKey⟩
  case parameter n default type =>
    obtain ⟨_, rfl, default', _, rfl, hdefault, type', _, rfl, htype, rfl⟩ := h
    refine ⟨.parameter (.mk n default' type'), ?_, .parameter⟩
    simp only [Phrase.erase, Parameter.erase, eraseExpr?_eq_map, hdefault]
    simpa using htype
  case listCons closing item items =>
    obtain ⟨_, rfl, h⟩ := h
    obtain ⟨item', _, rfl, hitem, hrest⟩ := alters_phrase.1 h
    obtain ⟨items', _, rfl, hitems, hnil⟩ := (alters_wraps wraps_rest).1 hrest
    obtain rfl := alters_nil.1 hnil
    exact ⟨.list closing (item' :: items'),
      by simp only [Phrase.erase, erasePhrases, hitem, hitems], .listCons⟩
  case moreCons item items =>
    obtain ⟨_, rfl, h⟩ := h
    obtain ⟨item', _, rfl, hitem, hrest⟩ := alters_phrase.1 h
    obtain ⟨items', _, rfl, hitems, hnil⟩ := (alters_wraps wraps_rest).1 hrest
    obtain rfl := alters_nil.1 hnil
    exact ⟨.more (item' :: items'),
      by simp only [Phrase.erase, erasePhrases, hitem, hitems], .moreCons⟩
  case itemsLast closing item =>
    obtain ⟨_, rfl, _, rfl, h⟩ := h
    obtain ⟨item', _, rfl, hitem, hrest⟩ := alters_phrase.1 h
    obtain ⟨_, rfl, hnil⟩ := alters_ahead.1 hrest
    obtain rfl := alters_nil.1 hnil
    exact ⟨.items closing [item'], by simp only [Phrase.erase, erasePhrases, hitem], .itemsLast⟩
  case itemsComma closing item items =>
    obtain ⟨_, rfl, _, rfl, h⟩ := h
    obtain ⟨item', _, rfl, hitem, hrest⟩ := alters_phrase.1 h
    obtain ⟨_, rfl, hmore⟩ := alters_token.1 hrest
    obtain ⟨items', _, rfl, hitems, hnil⟩ := (alters_wraps (wraps_collection closing)).1 hmore
    obtain rfl := alters_nil.1 hnil
    exact ⟨.items closing (item' :: items'),
      by simp only [Phrase.erase, erasePhrases, hitem, hitems], .itemsComma⟩
  case itemsNewline closing item items =>
    obtain ⟨_, rfl, _, rfl, h⟩ := h
    obtain ⟨item', _, rfl, hitem, hrest⟩ := alters_phrase.1 h
    obtain ⟨_, rfl, hmore⟩ := alters_ahead.1 hrest
    obtain ⟨items', _, rfl, hitems, hnil⟩ := (alters_wraps (wraps_collection closing)).1 hmore
    obtain rfl := alters_nil.1 hnil
    exact ⟨.items closing (item' :: items'),
      by simp only [Phrase.erase, erasePhrases, hitem, hitems], .itemsNewline⟩
  case maybeSome kind item =>
    obtain ⟨_, rfl, h⟩ := h
    obtain ⟨item', _, rfl, hitem, hnil⟩ := alters_phrase.1 h
    obtain rfl := alters_nil.1 hnil
    exact ⟨.maybe kind (some item'), by simp only [Phrase.erase, erasePhrase?, hitem], .maybeSome⟩
  case procedure keyword params returns body =>
    obtain ⟨_, rfl, params', _, rfl, hparams, _, rfl, returns', _, rfl, hreturns, body', _, rfl,
      hbody, _, _, rfl, rfl, rfl⟩ := h
    refine ⟨.procedure (.mk keyword params' returns' body'), ?_, .procedure⟩
    simp only [Phrase.erase, Procedure.erase, eraseParameters_eq_map, hparams, hbody]
    simpa using hreturns
  case blockCons stop s body =>
    obtain ⟨_, rfl, _, rfl, s', _, rfl, hs, _, rfl, body', _, rfl, hbody, rfl⟩ := h
    exact ⟨.block stop (s' :: body'), congrArg (Phrase.block stop) (eraseBody_cons_congr hs hbody), .blockCons⟩
  case nextWord =>
    obtain ⟨_, rfl, _, _, rfl, rfl, rfl⟩ := h
    exact ⟨.close .forLoop, rfl, .nextWord⟩
  case namedProcedure here n decl =>
    obtain ⟨_, rfl, _, rfl, decl', _, rfl, hdecl, rfl⟩ := h
    refine ⟨.statement (.procedure here n decl'), ?_, ?_⟩
    · simp only [Phrase.erase, Statement.erase, hdecl]
    · rw [← Procedure.keyword_congr hdecl]
      exact .namedProcedure
  case blockBranch here condition thenBody elseIfs elseBody =>
    obtain ⟨_, rfl, condition', _, rfl, hcondition, _, _, rfl, rfl, _, rfl, thenBody', _, rfl, hthen,
      elseIfs', _, rfl, helseIfs, elseBody', _, rfl, helse, _, _, rfl, rfl, rfl⟩ := h
    refine ⟨.statement (.branch here condition' thenBody' elseIfs' elseBody'), ?_, .blockBranch⟩
    simp only [Phrase.erase, Statement.erase, hcondition, hthen, helseIfs, eraseBody?_eq_map, helse]
  case inlineBranch here condition thenBody elseBody =>
    obtain ⟨_, rfl, condition', _, rfl, hcondition, _, rfl, _, rfl, thenBody', _, rfl, hthen,
      elseBody', _, rfl, helse, rfl⟩ := h
    refine ⟨.statement (.branch here condition' thenBody' [] elseBody'), ?_, .inlineBranch⟩
    simp only [Phrase.erase, Statement.erase, hcondition, hthen, helse]
  case chained here condition thenBody elseBody =>
    obtain ⟨_, rfl, condition', _, rfl, hcondition, _, rfl, thenBody', _, rfl, hthen, elseBody', _,
      rfl, helse, rfl⟩ := h
    refine ⟨.chained (.branch here condition' thenBody' [] elseBody'), ?_, .chained⟩
    simp only [Phrase.erase, Statement.erase, hcondition, hthen, helse]
  case elseIfsOne here condition body clauses =>
    obtain ⟨_, rfl, condition', _, rfl, hcondition, _, _, rfl, rfl, body', _, rfl, hbody, clauses', _,
      rfl, hclauses, rfl⟩ := h
    refine ⟨.elseIfs (.mk here condition' body' :: clauses'), ?_, .elseIfsOne⟩
    simp only [Phrase.erase, eraseElseIfs, ElseIf.erase, hcondition, hbody, hclauses]
  case elseIfsTwo here condition body clauses =>
    obtain ⟨_, rfl, _, rfl, condition', _, rfl, hcondition, _, _, rfl, rfl, body', _, rfl, hbody,
      clauses', _, rfl, hclauses, rfl⟩ := h
    refine ⟨.elseIfs (.mk here condition' body' :: clauses'), ?_, .elseIfsTwo⟩
    simp only [Phrase.erase, eraseElseIfs, ElseIf.erase, hcondition, hbody, hclauses]
  case inline s body =>
    obtain ⟨s', _, rfl, hs, body', _, rfl, hbody, rfl⟩ := h
    exact ⟨.inline (s' :: body'), congrArg Phrase.inline (eraseBody_cons_congr hs hbody), .inline⟩
  case inlineCons s body =>
    obtain ⟨_, rfl, _, rfl, s', _, rfl, hs, body', _, rfl, hbody, rfl⟩ := h
    exact ⟨.inlineMore (s' :: body'), congrArg Phrase.inlineMore (eraseBody_cons_congr hs hbody), .inlineCons⟩
  case inlineElse body =>
    obtain ⟨_, rfl, body', _, rfl, hbody, rfl⟩ := h
    exact ⟨.inlineElse (some body'), by simp only [Phrase.erase, eraseBody?, hbody], .inlineElse⟩
  case inlineElseIf s =>
    obtain ⟨_, rfl, s', _, rfl, hs, rfl⟩ := h
    have hone : eraseBody x [s'] = eraseBody x [s] := eraseBody_cons_congr hs rfl
    exact ⟨.inlineElse (some [s']), by simp only [Phrase.erase, eraseBody?, hone], .inlineElseIf⟩
  case forLoop here counter first last step body =>
    obtain ⟨_, rfl, _, rfl, _, rfl, first', _, rfl, hfirst, _, rfl, last', _, rfl, hlast, step', _,
      rfl, hstep, body', _, rfl, hbody, _, _, rfl, rfl, rfl⟩ := h
    refine ⟨.statement (.forLoop here counter first' last' step' body'), ?_, .forLoop⟩
    simp only [Phrase.erase, Statement.erase, hfirst, hlast, eraseExpr?_eq_map, hstep, hbody]
  case forEach here item target body =>
    obtain ⟨_, rfl, _, rfl, _, rfl, _, rfl, target', _, rfl, htarget, body', _, rfl, hbody, _, _, rfl,
      rfl, rfl⟩ := h
    refine ⟨.statement (.forEach here item target' body'), ?_, .forEach⟩
    simp only [Phrase.erase, Statement.erase, htarget, hbody]
  case whileLoop here condition body =>
    obtain ⟨_, rfl, condition', _, rfl, hcondition, body', _, rfl, hbody, _, _, rfl, rfl, rfl⟩ := h
    refine ⟨.statement (.whileLoop here condition' body'), ?_, .whileLoop⟩
    simp only [Phrase.erase, Statement.erase, hcondition, hbody]
  case callStatement here there callee args =>
    obtain ⟨_, rfl, e', _, rfl, he, _, rfl, _, rfl, rfl⟩ := h
    obtain ⟨callee', args', rfl⟩ := Expr.of_erase_call he
    exact ⟨.statement (.call here (.call there callee' args')),
      by simp only [Phrase.erase, Statement.erase, he], .callStatement⟩
  case assign here there n op e k hk =>
    obtain ⟨target', _, rfl, htarget, _, rfl, e', _, rfl, he, rfl⟩ := h
    obtain rfl := Expr.of_erase_identifier htarget
    exact ⟨.statement (.assign here n op e'), by simp only [Phrase.erase, Statement.erase, he],
      .assign hk⟩
  case assignMember here there object n op e k hk =>
    obtain ⟨_, rfl, target', _, rfl, htarget, _, rfl, e', _, rfl, he, rfl⟩ := h
    obtain ⟨object', rfl, hobject⟩ := Expr.of_erase_member htarget
    exact ⟨.statement (.assignMember here object' n op e'),
      by simp only [Phrase.erase, Statement.erase, hobject, he], .assignMember hk⟩
  case assignIndex here there object index op e k hk =>
    obtain ⟨_, rfl, target', _, rfl, htarget, _, rfl, e', _, rfl, he, rfl⟩ := h
    obtain ⟨object', index', rfl, hobject, hindex⟩ := Expr.of_erase_index htarget
    exact ⟨.statement (.assignIndex here object' index' op e'),
      by simp only [Phrase.erase, Statement.erase, hobject, hindex, he], .assignIndex hk⟩
  case increment here target htarget =>
    obtain ⟨_, rfl, target', _, rfl, he, _, rfl, rfl⟩ := h
    exact ⟨.statement (.increment here target' false),
      by simp only [Phrase.erase, Statement.erase, he],
      .increment ((Expr.isOperand_congr he).trans htarget)⟩
  case decrement here target htarget =>
    obtain ⟨_, rfl, target', _, rfl, he, _, rfl, rfl⟩ := h
    exact ⟨.statement (.increment here target' true),
      by simp only [Phrase.erase, Statement.erase, he],
      .decrement ((Expr.isOperand_congr he).trans htarget)⟩
  case print here items lead k hk =>
    obtain ⟨_, rfl, _, _, rfl, rfl, items', _, rfl, hitems, rfl⟩ := h
    exact ⟨.statement (.print here items'), by simp only [Phrase.erase, Statement.erase, hitems],
      .print hk⟩
  case lastSeparator last k hk =>
    obtain ⟨_, rfl, _, _, rfl, rfl, rfl⟩ := h
    exact ⟨.separators (some last), rfl, .lastSeparator hk⟩
  case separator last other k hk =>
    obtain ⟨_, rfl, _, _, rfl, rfl, rfl⟩ := h
    exact ⟨.separators (some last), rfl, .separator hk⟩
  case printedCons e _ items =>
    obtain ⟨_, rfl, e', _, rfl, he, last, _, rfl, rfl, items', _, rfl, hitems, rfl⟩ := h
    refine ⟨.printed (.mk e' last :: items'), ?_, .printedCons⟩
    simp only [Phrase.erase, erasePrintItems, PrintItem.erase, he, hitems]
  case giveBack here e =>
    obtain ⟨_, rfl, _, rfl, e', _, rfl, he, rfl⟩ := h
    exact ⟨.statement (.giveBack here (some e')),
      by simp only [Phrase.erase, Statement.erase, eraseExpr?, he], .giveBack⟩
  case dim here n size sizes =>
    obtain ⟨_, rfl, _, rfl, _, rfl, size', _, rfl, hsize, sizes', _, rfl, hsizes, _, rfl, rfl⟩ := h
    refine ⟨.statement (.dim here n (size' :: sizes')), ?_, .dim⟩
    simp only [Phrase.erase, Statement.erase, eraseExprs_eq_map, List.map_cons, hsize, hsizes]
  case compileIf here condition thenBody elseIfs elseBody =>
    obtain ⟨_, rfl, thenBody', _, rfl, hthen, elseIfs', _, rfl, helseIfs, elseBody', _, rfl, helse, _,
      rfl, rfl⟩ := h
    refine ⟨.statement (.compileIf here condition thenBody' elseIfs' elseBody'), ?_, .compileIf⟩
    simp only [Phrase.erase, Statement.erase, hthen, helseIfs, helse]
  case compileElseIfsCons condition body clauses =>
    obtain ⟨_, rfl, body', _, rfl, hbody, clauses', _, rfl, hclauses, rfl⟩ := h
    refine ⟨.compileElseIfs (.mk condition body' :: clauses'), ?_, .compileElseIfsCons⟩
    simp only [Phrase.erase, eraseCompileElseIfs, CompileElseIf.erase, hbody, hclauses]
  case compileElse body =>
    obtain ⟨_, rfl, body', _, rfl, hbody, rfl⟩ := h
    exact ⟨.compileElse (some body'), by simp only [Phrase.erase, eraseBody?, hbody], .compileElse⟩

end BrightCoverage
