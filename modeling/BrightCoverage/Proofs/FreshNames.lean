import BrightCoverage.Proofs.ErasedForms
import BrightCoverage.Proofs.ReadingBack

/-! Trees in which a name does not occur. Where no token has the name of the reporting function there
is nothing to take out of the tree that the tokens spell. -/

namespace BrightCoverage

variable {x : Eraser} {ts rest : List Token}

/-- Nothing is taken out of an expression, wherever it may stand. -/
structure Expr.Fresh {α : Type} (x : Eraser) (e : Expr α) : Prop where
  erase : e.erase x = e
  named : ∀ here, e ≠ .identifier here x.name
  takes : ∀ kind, x.takes kind e = false
  part : x.part e = e

/-- Nothing is taken out of a phrase. -/
def Phrase.Fresh {α : Type} (x : Eraser) : Phrase α → Prop
  | .expression e | .value e => e.Fresh x
  | .statement s | .chained s => s.erase x = s ∧ x.takesStatement s = false
  | ph => ph.erase x = ph

theorem Phrase.Fresh.erase {α : Type} {ph : Phrase α} (h : ph.Fresh x) : ph.erase x = ph := by
  cases ph
  case expression e => exact congrArg Phrase.expression (Expr.Fresh.erase h)
  case value e => exact congrArg Phrase.value (Expr.Fresh.erase h)
  case statement s => exact congrArg Phrase.statement h.1
  case chained s => exact congrArg Phrase.chained h.1
  all_goals exact h

theorem Expr.fresh_of_erase {α : Type} {e : Expr α} (h : e.erase x = e)
    (he : match e with
      | .identifier .. | .call .. | .binary .. => False
      | _ => True) : e.Fresh x := by
  cases e
  case identifier | call | binary => exact he.elim
  all_goals exact ⟨h, by simp, fun _ => rfl, rfl⟩

theorem Expr.Fresh.call {α : Type} {here : α} {callee : Expr α} {args : List (Expr α)}
    (hcallee : callee.Fresh x) (hargs : eraseExprs x args = args) :
    (Expr.call here callee args).Fresh x := by
  refine ⟨by simp only [Expr.erase, hcallee.erase, hargs], by simp, fun kind => ?_, rfl⟩
  unfold Eraser.takes
  split
  · next heq =>
    obtain ⟨-, rfl, rfl⟩ := Expr.call.inj heq
    simp only [Bool.and_eq_false_iff, decide_eq_false_iff_not]
    exact .inl (.inl fun hn => hcallee.named _ (congrArg _ hn))
  · rfl

theorem Expr.Fresh.binary {α : Type} {here : α} {op : BinaryOp} {left right : Expr α}
    (hleft : left.Fresh x) (hright : right.Fresh x) : (Expr.binary here op left right).Fresh x := by
  refine ⟨by simp only [Expr.erase, hleft.erase, hright.erase], by simp, fun _ => rfl, ?_⟩
  unfold Eraser.part
  split
  · next heq =>
    obtain ⟨rfl, rfl, rfl, rfl⟩ := Expr.binary.inj heq
    rw [hleft.takes, if_neg Bool.false_ne_true]
  · rfl

section Items

variable {α β : Type} {f : β → Phrase α} {er : β → β}

theorem erasePhrases_map (hf : ∀ b, (f b).erase x = f (er b)) (hinj : Function.Injective f)
    (bs : List β) : erasePhrases x (bs.map f) = bs.map f ↔ bs.map er = bs := by
  induction bs with
  | nil => simp [erasePhrases]
  | cons b bs ih => simp [erasePhrases, hf, hinj.eq_iff, ih]

theorem erasePhrase?_map (hf : ∀ b, (f b).erase x = f (er b)) (hinj : Function.Injective f)
    (o : Option β) : erasePhrase? x (o.map f) = o.map f ↔ o.map er = o := by
  cases o <;> simp [erasePhrase?, hf, hinj.eq_iff]

theorem eraseBody_cons {α : Type} {s : Statement α} {body : List (Statement α)}
    (hs : s.erase x = s ∧ x.takesStatement s = false) (hbody : eraseBody x body = body) :
    eraseBody x (s :: body) = s :: body := by
  rw [eraseBody, if_neg (by simp [hs.2]), hs.1, hbody]

end Items

theorem Form.fresh {ph : Phrase Extent} {ps : List (Part Extent)} (form : Form ph ps)
    (hname : ∀ here, ph ≠ .expression (.identifier here x.name))
    (h : ∀ q, .phrase q ∈ ps → q.Fresh x) : ph.Fresh x := by
  have herase : ∀ q, .phrase q ∈ ps → q.erase x = q := fun q hq => (h q hq).erase
  have harguments := erasePhrases_map (x := x) (f := Phrase.argument (α := Extent)) (fun _ => rfl)
    fun _ _ => Phrase.argument.inj
  have hvalues := erasePhrases_map (x := x) (f := Phrase.value (α := Extent)) (fun _ => rfl)
    fun _ _ => Phrase.value.inj
  have hentries := erasePhrases_map (x := x) (f := Phrase.entry (α := Extent)) (fun _ => rfl)
    fun _ _ => Phrase.entry.inj
  have hparameters := erasePhrases_map (x := x) (f := Phrase.parameter (α := Extent)) (fun _ => rfl)
    fun _ _ => Phrase.parameter.inj
  have hvalue := erasePhrase?_map (x := x) (f := Phrase.value (α := Extent)) (fun _ => rfl)
    fun _ _ => Phrase.value.inj
  have hblock := erasePhrase?_map (x := x) (f := Phrase.block (α := Extent) (.block .branch))
    (fun _ => rfl) fun _ _ h => (Phrase.block.inj h).2
  cases form
  all_goals simp only [List.mem_cons, List.not_mem_nil, or_false, reduceCtorEq, Part.phrase.injEq,
    or_imp, forall_and, forall_eq, false_or, IsEmpty.forall_iff, implies_true, true_and, and_true,
    Phrase.erase, Phrase.expression.injEq, Phrase.value.injEq, Phrase.statement.injEq,
    Phrase.chained.injEq, Phrase.block.injEq, Phrase.inline.injEq, Phrase.inlineMore.injEq,
    Phrase.inlineElse.injEq, Phrase.elseIfs.injEq, Phrase.printed.injEq,
    Phrase.compileElseIfs.injEq, Phrase.compileElse.injEq, Phrase.procedure.injEq,
    Phrase.list.injEq, Phrase.more.injEq, Phrase.items.injEq, Phrase.maybe.injEq, harguments,
    hvalues, hentries, hparameters, hvalue, hblock] at h herase
  case identifier here n =>
    exact ⟨rfl, fun there heq => hname there (congrArg _ heq), fun _ => rfl, rfl⟩
  case binary => exact .binary h.1 h.2
  case call => exact .call h.1 ((eraseExprs_eq_map _).trans herase.2)
  case value => exact h
  case integer | hexInteger | float | string | isTrue | isFalse | invalid =>
    exact Expr.fresh_of_erase rfl trivial
  case unary | grouped | member | index | attr | array | assoc | anonymous =>
    exact Expr.fresh_of_erase
      (by simp only [Expr.erase, eraseExprs_eq_map, eraseEntries_eq_map, herase]) trivial
  case blockCons => exact congrArg (Phrase.block _) (eraseBody_cons h.1 herase.2)
  case inline => exact congrArg Phrase.inline (eraseBody_cons h.1 herase.2)
  case inlineCons => exact congrArg Phrase.inlineMore (eraseBody_cons h.1 herase.2)
  case inlineElseIf =>
    exact congrArg (fun body => Phrase.inlineElse (some body)) (eraseBody_cons h rfl)
  case blockBranch =>
    exact ⟨by simp only [Statement.erase, eraseBody?_eq_map, herase, Expr.Fresh.part h.1], rfl⟩
  case inlineBranch =>
    exact ⟨by simp only [Statement.erase, eraseElseIfs, herase, Expr.Fresh.part h.1], rfl⟩
  case chained =>
    exact ⟨by simp only [Statement.erase, eraseElseIfs, herase, Expr.Fresh.part h.1], rfl⟩
  case callStatement =>
    exact ⟨by simp only [Statement.erase, herase], Expr.Fresh.takes h .code⟩
  case assignMember =>
    have hobject := (Expr.member.inj herase.1).2.1
    exact ⟨by simp only [Statement.erase, hobject, herase.2], rfl⟩
  case assignIndex =>
    obtain ⟨-, hobject, hindex⟩ := Expr.index.inj herase.1
    exact ⟨by simp only [Statement.erase, hobject, hindex, herase.2], rfl⟩
  case compileIf => exact ⟨by simp only [Statement.erase, herase], rfl⟩
  all_goals simp [Phrase.Fresh, Phrase.erase, erasePhrases, erasePhrase?, Statement.erase,
    Entry.erase, Parameter.erase, Procedure.erase, ElseIf.erase, CompileElseIf.erase,
    PrintItem.erase, eraseBody, eraseBody?, eraseElseIfs, eraseCompileElseIfs, erasePrintItems,
    eraseExprs_eq_map, eraseExpr?_eq_map, eraseParameters_eq_map, Eraser.takesStatement, herase]

section Tokens

variable {N : Phrase Extent → List Token → List Token → Prop}

theorem Fits.fresh {ps : List (Part Extent)}
    (h : Fits (fun ph ts rest => Spells N ph ts rest ∧ ((∀ t ∈ ts, t.text ≠ x.name) → ph.Fresh x)) ps
      ts rest) (hts : ∀ t ∈ ts, t.text ≠ x.name) : ∀ q, .phrase q ∈ ps → q.Fresh x := by
  induction h with
  | nil => simp
  | token _ _ _ ih | word _ _ _ ih | line _ _ _ ih =>
    simpa using ih (List.forall_mem_cons.1 hts).2
  | skip _ ih => simpa using ih fun t ht => hts t ((List.dropWhile_suffix _).subset ht)
  | ahead _ _ ih => simpa using ih hts
  | phrase hph _ ih =>
    intro q hq
    rcases List.mem_cons.1 hq with heq | hq
    · obtain rfl := Part.phrase.inj heq
      exact hph.2 hts
    · exact ih (fun t ht => hts t (hph.1.suffix.subset ht)) q hq

/-- Nothing is taken out of what tokens spell among which the name does not occur. -/
theorem Spells.fresh {ph : Phrase Extent} (h : Spells N ph ts rest)
    (hts : ∀ t ∈ ts, t.text ≠ x.name) : ph.Fresh x := by
  refine Spells.induct (Q := fun ph ts _ => (∀ t ∈ ts, t.text ≠ x.name) → ph.Fresh x)
    (fun ph ps ts rest form _ fits hts => form.fresh ?_ (fits.fresh hts)) h hts
  rintro here rfl
  cases form
  obtain ⟨t, us, rfl, -, htext, -⟩ := fits_token.1 fits
  exact hts t List.mem_cons_self htext

end Tokens

end BrightCoverage
