import BrightCoverage.Proofs.Erasing

/-! Erasing what a pass puts in. Out of what a pass makes of a tree in which there is nothing to take
out, an eraser takes calls of the pass: what is left is what the pass makes of the tree by a plan
without these calls. -/

namespace BrightCoverage

variable {x : Eraser}

/-- A plan without the calls that are taken out. -/
def Plan.without (x : Eraser) (plan : Plan) : Plan where
  code s := (plan.code s).filter fun line => !x.drops line .code
  condition s := (plan.condition s).filter fun line => !x.drops line .condition

def Plan.never : Plan where
  code _ := none
  condition _ := none

section Passes

variable {α : Type} {r : Reporter} {plan : Plan}

theorem eraseBody_append (body body' : List (Statement α)) :
    eraseBody x (body ++ body') = eraseBody x body ++ eraseBody x body' := by
  induction body with
  | nil => rfl
  | cons s rest ih =>
    simp only [List.cons_append, eraseBody, ih]
    split <;> rfl

theorem length_eraseBody_le (body : List (Statement α)) : (eraseBody x body).length ≤ body.length := by
  induction body with
  | nil => exact Nat.le_refl _
  | cons s rest ih =>
    simp only [eraseBody]
    split
    · exact Nat.le_succ_of_le ih
    · exact Nat.succ_le_succ ih

theorem eraseBody_eq_cons {s : Statement α} {rest : List (Statement α)}
    (h : eraseBody x (s :: rest) = s :: rest) :
    x.takesStatement s = false ∧ s.erase x = s ∧ eraseBody x rest = rest := by
  rw [eraseBody] at h
  split at h
  · have hle := length_eraseBody_le (x := x) rest
    rw [h, List.length_cons] at hle
    exact absurd hle (Nat.not_succ_le_self _)
  · next hs =>
    obtain ⟨herase, hrest⟩ := List.cons.inj h
    exact ⟨by simpa using hs, herase, hrest⟩

/-- No expression is what becomes of it when a call is joined to it. -/
theorem Expr.erase_ne_joined {here there : α} {call : Expr α} (e : Expr α) :
    e.erase x ≠ .binary here .and call (.grouped there e) := by
  intro h
  -- Each step goes down to the operand on the right, which has to be in parentheses again.
  match e, h with
  | .binary _ _ _ (.grouped _ inner), h =>
    obtain ⟨rfl, rfl, -, hright⟩ := Expr.binary.inj h
    exact Expr.erase_ne_joined inner (Expr.grouped.inj hright).2
termination_by sizeOf e

theorem Expr.erase_of_part {c : Expr α} (h : x.part (c.erase x) = c) : c.erase x = c := by
  unfold Eraser.part at h
  split at h
  · next hc =>
    split at h
    · subst h
      exact absurd hc (Expr.erase_ne_joined _)
    · rw [hc, h]
  · exact h

theorem Eraser.takesStatement_pass (s : Statement Extent) :
    x.takesStatement (s.pass r plan) = x.takesStatement s := by
  cases s <;> rfl

variable (hx : x.name = r.functionName)
include hx

theorem Eraser.takes_callExpr (here : Extent) (line : Nat) (kind : LineKind) :
    x.takes kind (r.callExpr here line kind) = x.drops line kind := by
  simp [Reporter.callExpr, takes, hx]

theorem eraseBody_before (here : Extent) (line : Option Nat) :
    eraseBody x (r.before here line) = r.before here (line.filter fun line => !x.drops line .code) := by
  cases line with
  | none => rfl
  | some line =>
    have htakes : x.takesStatement (.call here (r.callExpr here line .code)) = x.drops line .code :=
      Eraser.takes_callExpr hx here line .code
    rw [Reporter.before, eraseBody, htakes, Option.filter]
    cases x.drops line .code <;> rfl

theorem part_erase_joined {condition : Expr Extent} (h : x.part (condition.erase x) = condition)
    (line : Option Nat) : x.part ((r.joined condition line).erase x)
      = r.joined condition (line.filter fun line => !x.drops line .condition) := by
  cases line with
  | none => exact h
  | some line =>
    have htakes := Eraser.takes_callExpr hx condition.here line .condition
    show (if x.takes .condition (r.callExpr condition.here line .condition) then condition.erase x
      else .binary condition.here .and _ (.grouped condition.here (condition.erase x))) = _
    rw [htakes, Expr.erase_of_part h, Option.filter]
    cases x.drops line .condition <;> rfl

omit hx

mutual

theorem Statement.erase_pass (hx : x.name = r.functionName) : (s : Statement Extent) → s.erase x = s →
    (s.pass r plan).erase x = s.pass r (plan.without x)
  | .procedure here name decl, h => by
    simp only [Statement.pass, Statement.erase, decl.erase_pass hx (Statement.procedure.inj h).2.2]
  | .branch here condition thenBody elseIfs elseBody, h => by
    obtain ⟨-, hcondition, hthen, helseIfs, helse⟩ := Statement.branch.inj h
    simp only [Statement.pass, Statement.erase, part_erase_joined hx hcondition,
      erase_passBody hx thenBody hthen, erase_passElseIfs hx elseIfs helseIfs,
      erase_passBody? hx elseBody helse]
    rfl
  | .forLoop here counter first last step body, h => by
    obtain ⟨-, -, hfirst, hlast, hstep, hbody⟩ := Statement.forLoop.inj h
    simp only [Statement.pass, Statement.erase, hfirst, hlast, hstep, erase_passBody hx body hbody]
  | .forEach here item target body, h => by
    obtain ⟨-, -, htarget, hbody⟩ := Statement.forEach.inj h
    simp only [Statement.pass, Statement.erase, htarget, erase_passBody hx body hbody]
  | .whileLoop here condition body, h => by
    obtain ⟨-, hcondition, hbody⟩ := Statement.whileLoop.inj h
    simp only [Statement.pass, Statement.erase, hcondition, erase_passBody hx body hbody]
  | .compileIf here condition thenBody elseIfs elseBody, h => by
    obtain ⟨-, -, hthen, helseIfs, helse⟩ := Statement.compileIf.inj h
    simp only [Statement.pass, Statement.erase, erase_passBody hx thenBody hthen,
      erase_passCompileElseIfs hx elseIfs helseIfs, erase_passBody? hx elseBody helse]
  | .call .., h | .assign .., h | .assignMember .., h | .assignIndex .., h | .print .., h
  | .giveBack .., h | .increment .., h | .dim .., h | .goto .., h | .label .., h | .exit .., h
  | .endProgram .., h | .stop .., h | .library .., h | .directive .., h => h

theorem Procedure.erase_pass (hx : x.name = r.functionName) :
    (decl : Procedure Extent) → decl.erase x = decl →
    (decl.pass r plan).erase x = decl.pass r (plan.without x)
  | .mk keyword params returns body, h => by
    obtain ⟨-, hparams, -, hbody⟩ := Procedure.mk.inj h
    simp only [Procedure.pass, Procedure.erase, hparams, erase_passBody hx body hbody]

theorem erase_passBody (hx : x.name = r.functionName) :
    (body : List (Statement Extent)) → eraseBody x body = body →
    eraseBody x (passBody r plan body) = passBody r (plan.without x) body
  | [], _ => rfl
  | s :: rest, h => by
    obtain ⟨htakes, hs, hrest⟩ := eraseBody_eq_cons h
    rw [passBody, eraseBody_append, eraseBody_before hx, eraseBody, Eraser.takesStatement_pass,
      htakes, s.erase_pass hx hs, erase_passBody hx rest hrest]
    rfl

theorem erase_passBody? (hx : x.name = r.functionName) :
    (body : Option (List (Statement Extent))) → eraseBody? x body = body →
    eraseBody? x (passBody? r plan body) = passBody? r (plan.without x) body
  | none, _ => rfl
  | some body, h => by
    simp only [passBody?, eraseBody?, erase_passBody hx body (Option.some.inj h)]

theorem ElseIf.erase_pass (hx : x.name = r.functionName) :
    (clause : ElseIf Extent) → clause.erase x = clause →
    (clause.pass r plan).erase x = clause.pass r (plan.without x)
  | .mk keyword condition body, h => by
    obtain ⟨-, hcondition, hbody⟩ := ElseIf.mk.inj h
    simp only [ElseIf.pass, ElseIf.erase, hcondition, erase_passBody hx body hbody]

theorem erase_passElseIfs (hx : x.name = r.functionName) :
    (clauses : List (ElseIf Extent)) → eraseElseIfs x clauses = clauses →
    eraseElseIfs x (passElseIfs r plan clauses) = passElseIfs r (plan.without x) clauses
  | [], _ => rfl
  | clause :: rest, h => by
    obtain ⟨hclause, hrest⟩ := List.cons.inj h
    simp only [passElseIfs, eraseElseIfs, clause.erase_pass hx hclause, erase_passElseIfs hx rest hrest]

theorem CompileElseIf.erase_pass (hx : x.name = r.functionName) :
    (clause : CompileElseIf Extent) → clause.erase x = clause →
    (clause.pass r plan).erase x = clause.pass r (plan.without x)
  | .mk condition body, h => by
    simp only [CompileElseIf.pass, CompileElseIf.erase,
      erase_passBody hx body (CompileElseIf.mk.inj h).2]

theorem erase_passCompileElseIfs (hx : x.name = r.functionName) :
    (clauses : List (CompileElseIf Extent)) →
    eraseCompileElseIfs x clauses = clauses → eraseCompileElseIfs x (passCompileElseIfs r plan clauses)
      = passCompileElseIfs r (plan.without x) clauses
  | [], _ => rfl
  | clause :: rest, h => by
    obtain ⟨hclause, hrest⟩ := List.cons.inj h
    simp only [passCompileElseIfs, eraseCompileElseIfs, clause.erase_pass hx hclause,
      erase_passCompileElseIfs hx rest hrest]

end

end Passes

section Never

variable {r : Reporter}

mutual

theorem Statement.pass_never : (s : Statement Extent) → s.pass r .never = s
  | .procedure here name decl => by simp only [Statement.pass, decl.pass_never]
  | .branch here condition thenBody elseIfs elseBody => by
    simp only [Statement.pass, passBody_never thenBody, passElseIfs_never elseIfs,
      passBody?_never elseBody]
    rfl
  | .forLoop here counter first last step body => by
    simp only [Statement.pass, passBody_never body]
  | .forEach here item target body => by simp only [Statement.pass, passBody_never body]
  | .whileLoop here condition body => by simp only [Statement.pass, passBody_never body]
  | .compileIf here condition thenBody elseIfs elseBody => by
    simp only [Statement.pass, passBody_never thenBody, passCompileElseIfs_never elseIfs,
      passBody?_never elseBody]
  | .call .. | .assign .. | .assignMember .. | .assignIndex .. | .print .. | .giveBack ..
  | .increment .. | .dim .. | .goto .. | .label .. | .exit .. | .endProgram .. | .stop ..
  | .library .. | .directive .. => rfl

theorem Procedure.pass_never : (decl : Procedure Extent) → decl.pass r .never = decl
  | .mk keyword params returns body => by simp only [Procedure.pass, passBody_never body]

theorem passBody_never : (body : List (Statement Extent)) → passBody r .never body = body
  | [] => rfl
  | s :: rest => by
    rw [passBody, s.pass_never, passBody_never rest]
    rfl

theorem passBody?_never : (body : Option (List (Statement Extent))) → passBody? r .never body = body
  | none => rfl
  | some body => by simp only [passBody?, passBody_never body]

theorem ElseIf.pass_never : (clause : ElseIf Extent) → clause.pass r .never = clause
  | .mk keyword condition body => by simp only [ElseIf.pass, passBody_never body]

theorem passElseIfs_never :
    (clauses : List (ElseIf Extent)) → passElseIfs r .never clauses = clauses
  | [] => rfl
  | clause :: rest => by simp only [passElseIfs, clause.pass_never, passElseIfs_never rest]

theorem CompileElseIf.pass_never : (clause : CompileElseIf Extent) → clause.pass r .never = clause
  | .mk condition body => by simp only [CompileElseIf.pass, passBody_never body]

theorem passCompileElseIfs_never :
    (clauses : List (CompileElseIf Extent)) → passCompileElseIfs r .never clauses = clauses
  | [] => rfl
  | clause :: rest => by
    simp only [passCompileElseIfs, clause.pass_never, passCompileElseIfs_never rest]

end

end Never

end BrightCoverage
