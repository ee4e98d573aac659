import BrightCoverage.Coverage.Ownership
import BrightCoverage.Grammar.Shape

/-! Copies of trees. A copy has the form of its original, with its notes and its names changed: the
notes by one function, names and strings by another. The owners of the lines of a copy are copies of
owners, as the visits of a copy are the copied visits. -/

namespace BrightCoverage

variable {α β : Type}

mutual

def Expr.copy (f : α → β) (r : String → String) : Expr α → Expr β
  | .integer here value => .integer (f here) value
  | .float here bits => .float (f here) bits
  | .string here value => .string (f here) (r value)
  | .boolean here value => .boolean (f here) value
  | .invalid here => .invalid (f here)
  | .identifier here name => .identifier (f here) (r name)
  | .binary here op left right => .binary (f here) op (left.copy f r) (right.copy f r)
  | .unary here op operand => .unary (f here) op (operand.copy f r)
  | .grouped here inner => .grouped (f here) (inner.copy f r)
  | .call here callee args => .call (f here) (callee.copy f r) (copyExprs f r args)
  | .member here object name => .member (f here) (object.copy f r) (r name)
  | .index here object index => .index (f here) (object.copy f r) (index.copy f r)
  | .attribute here object name => .attribute (f here) (object.copy f r) (r name)
  | .array here items => .array (f here) (copyExprs f r items)
  | .assoc here entries => .assoc (f here) (copyEntries f r entries)
  | .procedure here decl => .procedure (f here) (decl.copy f r)

def copyExprs (f : α → β) (r : String → String) : List (Expr α) → List (Expr β)
  | [] => []
  | e :: rest => e.copy f r :: copyExprs f r rest

def copyExpr? (f : α → β) (r : String → String) : Option (Expr α) → Option (Expr β)
  | none => none
  | some e => some (e.copy f r)

def Entry.copy (f : α → β) (r : String → String) : Entry α → Entry β
  | .mk key value => .mk (r key) (value.copy f r)

def copyEntries (f : α → β) (r : String → String) : List (Entry α) → List (Entry β)
  | [] => []
  | entry :: rest => entry.copy f r :: copyEntries f r rest

def Procedure.copy (f : α → β) (r : String → String) : Procedure α → Procedure β
  | .mk keyword params returns body =>
    .mk keyword (copyParameters f r params) (returns.map r) (copyBody f r body)

def Parameter.copy (f : α → β) (r : String → String) : Parameter α → Parameter β
  | .mk name default type => .mk (r name) (copyExpr? f r default) (type.map r)

def copyParameters (f : α → β) (r : String → String) : List (Parameter α) → List (Parameter β)
  | [] => []
  | param :: rest => param.copy f r :: copyParameters f r rest

def Statement.copy (f : α → β) (r : String → String) : Statement α → Statement β
  | .procedure here name decl => .procedure (f here) (r name) (decl.copy f r)
  | .branch here condition thenBody elseIfs elseBody =>
    .branch (f here) (condition.copy f r) (copyBody f r thenBody) (copyElseIfs f r elseIfs)
      (copyBody? f r elseBody)
  | .forLoop here counter first last step body =>
    .forLoop (f here) (r counter) (first.copy f r) (last.copy f r) (copyExpr? f r step)
      (copyBody f r body)
  | .forEach here item target body =>
    .forEach (f here) (r item) (target.copy f r) (copyBody f r body)
  | .whileLoop here condition body => .whileLoop (f here) (condition.copy f r) (copyBody f r body)
  | .call here value => .call (f here) (value.copy f r)
  | .assign here name op value => .assign (f here) (r name) op (value.copy f r)
  | .assignMember here object name op value =>
    .assignMember (f here) (object.copy f r) (r name) op (value.copy f r)
  | .assignIndex here object index op value =>
    .assignIndex (f here) (object.copy f r) (index.copy f r) op (value.copy f r)
  | .print here items => .print (f here) (copyPrintItems f r items)
  | .giveBack here value => .giveBack (f here) (copyExpr? f r value)
  | .increment here target decrement => .increment (f here) (target.copy f r) decrement
  | .dim here name dimensions => .dim (f here) (r name) (copyExprs f r dimensions)
  | .goto here label => .goto (f here) (r label)
  | .label here name => .label (f here) (r name)
  | .exit here loop => .exit (f here) loop
  | .endProgram here => .endProgram (f here)
  | .stop here => .stop (f here)
  | .library here path => .library (f here) (r path)
  | .compileIf here condition thenBody elseIfs elseBody =>
    .compileIf (f here) (r condition) (copyBody f r thenBody) (copyCompileElseIfs f r elseIfs)
      (copyBody? f r elseBody)
  | .directive here name args => .directive (f here) (r name) (r args)

def copyBody (f : α → β) (r : String → String) : List (Statement α) → List (Statement β)
  | [] => []
  | s :: rest => s.copy f r :: copyBody f r rest

def copyBody? (f : α → β) (r : String → String) :
    Option (List (Statement α)) → Option (List (Statement β))
  | none => none
  | some body => some (copyBody f r body)

def ElseIf.copy (f : α → β) (r : String → String) : ElseIf α → ElseIf β
  | .mk keyword condition body => .mk (f keyword) (condition.copy f r) (copyBody f r body)

def copyElseIfs (f : α → β) (r : String → String) : List (ElseIf α) → List (ElseIf β)
  | [] => []
  | clause :: rest => clause.copy f r :: copyElseIfs f r rest

def CompileElseIf.copy (f : α → β) (r : String → String) : CompileElseIf α → CompileElseIf β
  | .mk condition body => .mk (r condition) (copyBody f r body)

def copyCompileElseIfs (f : α → β) (r : String → String) :
    List (CompileElseIf α) → List (CompileElseIf β)
  | [] => []
  | clause :: rest => clause.copy f r :: copyCompileElseIfs f r rest

def PrintItem.copy (f : α → β) (r : String → String) : PrintItem α → PrintItem β
  | .mk value separator => .mk (value.copy f r) separator

def copyPrintItems (f : α → β) (r : String → String) : List (PrintItem α) → List (PrintItem β)
  | [] => []
  | item :: rest => item.copy f r :: copyPrintItems f r rest

end

section Lists

variable (f : α → β) (r : String → String)

theorem copyExprs_eq_map (es : List (Expr α)) : copyExprs f r es = es.map (Expr.copy f r) := by
  induction es with
  | nil => rfl
  | cons e rest ih => simp only [copyExprs, List.map_cons, ih]

theorem copyExpr?_eq_map (e : Option (Expr α)) : copyExpr? f r e = e.map (Expr.copy f r) := by
  cases e <;> rfl

theorem copyEntries_eq_map (es : List (Entry α)) :
    copyEntries f r es = es.map (Entry.copy f r) := by
  induction es with
  | nil => rfl
  | cons e rest ih => simp only [copyEntries, List.map_cons, ih]

theorem copyParameters_eq_map (ps : List (Parameter α)) :
    copyParameters f r ps = ps.map (Parameter.copy f r) := by
  induction ps with
  | nil => rfl
  | cons p rest ih => simp only [copyParameters, List.map_cons, ih]

theorem copyBody_eq_map (body : List (Statement α)) :
    copyBody f r body = body.map (Statement.copy f r) := by
  induction body with
  | nil => rfl
  | cons s rest ih => simp only [copyBody, List.map_cons, ih]

theorem copyBody?_eq_map (body : Option (List (Statement α))) :
    copyBody? f r body = body.map (copyBody f r) := by
  cases body <;> rfl

theorem copyElseIfs_eq_map (clauses : List (ElseIf α)) :
    copyElseIfs f r clauses = clauses.map (ElseIf.copy f r) := by
  induction clauses with
  | nil => rfl
  | cons c rest ih => simp only [copyElseIfs, List.map_cons, ih]

theorem copyCompileElseIfs_eq_map (clauses : List (CompileElseIf α)) :
    copyCompileElseIfs f r clauses = clauses.map (CompileElseIf.copy f r) := by
  induction clauses with
  | nil => rfl
  | cons c rest ih => simp only [copyCompileElseIfs, List.map_cons, ih]

theorem copyPrintItems_eq_map (items : List (PrintItem α)) :
    copyPrintItems f r items = items.map (PrintItem.copy f r) := by
  induction items with
  | nil => rfl
  | cons item rest ih => simp only [copyPrintItems, List.map_cons, ih]

@[simp] theorem Expr.copy_here (e : Expr α) : (e.copy f r).here = f e.here := by
  cases e <;> rfl

@[simp] theorem Statement.copy_here (s : Statement α) : (s.copy f r).here = f s.here := by
  cases s <;> rfl

end Lists

mutual

theorem Expr.copy_id (f : α → β) : ∀ e : Expr α, e.copy f id = e.map f
  | .integer .. | .float .. | .string .. | .boolean .. | .invalid .. | .identifier .. => rfl
  | .binary _ _ left right => by simp only [Expr.copy, Expr.map, left.copy_id, right.copy_id]
  | .unary _ _ operand => by simp only [Expr.copy, Expr.map, operand.copy_id]
  | .grouped _ inner => by simp only [Expr.copy, Expr.map, inner.copy_id]
  | .call _ callee args => by
    simp only [Expr.copy, Expr.map, callee.copy_id, copyExprs_id f args]
  | .member _ object _ => by simp only [Expr.copy, Expr.map, object.copy_id, id]
  | .index _ object index => by simp only [Expr.copy, Expr.map, object.copy_id, index.copy_id]
  | .attribute _ object _ => by simp only [Expr.copy, Expr.map, object.copy_id, id]
  | .array _ items => by simp only [Expr.copy, Expr.map, copyExprs_id f items]
  | .assoc _ entries => by simp only [Expr.copy, Expr.map, copyEntries_id f entries]
  | .procedure _ decl => by simp only [Expr.copy, Expr.map, decl.copy_id]

theorem copyExprs_id (f : α → β) : ∀ es : List (Expr α), copyExprs f id es = mapExprs f es
  | [] => rfl
  | e :: rest => by simp only [copyExprs, mapExprs, e.copy_id, copyExprs_id f rest]

theorem copyExpr?_id (f : α → β) : ∀ e : Option (Expr α), copyExpr? f id e = mapExpr? f e
  | none => rfl
  | some e => by simp only [copyExpr?, mapExpr?, e.copy_id]

theorem Entry.copy_id (f : α → β) : ∀ e : Entry α, e.copy f id = e.map f
  | .mk _ value => by simp only [Entry.copy, Entry.map, value.copy_id, id]

theorem copyEntries_id (f : α → β) : ∀ es : List (Entry α), copyEntries f id es = mapEntries f es
  | [] => rfl
  | e :: rest => by simp only [copyEntries, mapEntries, e.copy_id, copyEntries_id f rest]

theorem Procedure.copy_id (f : α → β) : ∀ p : Procedure α, p.copy f id = p.map f
  | .mk _ params _ body => by
    simp only [Procedure.copy, Procedure.map, copyParameters_id f params, copyBody_id f body,
      Option.map_id_fun, id]

theorem Parameter.copy_id (f : α → β) : ∀ p : Parameter α, p.copy f id = p.map f
  | .mk _ default _ => by
    simp only [Parameter.copy, Parameter.map, copyExpr?_id f default, Option.map_id_fun, id]

theorem copyParameters_id (f : α → β) :
    ∀ ps : List (Parameter α), copyParameters f id ps = mapParameters f ps
  | [] => rfl
  | p :: rest => by simp only [copyParameters, mapParameters, p.copy_id, copyParameters_id f rest]

theorem Statement.copy_id (f : α → β) : ∀ s : Statement α, s.copy f id = s.map f
  | .procedure _ _ decl => by simp only [Statement.copy, Statement.map, decl.copy_id, id]
  | .branch _ condition thenBody elseIfs elseBody => by
    simp only [Statement.copy, Statement.map, condition.copy_id, copyBody_id f thenBody,
      copyElseIfs_id f elseIfs, copyBody?_id f elseBody]
  | .forLoop _ _ first last step body => by
    simp only [Statement.copy, Statement.map, first.copy_id, last.copy_id, copyExpr?_id f step,
      copyBody_id f body, id]
  | .forEach _ _ target body => by
    simp only [Statement.copy, Statement.map, target.copy_id, copyBody_id f body, id]
  | .whileLoop _ condition body => by
    simp only [Statement.copy, Statement.map, condition.copy_id, copyBody_id f body]
  | .call _ value | .assign _ _ _ value => by
    simp only [Statement.copy, Statement.map, value.copy_id, id]
  | .assignMember _ object _ _ value => by
    simp only [Statement.copy, Statement.map, object.copy_id, value.copy_id, id]
  | .assignIndex _ object index _ value => by
    simp only [Statement.copy, Statement.map, object.copy_id, index.copy_id, value.copy_id]
  | .print _ items => by simp only [Statement.copy, Statement.map, copyPrintItems_id f items]
  | .giveBack _ value => by simp only [Statement.copy, Statement.map, copyExpr?_id f value]
  | .increment _ target _ => by simp only [Statement.copy, Statement.map, target.copy_id]
  | .dim _ _ dimensions => by
    simp only [Statement.copy, Statement.map, copyExprs_id f dimensions, id]
  | .goto .. | .label .. | .exit .. | .endProgram .. | .stop .. | .library .. | .directive .. => rfl
  | .compileIf _ _ thenBody elseIfs elseBody => by
    simp only [Statement.copy, Statement.map, copyBody_id f thenBody,
      copyCompileElseIfs_id f elseIfs, copyBody?_id f elseBody, id]

theorem copyBody_id (f : α → β) : ∀ body : List (Statement α), copyBody f id body = mapBody f body
  | [] => rfl
  | s :: rest => by simp only [copyBody, mapBody, s.copy_id, copyBody_id f rest]

theorem copyBody?_id (f : α → β) :
    ∀ body : Option (List (Statement α)), copyBody? f id body = mapBody? f body
  | none => rfl
  | some body => by simp only [copyBody?, mapBody?, copyBody_id f body]

theorem ElseIf.copy_id (f : α → β) : ∀ c : ElseIf α, c.copy f id = c.map f
  | .mk _ condition body => by
    simp only [ElseIf.copy, ElseIf.map, condition.copy_id, copyBody_id f body]

theorem copyElseIfs_id (f : α → β) :
    ∀ cs : List (ElseIf α), copyElseIfs f id cs = mapElseIfs f cs
  | [] => rfl
  | c :: rest => by simp only [copyElseIfs, mapElseIfs, c.copy_id, copyElseIfs_id f rest]

theorem CompileElseIf.copy_id (f : α → β) : ∀ c : CompileElseIf α, c.copy f id = c.map f
  | .mk _ body => by simp only [CompileElseIf.copy, CompileElseIf.map, copyBody_id f body, id]

theorem copyCompileElseIfs_id (f : α → β) :
    ∀ cs : List (CompileElseIf α), copyCompileElseIfs f id cs = mapCompileElseIfs f cs
  | [] => rfl
  | c :: rest => by
    simp only [copyCompileElseIfs, mapCompileElseIfs, c.copy_id, copyCompileElseIfs_id f rest]

theorem PrintItem.copy_id (f : α → β) : ∀ i : PrintItem α, i.copy f id = i.map f
  | .mk value _ => by simp only [PrintItem.copy, PrintItem.map, value.copy_id]

theorem copyPrintItems_id (f : α → β) :
    ∀ is : List (PrintItem α), copyPrintItems f id is = mapPrintItems f is
  | [] => rfl
  | i :: rest => by simp only [copyPrintItems, mapPrintItems, i.copy_id, copyPrintItems_id f rest]

end

/-! ### The owners of lines -/

/-- The note that tells the line which the owner claims. -/
def Owner.here : Owner → Extent
  | .statement s => s.here
  | .elseIf clause => clause.keyword

def Owner.copy (f : Extent → Extent) (r : String → String) : Owner → Owner
  | .statement s => .statement (s.copy f r)
  | .elseIf clause => .elseIf (clause.copy f r)

@[simp] theorem Owner.copy_here (f : Extent → Extent) (r : String → String) (o : Owner) :
    (o.copy f r).here = f o.here := by
  cases o with
  | statement s => exact s.copy_here f r
  | elseIf clause => cases clause; rfl

def Visit.owner? : Visit → Option Owner
  | .claim _ owner => some owner
  | .passOver .. => none

/-- What claims lines in visits, in their order. -/
def claimants (visits : List Visit) : List Owner :=
  visits.filterMap Visit.owner?

@[simp] theorem claimants_append (vs ws : List Visit) :
    claimants (vs ++ ws) = claimants vs ++ claimants ws :=
  List.filterMap_append

@[simp] theorem claimants_byStatement (s : Statement Extent) (vs : List Visit) :
    claimants (.byStatement s :: vs) = .statement s :: claimants vs := rfl

@[simp] theorem claimants_past (s : Statement Extent) : claimants [.past s] = [] := rfl

section Visits

variable (f : Extent → Extent) (r : String → String)

mutual

theorem Statement.claimants_copy : ∀ s : Statement Extent,
    claimants (s.copy f r).visits = (claimants s.visits).map (Owner.copy f r)
  | .procedure _ _ (.mk _ _ _ body) => by
    simp only [Statement.copy, Procedure.copy, Statement.visits, Procedure.visits,
      claimants_copyBody body]
  | .branch _ _ thenBody elseIfs elseBody => by
    simp only [Statement.copy, Statement.visits, claimants_byStatement, claimants_append,
      claimants_copyBody thenBody, claimants_copyElseIfs elseIfs, claimants_copyBody? elseBody,
      List.map_cons, List.map_append, Owner.copy]
  | .forLoop _ _ _ _ _ body | .forEach _ _ _ body | .whileLoop _ _ body => by
    simp only [Statement.copy, Statement.visits, claimants_byStatement, claimants_copyBody body,
      List.map_cons, Owner.copy]
  | .compileIf _ _ thenBody elseIfs elseBody => by
    simp only [Statement.copy, Statement.visits, claimants_append, claimants_copyBody thenBody,
      claimants_copyCompileElseIfs elseIfs, claimants_copyBody? elseBody, List.map_append]
  | .call .. | .assign .. | .assignMember .. | .assignIndex .. | .print .. | .giveBack ..
  | .increment .. | .dim .. | .goto .. | .label .. | .exit .. | .endProgram .. | .stop ..
  | .library .. | .directive .. => rfl

theorem claimants_copyBody : ∀ body : List (Statement Extent),
    claimants (visitAll (copyBody f r body)) = (claimants (visitAll body)).map (Owner.copy f r)
  | [] => rfl
  | s :: rest => by
    simp only [copyBody, visitAll, claimants_append, s.claimants_copy, claimants_copyBody rest,
      List.map_append]

theorem claimants_copyBody? : ∀ body : Option (List (Statement Extent)),
    claimants (visitOptional (copyBody? f r body))
      = (claimants (visitOptional body)).map (Owner.copy f r)
  | none => rfl
  | some body => claimants_copyBody body

theorem claimants_copyElseIfs : ∀ clauses : List (ElseIf Extent),
    claimants (visitElseIfs (copyElseIfs f r clauses))
      = (claimants (visitElseIfs clauses)).map (Owner.copy f r)
  | [] => rfl
  | .mk _ _ body :: rest => by
    simp only [copyElseIfs, ElseIf.copy, visitElseIfs, ElseIf.visits, claimants_append,
      claimants_copyBody body, claimants_copyElseIfs rest, List.map_append]
    rfl

theorem claimants_copyCompileElseIfs : ∀ clauses : List (CompileElseIf Extent),
    claimants (visitCompileElseIfs (copyCompileElseIfs f r clauses))
      = (claimants (visitCompileElseIfs clauses)).map (Owner.copy f r)
  | [] => rfl
  | .mk _ body :: rest => by
    simp only [copyCompileElseIfs, CompileElseIf.copy, visitCompileElseIfs, CompileElseIf.visits,
      claimants_append, claimants_copyBody body, claimants_copyCompileElseIfs rest,
      List.map_append]

end

end Visits

/-- A visit in which an owner claims the line of its own note, if any. -/
def Visit.Own : Visit → Prop
  | .claim line owner => line = owner.here.startLine
  | .passOver .. => True

mutual

theorem Statement.visits_own : ∀ s : Statement Extent, ∀ v ∈ s.visits, v.Own
  | .procedure _ _ (.mk _ _ _ body) => visitAll_own body
  | .branch _ _ thenBody elseIfs elseBody => by
    simp only [Statement.visits, List.forall_mem_cons, List.forall_mem_append]
    exact ⟨rfl, ⟨visitAll_own thenBody, visitElseIfs_own elseIfs⟩, visitOptional_own elseBody⟩
  | .forLoop _ _ _ _ _ body | .forEach _ _ _ body | .whileLoop _ _ body => by
    simp only [Statement.visits, List.forall_mem_cons]
    exact ⟨rfl, visitAll_own body⟩
  | .compileIf _ _ thenBody elseIfs elseBody => by
    simp only [Statement.visits, List.forall_mem_append]
    exact ⟨⟨visitAll_own thenBody, visitCompileElseIfs_own elseIfs⟩, visitOptional_own elseBody⟩
  | .call .. | .assign .. | .assignMember .. | .assignIndex .. | .print .. | .giveBack .. => by
    simp only [Statement.visits, List.forall_mem_singleton]
    rfl
  | .increment .. | .dim .. | .goto .. | .label .. | .exit .. | .endProgram .. | .stop ..
  | .library .. | .directive .. => by
    simp only [Statement.visits, List.forall_mem_singleton]
    trivial

theorem visitAll_own : ∀ body : List (Statement Extent), ∀ v ∈ visitAll body, v.Own
  | [] => by simp [visitAll]
  | s :: rest => by
    simp only [visitAll, List.forall_mem_append]
    exact ⟨s.visits_own, visitAll_own rest⟩

theorem visitOptional_own : ∀ body : Option (List (Statement Extent)),
    ∀ v ∈ visitOptional body, v.Own
  | none => by simp [visitOptional]
  | some body => visitAll_own body

theorem visitElseIfs_own : ∀ clauses : List (ElseIf Extent), ∀ v ∈ visitElseIfs clauses, v.Own
  | [] => by simp [visitElseIfs]
  | .mk _ _ body :: rest => by
    simp only [visitElseIfs, ElseIf.visits, List.forall_mem_append, List.forall_mem_singleton]
    exact ⟨⟨visitAll_own body, rfl⟩, visitElseIfs_own rest⟩

theorem visitCompileElseIfs_own : ∀ clauses : List (CompileElseIf Extent),
    ∀ v ∈ visitCompileElseIfs clauses, v.Own
  | [] => by simp [visitCompileElseIfs]
  | .mk _ body :: rest => by
    simp only [visitCompileElseIfs, CompileElseIf.visits, List.forall_mem_append]
    exact ⟨visitAll_own body, visitCompileElseIfs_own rest⟩

end

namespace Table

variable {key other : Nat} {value : α}

theorem lookup_cons (entry : Nat × α) (entries : List (Nat × α)) :
    (entry :: entries).lookup key = if key = entry.1 then some entry.2 else entries.lookup key := by
  rw [List.lookup_cons]
  by_cases h : key = entry.1
  · simp [h]
  · rw [if_neg h, beq_false_of_ne h]

theorem lookup_insertEntry (entries : List (Nat × α)) :
    (insertEntry key value entries).lookup other
      = if other = key then some value else entries.lookup other := by
  induction entries with
  | nil => rw [insertEntry, lookup_cons]
  | cons entry entries ih =>
    unfold insertEntry
    split
    · rw [lookup_cons]
    · split
      · next heq =>
        rw [lookup_cons, lookup_cons, heq]
        split <;> rfl
      · next hne =>
        rw [lookup_cons, lookup_cons, ih]
        by_cases hother : other = entry.1
        · rw [if_pos hother, if_pos hother, if_neg (hother ▸ Ne.symm hne)]
        · rw [if_neg hother, if_neg hother]

theorem get?_claim (t : Table α) :
    (t.claim key value).get? other
      = (t.get? other).or (if other = key then some value else none) := by
  unfold claim
  split
  · next hsome =>
    split
    · next heq => rw [heq, Option.or_of_isSome hsome]
    · rw [Option.or_none]
  · next hnone =>
    rw [show (t.insert key value).get? other = _ from lookup_insertEntry t.entries]
    split
    · next heq => rw [heq, Option.not_isSome_iff_eq_none.1 hnone, Option.none_or]
    · rw [Option.or_none]
      rfl

end Table

theorem get?_foldl_enter {visits : List Visit} (h : ∀ v ∈ visits, v.Own) (owners : Ownership)
    (n : Nat) : (visits.foldl Ownership.enter owners).get? n
      = (owners.get? n).or ((claimants visits).find? (·.here.startLine = n)) := by
  induction visits generalizing owners with
  | nil => exact (Option.or_none).symm
  | cons v visits ih =>
    obtain ⟨hv, hvisits⟩ := List.forall_mem_cons.1 h
    rw [List.foldl_cons, ih hvisits]
    cases v with
    | passOver => rfl
    | claim line owner =>
      obtain rfl : line = owner.here.startLine := hv
      rw [Ownership.enter, Table.get?_claim, Option.or_assoc]
      show _ = (owners.get? n).or ((owner :: claimants visits).find? _)
      rw [List.find?_cons]
      by_cases hn : n = owner.here.startLine
      · simp [hn]
      · simp [hn, Ne.symm hn]

theorem get?_classify (body : List (Statement Extent)) (n : Nat) :
    (classify body).get? n = (claimants (visitAll body)).find? (·.here.startLine = n) :=
  get?_foldl_enter (visitAll_own body) Table.empty n

theorem visitAll_append (body body' : List (Statement Extent)) :
    visitAll (body ++ body') = visitAll body ++ visitAll body' := by
  induction body with
  | nil => rfl
  | cons s body ih => rw [List.cons_append, visitAll, ih, visitAll, List.append_assoc]

theorem get?_classify_append (body body' : List (Statement Extent)) (n : Nat) :
    (classify (body ++ body')).get? n = ((classify body).get? n).or ((classify body').get? n) := by
  simp only [get?_classify, visitAll_append, claimants_append, List.find?_append]

/-- The owner of a line of a copy is the copy of the owner, where the notes of those that claim lines
are copied to lines of their own. -/
theorem get?_classify_copyBody {f : Extent → Extent} {r : String → String} {g : Nat → Nat}
    (hg : ∀ m n, g m = g n → m = n) {body : List (Statement Extent)}
    (hf : ∀ o ∈ claimants (visitAll body), (f o.here).startLine = g o.here.startLine) (n : Nat) :
    (classify (copyBody f r body)).get? (g n) = ((classify body).get? n).map (Owner.copy f r) := by
  rw [get?_classify, get?_classify, claimants_copyBody, List.find?_map]
  congr 1
  generalize claimants (visitAll body) = owners at hf
  induction owners with
  | nil => rfl
  | cons o os ih =>
    obtain ⟨ho, hos⟩ := List.forall_mem_cons.1 hf
    have heq : (g o.here.startLine = g n) = (o.here.startLine = n) :=
      propext ⟨hg _ _, congrArg g⟩
    have hhead : ((fun owner => decide (owner.here.startLine = g n)) ∘ Owner.copy f r) o
        = decide (o.here.startLine = n) := by
      simp only [Function.comp_apply, Owner.copy_here, ho, heq]
    rw [List.find?_cons, List.find?_cons, hhead, ih hos]

end BrightCoverage
