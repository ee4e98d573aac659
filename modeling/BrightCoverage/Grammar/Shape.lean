import BrightCoverage.Grammar.Tree

/-! The shape of a tree. `map` changes every note of a tree and nothing else; forgetting the notes
leaves the shape, by which trees are compared when it does not matter where they stand. The lists
and options inside a tree are mapped item by item, as the lemmas at the end say. -/

namespace BrightCoverage

variable {α β : Type}

mutual

def Expr.map (f : α → β) : Expr α → Expr β
  | .integer here value => .integer (f here) value
  | .float here bits => .float (f here) bits
  | .string here value => .string (f here) value
  | .boolean here value => .boolean (f here) value
  | .invalid here => .invalid (f here)
  | .identifier here name => .identifier (f here) name
  | .binary here op left right => .binary (f here) op (left.map f) (right.map f)
  | .unary here op operand => .unary (f here) op (operand.map f)
  | .grouped here inner => .grouped (f here) (inner.map f)
  | .call here callee args => .call (f here) (callee.map f) (mapExprs f args)
  | .member here object name => .member (f here) (object.map f) name
  | .index here object index => .index (f here) (object.map f) (index.map f)
  | .attribute here object name => .attribute (f here) (object.map f) name
  | .array here items => .array (f here) (mapExprs f items)
  | .assoc here entries => .assoc (f here) (mapEntries f entries)
  | .procedure here decl => .procedure (f here) (decl.map f)

def mapExprs (f : α → β) : List (Expr α) → List (Expr β)
  | [] => []
  | e :: rest => e.map f :: mapExprs f rest

def mapExpr? (f : α → β) : Option (Expr α) → Option (Expr β)
  | none => none
  | some e => some (e.map f)

def Entry.map (f : α → β) : Entry α → Entry β
  | .mk key value => .mk key (value.map f)

def mapEntries (f : α → β) : List (Entry α) → List (Entry β)
  | [] => []
  | entry :: rest => entry.map f :: mapEntries f rest

def Procedure.map (f : α → β) : Procedure α → Procedure β
  | .mk keyword params returns body => .mk keyword (mapParameters f params) returns (mapBody f body)

def Parameter.map (f : α → β) : Parameter α → Parameter β
  | .mk name default type => .mk name (mapExpr? f default) type

def mapParameters (f : α → β) : List (Parameter α) → List (Parameter β)
  | [] => []
  | param :: rest => param.map f :: mapParameters f rest

def Statement.map (f : α → β) : Statement α → Statement β
  | .procedure here name decl => .procedure (f here) name (decl.map f)
  | .branch here condition thenBody elseIfs elseBody =>
    .branch (f here) (condition.map f) (mapBody f thenBody) (mapElseIfs f elseIfs)
      (mapBody? f elseBody)
  | .forLoop here counter first last step body =>
    .forLoop (f here) counter (first.map f) (last.map f) (mapExpr? f step) (mapBody f body)
  | .forEach here item target body => .forEach (f here) item (target.map f) (mapBody f body)
  | .whileLoop here condition body => .whileLoop (f here) (condition.map f) (mapBody f body)
  | .call here value => .call (f here) (value.map f)
  | .assign here name op value => .assign (f here) name op (value.map f)
  | .assignMember here object name op value =>
    .assignMember (f here) (object.map f) name op (value.map f)
  | .assignIndex here object index op value =>
    .assignIndex (f here) (object.map f) (index.map f) op (value.map f)
  | .print here items => .print (f here) (mapPrintItems f items)
  | .giveBack here value => .giveBack (f here) (mapExpr? f value)
  | .increment here target decrement => .increment (f here) (target.map f) decrement
  | .dim here name dimensions => .dim (f here) name (mapExprs f dimensions)
  | .goto here label => .goto (f here) label
  | .label here name => .label (f here) name
  | .exit here loop => .exit (f here) loop
  | .endProgram here => .endProgram (f here)
  | .stop here => .stop (f here)
  | .library here path => .library (f here) path
  | .compileIf here condition thenBody elseIfs elseBody =>
    .compileIf (f here) condition (mapBody f thenBody) (mapCompileElseIfs f elseIfs)
      (mapBody? f elseBody)
  | .directive here name args => .directive (f here) name args

def mapBody (f : α → β) : List (Statement α) → List (Statement β)
  | [] => []
  | s :: rest => s.map f :: mapBody f rest

def mapBody? (f : α → β) : Option (List (Statement α)) → Option (List (Statement β))
  | none => none
  | some body => some (mapBody f body)

def ElseIf.map (f : α → β) : ElseIf α → ElseIf β
  | .mk keyword condition body => .mk (f keyword) (condition.map f) (mapBody f body)

def mapElseIfs (f : α → β) : List (ElseIf α) → List (ElseIf β)
  | [] => []
  | clause :: rest => clause.map f :: mapElseIfs f rest

def CompileElseIf.map (f : α → β) : CompileElseIf α → CompileElseIf β
  | .mk condition body => .mk condition (mapBody f body)

def mapCompileElseIfs (f : α → β) : List (CompileElseIf α) → List (CompileElseIf β)
  | [] => []
  | clause :: rest => clause.map f :: mapCompileElseIfs f rest

def PrintItem.map (f : α → β) : PrintItem α → PrintItem β
  | .mk value separator => .mk (value.map f) separator

def mapPrintItems (f : α → β) : List (PrintItem α) → List (PrintItem β)
  | [] => []
  | item :: rest => item.map f :: mapPrintItems f rest

end

/-- An expression without its notes. -/
def Expr.shape (e : Expr α) : Expr Unit :=
  e.map fun _ => ()

def Statement.shape (s : Statement α) : Statement Unit :=
  s.map fun _ => ()

def shapes (body : List (Statement α)) : List (Statement Unit) :=
  mapBody (fun _ => ()) body

theorem mapExprs_eq_map (f : α → β) (es : List (Expr α)) :
    mapExprs f es = es.map (Expr.map f) := by
  induction es with
  | nil => rfl
  | cons e rest ih => simp only [mapExprs, List.map_cons, ih]

theorem mapExpr?_eq_map (f : α → β) (e : Option (Expr α)) :
    mapExpr? f e = e.map (Expr.map f) := by
  cases e <;> rfl

theorem mapEntries_eq_map (f : α → β) (es : List (Entry α)) :
    mapEntries f es = es.map (Entry.map f) := by
  induction es with
  | nil => rfl
  | cons e rest ih => simp only [mapEntries, List.map_cons, ih]

theorem mapParameters_eq_map (f : α → β) (ps : List (Parameter α)) :
    mapParameters f ps = ps.map (Parameter.map f) := by
  induction ps with
  | nil => rfl
  | cons p rest ih => simp only [mapParameters, List.map_cons, ih]

theorem mapBody?_eq_map (f : α → β) (body : Option (List (Statement α))) :
    mapBody? f body = body.map (mapBody f) := by
  cases body <;> rfl

end BrightCoverage
