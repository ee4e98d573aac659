import BrightCoverage.Proofs.Passes
import BrightCoverage.Proofs.Spelling

/-! Trees without reporting calls. An eraser says which calls are taken out of a tree: statements that
are such calls are left out of their lists, and a condition that such a call is joined to stands alone
again. Nothing else is changed, and it does not matter whether the notes are there. -/

namespace BrightCoverage

/-- The calls that are taken out: those of the function with the name, for some lines and kinds. -/
structure Eraser where
  name : String
  drops : Nat → LineKind → Bool

variable {α β : Type}

namespace Eraser

/-- Whether the expression is a call of the kind that is taken out. -/
def takes (x : Eraser) (kind : LineKind) : Expr α → Bool
  | .call _ (.identifier _ n) [.integer _ line, .integer _ code] =>
    decide (n = x.name) && decide (code = kind.toNat) && x.drops line kind
  | _ => false

def takesStatement (x : Eraser) : Statement α → Bool
  | .call _ value => x.takes .code value
  | _ => false

/-- A condition without the call that is joined to it. -/
def part (x : Eraser) : Expr α → Expr α
  | .binary here .and call (.grouped there c) =>
    if x.takes .condition call then c else .binary here .and call (.grouped there c)
  | c => c

end Eraser

mutual

/-- Takes the calls out of an expression, where they stand in procedures. -/
def Expr.erase (x : Eraser) : Expr α → Expr α
  | .integer here value => .integer here value
  | .float here bits => .float here bits
  | .string here value => .string here value
  | .boolean here value => .boolean here value
  | .invalid here => .invalid here
  | .identifier here name => .identifier here name
  | .binary here op left right => .binary here op (left.erase x) (right.erase x)
  | .unary here op operand => .unary here op (operand.erase x)
  | .grouped here inner => .grouped here (inner.erase x)
  | .call here callee args => .call here (callee.erase x) (eraseExprs x args)
  | .member here object name => .member here (object.erase x) name
  | .index here object index => .index here (object.erase x) (index.erase x)
  | .attribute here object name => .attribute here (object.erase x) name
  | .array here items => .array here (eraseExprs x items)
  | .assoc here entries => .assoc here (eraseEntries x entries)
  | .procedure here decl => .procedure here (decl.erase x)

def eraseExprs (x : Eraser) : List (Expr α) → List (Expr α)
  | [] => []
  | e :: rest => e.erase x :: eraseExprs x rest

def eraseExpr? (x : Eraser) : Option (Expr α) → Option (Expr α)
  | none => none
  | some e => some (e.erase x)

def Entry.erase (x : Eraser) : Entry α → Entry α
  | .mk key value => .mk key (value.erase x)

def eraseEntries (x : Eraser) : List (Entry α) → List (Entry α)
  | [] => []
  | entry :: rest => entry.erase x :: eraseEntries x rest

def Procedure.erase (x : Eraser) : Procedure α → Procedure α
  | .mk keyword params returns body => .mk keyword (eraseParameters x params) returns (eraseBody x body)

def Parameter.erase (x : Eraser) : Parameter α → Parameter α
  | .mk name default type => .mk name (eraseExpr? x default) type

def eraseParameters (x : Eraser) : List (Parameter α) → List (Parameter α)
  | [] => []
  | param :: rest => param.erase x :: eraseParameters x rest

def Statement.erase (x : Eraser) : Statement α → Statement α
  | .procedure here name decl => .procedure here name (decl.erase x)
  | .branch here condition thenBody elseIfs elseBody =>
    .branch here (x.part (condition.erase x)) (eraseBody x thenBody) (eraseElseIfs x elseIfs)
      (eraseBody? x elseBody)
  | .forLoop here counter first last step body =>
    .forLoop here counter (first.erase x) (last.erase x) (eraseExpr? x step) (eraseBody x body)
  | .forEach here item target body => .forEach here item (target.erase x) (eraseBody x body)
  | .whileLoop here condition body => .whileLoop here (condition.erase x) (eraseBody x body)
  | .call here value => .call here (value.erase x)
  | .assign here name op value => .assign here name op (value.erase x)
  | .assignMember here object name op value =>
    .assignMember here (object.erase x) name op (value.erase x)
  | .assignIndex here object index op value =>
    .assignIndex here (object.erase x) (index.erase x) op (value.erase x)
  | .print here items => .print here (erasePrintItems x items)
  | .giveBack here value => .giveBack here (eraseExpr? x value)
  | .increment here target decrement => .increment here (target.erase x) decrement
  | .dim here name dimensions => .dim here name (eraseExprs x dimensions)
  | .goto here label => .goto here label
  | .label here name => .label here name
  | .exit here loop => .exit here loop
  | .endProgram here => .endProgram here
  | .stop here => .stop here
  | .library here path => .library here path
  | .compileIf here condition thenBody elseIfs elseBody =>
    .compileIf here condition (eraseBody x thenBody) (eraseCompileElseIfs x elseIfs)
      (eraseBody? x elseBody)
  | .directive here name args => .directive here name args

def eraseBody (x : Eraser) : List (Statement α) → List (Statement α)
  | [] => []
  | s :: rest => if x.takesStatement s then eraseBody x rest else s.erase x :: eraseBody x rest

def eraseBody? (x : Eraser) : Option (List (Statement α)) → Option (List (Statement α))
  | none => none
  | some body => some (eraseBody x body)

def ElseIf.erase (x : Eraser) : ElseIf α → ElseIf α
  | .mk keyword condition body => .mk keyword (condition.erase x) (eraseBody x body)

def eraseElseIfs (x : Eraser) : List (ElseIf α) → List (ElseIf α)
  | [] => []
  | clause :: rest => clause.erase x :: eraseElseIfs x rest

def CompileElseIf.erase (x : Eraser) : CompileElseIf α → CompileElseIf α
  | .mk condition body => .mk condition (eraseBody x body)

def eraseCompileElseIfs (x : Eraser) : List (CompileElseIf α) → List (CompileElseIf α)
  | [] => []
  | clause :: rest => clause.erase x :: eraseCompileElseIfs x rest

def PrintItem.erase (x : Eraser) : PrintItem α → PrintItem α
  | .mk value separator => .mk (value.erase x) separator

def erasePrintItems (x : Eraser) : List (PrintItem α) → List (PrintItem α)
  | [] => []
  | item :: rest => item.erase x :: erasePrintItems x rest

end

variable {x : Eraser} {f : α → β}

/-! ### Notes do not matter -/

namespace Eraser

theorem takes_map (kind : LineKind) (e : Expr α) : x.takes kind (e.map f) = x.takes kind e := by
  cases e with
  | call here callee args =>
    cases callee with
    | identifier there n =>
      cases args with
      | nil => rfl
      | cons a args =>
        cases a with
        | integer =>
          cases args with
          | nil => rfl
          | cons b args =>
            cases b with
            | integer => cases args <;> rfl
            | _ => rfl
        | _ => rfl
    | _ => rfl
  | _ => rfl

theorem takesStatement_map (s : Statement α) : x.takesStatement (s.map f) = x.takesStatement s := by
  cases s with
  | call here value => exact takes_map .code value
  | _ => rfl

theorem part_map (e : Expr α) : x.part (e.map f) = (x.part e).map f := by
  cases e with
  | binary here op left right =>
    cases op with
    | and =>
      cases right with
      | grouped there c =>
        show (if x.takes .condition (left.map f) then _ else _) = _
        rw [takes_map]
        show _ = Expr.map f (if x.takes .condition left then _ else _)
        split <;> rfl
      | _ => rfl
    | _ => rfl
  | _ => rfl

end Eraser

mutual

theorem Expr.erase_map : (e : Expr α) → (e.map f).erase x = (e.erase x).map f
  | .integer .. | .float .. | .string .. | .boolean .. | .invalid .. | .identifier .. => rfl
  | .binary here op left right => by
    simp only [Expr.map, Expr.erase, left.erase_map, right.erase_map]
  | .unary here op operand => by simp only [Expr.map, Expr.erase, operand.erase_map]
  | .grouped here inner => by simp only [Expr.map, Expr.erase, inner.erase_map]
  | .call here callee args => by
    simp only [Expr.map, Expr.erase, callee.erase_map, eraseExprs_map args]
  | .member here object name => by simp only [Expr.map, Expr.erase, object.erase_map]
  | .index here object index => by
    simp only [Expr.map, Expr.erase, object.erase_map, index.erase_map]
  | .attribute here object name => by simp only [Expr.map, Expr.erase, object.erase_map]
  | .array here items => by simp only [Expr.map, Expr.erase, eraseExprs_map items]
  | .assoc here entries => by simp only [Expr.map, Expr.erase, eraseEntries_map entries]
  | .procedure here decl => by simp only [Expr.map, Expr.erase, decl.erase_map]

theorem eraseExprs_map : (es : List (Expr α)) → eraseExprs x (mapExprs f es) = mapExprs f (eraseExprs x es)
  | [] => rfl
  | e :: rest => by simp only [mapExprs, eraseExprs, e.erase_map, eraseExprs_map rest]

theorem eraseExpr?_map : (e : Option (Expr α)) → eraseExpr? x (mapExpr? f e) = mapExpr? f (eraseExpr? x e)
  | none => rfl
  | some e => by simp only [mapExpr?, eraseExpr?, e.erase_map]

theorem Entry.erase_map : (entry : Entry α) → (entry.map f).erase x = (entry.erase x).map f
  | .mk key value => by simp only [Entry.map, Entry.erase, value.erase_map]

theorem eraseEntries_map :
    (entries : List (Entry α)) → eraseEntries x (mapEntries f entries) = mapEntries f (eraseEntries x entries)
  | [] => rfl
  | entry :: rest => by
    simp only [mapEntries, eraseEntries, entry.erase_map, eraseEntries_map rest]

theorem Procedure.erase_map : (decl : Procedure α) → (decl.map f).erase x = (decl.erase x).map f
  | .mk keyword params returns body => by
    simp only [Procedure.map, Procedure.erase, eraseParameters_map params, eraseBody_map body]

theorem Parameter.erase_map : (param : Parameter α) → (param.map f).erase x = (param.erase x).map f
  | .mk name default type => by simp only [Parameter.map, Parameter.erase, eraseExpr?_map default]

theorem eraseParameters_map : (params : List (Parameter α)) →
    eraseParameters x (mapParameters f params) = mapParameters f (eraseParameters x params)
  | [] => rfl
  | param :: rest => by
    simp only [mapParameters, eraseParameters, param.erase_map, eraseParameters_map rest]

theorem Statement.erase_map : (s : Statement α) → (s.map f).erase x = (s.erase x).map f
  | .procedure here name decl => by simp only [Statement.map, Statement.erase, decl.erase_map]
  | .branch here condition thenBody elseIfs elseBody => by
    simp only [Statement.map, Statement.erase, condition.erase_map, Eraser.part_map,
      eraseBody_map thenBody, eraseElseIfs_map elseIfs, eraseBody?_map elseBody]
  | .forLoop here counter first last step body => by
    simp only [Statement.map, Statement.erase, first.erase_map, last.erase_map, eraseExpr?_map step,
      eraseBody_map body]
  | .forEach here item target body => by
    simp only [Statement.map, Statement.erase, target.erase_map, eraseBody_map body]
  | .whileLoop here condition body => by
    simp only [Statement.map, Statement.erase, condition.erase_map, eraseBody_map body]
  | .call here value => by simp only [Statement.map, Statement.erase, value.erase_map]
  | .assign here name op value => by simp only [Statement.map, Statement.erase, value.erase_map]
  | .assignMember here object name op value => by
    simp only [Statement.map, Statement.erase, object.erase_map, value.erase_map]
  | .assignIndex here object index op value => by
    simp only [Statement.map, Statement.erase, object.erase_map, index.erase_map, value.erase_map]
  | .print here items => by simp only [Statement.map, Statement.erase, erasePrintItems_map items]
  | .giveBack here value => by simp only [Statement.map, Statement.erase, eraseExpr?_map value]
  | .increment here target decrement => by
    simp only [Statement.map, Statement.erase, target.erase_map]
  | .dim here name dimensions => by
    simp only [Statement.map, Statement.erase, eraseExprs_map dimensions]
  | .compileIf here condition thenBody elseIfs elseBody => by
    simp only [Statement.map, Statement.erase, eraseBody_map thenBody, eraseCompileElseIfs_map elseIfs,
      eraseBody?_map elseBody]
  | .goto .. | .label .. | .exit .. | .endProgram .. | .stop .. | .library .. | .directive .. => rfl

theorem eraseBody_map :
    (body : List (Statement α)) → eraseBody x (mapBody f body) = mapBody f (eraseBody x body)
  | [] => rfl
  | s :: rest => by
    simp only [mapBody, eraseBody, Eraser.takesStatement_map]
    split
    · exact eraseBody_map rest
    · simp only [mapBody, s.erase_map, eraseBody_map rest]

theorem eraseBody?_map : (body : Option (List (Statement α))) →
    eraseBody? x (mapBody? f body) = mapBody? f (eraseBody? x body)
  | none => rfl
  | some body => by simp only [mapBody?, eraseBody?, eraseBody_map body]

theorem ElseIf.erase_map : (clause : ElseIf α) → (clause.map f).erase x = (clause.erase x).map f
  | .mk keyword condition body => by
    simp only [ElseIf.map, ElseIf.erase, condition.erase_map, eraseBody_map body]

theorem eraseElseIfs_map : (clauses : List (ElseIf α)) →
    eraseElseIfs x (mapElseIfs f clauses) = mapElseIfs f (eraseElseIfs x clauses)
  | [] => rfl
  | clause :: rest => by
    simp only [mapElseIfs, eraseElseIfs, clause.erase_map, eraseElseIfs_map rest]

theorem CompileElseIf.erase_map :
    (clause : CompileElseIf α) → (clause.map f).erase x = (clause.erase x).map f
  | .mk condition body => by simp only [CompileElseIf.map, CompileElseIf.erase, eraseBody_map body]

theorem eraseCompileElseIfs_map : (clauses : List (CompileElseIf α)) →
    eraseCompileElseIfs x (mapCompileElseIfs f clauses)
      = mapCompileElseIfs f (eraseCompileElseIfs x clauses)
  | [] => rfl
  | clause :: rest => by
    simp only [mapCompileElseIfs, eraseCompileElseIfs, clause.erase_map, eraseCompileElseIfs_map rest]

theorem PrintItem.erase_map : (item : PrintItem α) → (item.map f).erase x = (item.erase x).map f
  | .mk value separator => by simp only [PrintItem.map, PrintItem.erase, value.erase_map]

theorem erasePrintItems_map : (items : List (PrintItem α)) →
    erasePrintItems x (mapPrintItems f items) = mapPrintItems f (erasePrintItems x items)
  | [] => rfl
  | item :: rest => by
    simp only [mapPrintItems, erasePrintItems, item.erase_map, erasePrintItems_map rest]

end

theorem shapes_eraseBody (body : List (Statement α)) :
    shapes (eraseBody x body) = eraseBody x (shapes body) :=
  (eraseBody_map body).symm

theorem eraseExprs_eq_map (es : List (Expr α)) : eraseExprs x es = es.map (Expr.erase x) := by
  induction es with
  | nil => rfl
  | cons e rest ih => simp only [eraseExprs, List.map_cons, ih]

theorem eraseExpr?_eq_map (e : Option (Expr α)) : eraseExpr? x e = e.map (Expr.erase x) := by
  cases e <;> rfl

theorem eraseEntries_eq_map (entries : List (Entry α)) :
    eraseEntries x entries = entries.map (Entry.erase x) := by
  induction entries with
  | nil => rfl
  | cons entry rest ih => simp only [eraseEntries, List.map_cons, ih]

theorem eraseParameters_eq_map (params : List (Parameter α)) :
    eraseParameters x params = params.map (Parameter.erase x) := by
  induction params with
  | nil => rfl
  | cons param rest ih => simp only [eraseParameters, List.map_cons, ih]

theorem eraseBody?_eq_map (body : Option (List (Statement α))) :
    eraseBody? x body = body.map (eraseBody x) := by
  cases body <;> rfl

/-! ### What stays -/

namespace Eraser

/-- A call that is taken out has no calls inside. -/
theorem takes_erase (kind : LineKind) (e : Expr α) : x.takes kind (e.erase x) = x.takes kind e := by
  cases e with
  | call here callee args =>
    cases callee with
    | identifier there n =>
      cases args with
      | nil => rfl
      | cons a args =>
        cases a with
        | integer =>
          cases args with
          | nil => rfl
          | cons b args =>
            cases b with
            | integer => cases args <;> rfl
            | _ => rfl
        | _ => rfl
    | _ => rfl
  | _ => rfl

theorem takesStatement_erase (s : Statement α) :
    x.takesStatement (s.erase x) = x.takesStatement s := by
  cases s with
  | call here value => exact takes_erase .code value
  | _ => rfl

end Eraser

section Congruence

variable {e e' : Expr α}

theorem Expr.edge_erase : (e : Expr α) → (e.erase x).edge = e.edge
  | .binary _ op _ right => congrArg (op.precedence :: ·) right.edge_erase
  | .unary _ op operand => congrArg (op.precedence :: ·) operand.edge_erase
  | .integer .. | .float .. | .string .. | .boolean .. | .invalid .. | .identifier .. | .grouped ..
  | .call .. | .member .. | .index .. | .attribute .. | .array .. | .assoc .. | .procedure .. => rfl

theorem Expr.edge_congr (h : e'.erase x = e.erase x) : e'.edge = e.edge := by
  rw [← e'.edge_erase, h, e.edge_erase]

theorem Expr.isOperand_congr (h : e'.erase x = e.erase x) : e'.isOperand = e.isOperand := by
  have herase : ∀ e : Expr α, (e.erase x).isOperand = e.isOperand := by
    intro e
    cases e <;> rfl
  rw [← herase e', h, herase e]

theorem Expr.above_congr (h : e'.erase x = e.erase x) (p : Precedence) :
    e'.Above p ↔ e.Above p := by
  have herase : ∀ e : Expr α, (e.erase x).Above p ↔ e.Above p := by
    intro e
    cases e <;> rfl
  rw [← herase e', h, herase e]

theorem Expr.of_erase_identifier {here : α} {n : String}
    (h : e.erase x = (Expr.identifier here n).erase x) : e = .identifier here n := by
  cases e <;> cases h
  rfl

theorem Expr.of_erase_call {here : α} {callee : Expr α} {args : List (Expr α)}
    (h : e.erase x = (Expr.call here callee args).erase x) :
    ∃ callee' args', e = .call here callee' args' := by
  cases e with
  | call here' callee' args' =>
    obtain ⟨rfl, -, -⟩ := Expr.call.inj h
    exact ⟨callee', args', rfl⟩
  | _ => cases h

theorem Expr.of_erase_member {here : α} {object : Expr α} {n : String}
    (h : e.erase x = (Expr.member here object n).erase x) :
    ∃ object', e = .member here object' n ∧ object'.erase x = object.erase x := by
  cases e with
  | member here' object' n' =>
    obtain ⟨rfl, hobject, rfl⟩ := Expr.member.inj h
    exact ⟨object', rfl, hobject⟩
  | _ => cases h

theorem Expr.of_erase_index {here : α} {object index : Expr α}
    (h : e.erase x = (Expr.index here object index).erase x) :
    ∃ object' index', e = .index here object' index' ∧ object'.erase x = object.erase x ∧
      index'.erase x = index.erase x := by
  cases e with
  | index here' object' index' =>
    obtain ⟨rfl, hobject, hindex⟩ := Expr.index.inj h
    exact ⟨object', index', rfl, hobject, hindex⟩
  | _ => cases h

theorem Procedure.keyword_congr {decl decl' : Procedure α} (h : decl'.erase x = decl.erase x) :
    decl'.keyword = decl.keyword := by
  obtain ⟨keyword, params, returns, body⟩ := decl
  obtain ⟨keyword', params', returns', body'⟩ := decl'
  exact (Procedure.mk.inj h).1

theorem Eraser.takesStatement_congr {s s' : Statement α} (h : s'.erase x = s.erase x) :
    x.takesStatement s' = x.takesStatement s := by
  rw [← takesStatement_erase s', h, takesStatement_erase s]

theorem eraseBody_cons_congr {s s' : Statement α} {body body' : List (Statement α)}
    (hs : s'.erase x = s.erase x) (hbody : eraseBody x body' = eraseBody x body) :
    eraseBody x (s' :: body') = eraseBody x (s :: body) := by
  simp only [eraseBody, Eraser.takesStatement_congr hs, hs, hbody]

end Congruence

end BrightCoverage
