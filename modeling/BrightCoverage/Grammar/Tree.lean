/-! The statement tree of a BrightScript file. Every node carries a note `here` of a type that is
left open: the parser notes the extent of the node, and two trees have the same shape when they are
equal after their notes are forgotten. -/

namespace BrightCoverage

inductive BinaryOp where
  | power | multiply | divide | intDivide | modulo | add | subtract | shiftLeft | shiftRight
  | equal | notEqual | lessThan | lessEqual | greaterThan | greaterEqual | and | or
deriving DecidableEq

namespace BinaryOp

def spelling : BinaryOp → String
  | power => "^"
  | multiply => "*"
  | divide => "/"
  | intDivide => "\\"
  | modulo => "mod"
  | add => "+"
  | subtract => "-"
  | shiftLeft => "<<"
  | shiftRight => ">>"
  | equal => "="
  | notEqual => "<>"
  | lessThan => "<"
  | lessEqual => "<="
  | greaterThan => ">"
  | greaterEqual => ">="
  | and => "and"
  | or => "or"

end BinaryOp

inductive UnaryOp where
  | negate | not
deriving DecidableEq

namespace UnaryOp

def spelling : UnaryOp → String
  | negate => "-"
  | not => "not"

end UnaryOp

inductive AssignOp where
  | assign | add | subtract | multiply | divide | intDivide | shiftLeft | shiftRight
deriving DecidableEq

namespace AssignOp

def spelling : AssignOp → String
  | assign => "="
  | add => "+="
  | subtract => "-="
  | multiply => "*="
  | divide => "/="
  | intDivide => "\\="
  | shiftLeft => "<<="
  | shiftRight => ">>="

end AssignOp

inductive ProcedureKind where
  | function | sub
deriving DecidableEq

namespace ProcedureKind

def spelling : ProcedureKind → String
  | function => "function"
  | sub => "sub"

end ProcedureKind

inductive PrintSeparator where
  | semicolon | comma
deriving DecidableEq

namespace PrintSeparator

def spelling : PrintSeparator → String
  | semicolon => ";"
  | comma => ","

end PrintSeparator

inductive LoopKind where
  | counted | conditional
deriving DecidableEq

namespace LoopKind

def spelling : LoopKind → String
  | counted => "for"
  | conditional => "while"

end LoopKind

mutual

/-- Expressions. A float literal is kept as the bits of its double. -/
inductive Expr (α : Type) where
  | integer (here : α) (value : Nat)
  | float (here : α) (bits : Nat)
  | string (here : α) (value : String)
  | boolean (here : α) (value : Bool)
  | invalid (here : α)
  | identifier (here : α) (name : String)
  | binary (here : α) (op : BinaryOp) (left right : Expr α)
  | unary (here : α) (op : UnaryOp) (operand : Expr α)
  | grouped (here : α) (inner : Expr α)
  | call (here : α) (callee : Expr α) (args : List (Expr α))
  | member (here : α) (object : Expr α) (name : String)
  | index (here : α) (object index : Expr α)
  | attribute (here : α) (object : Expr α) (name : String)
  | array (here : α) (items : List (Expr α))
  | assoc (here : α) (entries : List (Entry α))
  | procedure (here : α) (decl : Procedure α)

inductive Entry (α : Type) where
  | mk (key : String) (value : Expr α)

inductive Procedure (α : Type) where
  | mk (keyword : ProcedureKind) (params : List (Parameter α)) (returns : Option String)
      (body : List (Statement α))

inductive Parameter (α : Type) where
  | mk (name : String) (default : Option (Expr α)) (type : Option String)

inductive Statement (α : Type) where
  | procedure (here : α) (name : String) (decl : Procedure α)
  | branch (here : α) (condition : Expr α) (thenBody : List (Statement α))
      (elseIfs : List (ElseIf α)) (elseBody : Option (List (Statement α)))
  | forLoop (here : α) (counter : String) (first last : Expr α) (step : Option (Expr α))
      (body : List (Statement α))
  | forEach (here : α) (item : String) (target : Expr α) (body : List (Statement α))
  | whileLoop (here : α) (condition : Expr α) (body : List (Statement α))
  | call (here : α) (value : Expr α)
  | assign (here : α) (name : String) (op : AssignOp) (value : Expr α)
  | assignMember (here : α) (object : Expr α) (name : String) (op : AssignOp) (value : Expr α)
  | assignIndex (here : α) (object index : Expr α) (op : AssignOp) (value : Expr α)
  | print (here : α) (items : List (PrintItem α))
  | giveBack (here : α) (value : Option (Expr α))
  | increment (here : α) (target : Expr α) (decrement : Bool)
  | dim (here : α) (name : String) (dimensions : List (Expr α))
  | goto (here : α) (label : String)
  | label (here : α) (name : String)
  | exit (here : α) (loop : LoopKind)
  | endProgram (here : α)
  | stop (here : α)
  | library (here : α) (path : String)
  | compileIf (here : α) (condition : String) (thenBody : List (Statement α))
      (elseIfs : List (CompileElseIf α)) (elseBody : Option (List (Statement α)))
  | directive (here : α) (name args : String)

/-- An `else if` clause; `keyword` notes its one or two keywords. -/
inductive ElseIf (α : Type) where
  | mk (keyword : α) (condition : Expr α) (body : List (Statement α))

/-- An `#else if` clause; its condition is kept as written. -/
inductive CompileElseIf (α : Type) where
  | mk (condition : String) (body : List (Statement α))

inductive PrintItem (α : Type) where
  | mk (value : Expr α) (separator : Option PrintSeparator)

end

variable {α : Type}

def Expr.here : Expr α → α
  | .integer here _ | .float here _ | .string here _ | .boolean here _ | .invalid here
  | .identifier here _ | .binary here _ _ _ | .unary here _ _ | .grouped here _ | .call here _ _
  | .member here _ _ | .index here _ _ | .attribute here _ _ | .array here _ | .assoc here _
  | .procedure here _ => here

def Statement.here : Statement α → α
  | .procedure here _ _ | .branch here _ _ _ _ | .forLoop here _ _ _ _ _ | .forEach here _ _ _
  | .whileLoop here _ _ | .call here _ | .assign here _ _ _ | .assignMember here _ _ _ _
  | .assignIndex here _ _ _ _ | .print here _ | .giveBack here _ | .increment here _ _
  | .dim here _ _ | .goto here _ | .label here _ | .exit here _ | .endProgram here | .stop here
  | .library here _ | .compileIf here _ _ _ _ | .directive here _ _ => here

def Procedure.keyword : Procedure α → ProcedureKind
  | .mk keyword _ _ _ => keyword

def Procedure.body : Procedure α → List (Statement α)
  | .mk _ _ _ body => body

def ElseIf.keyword : ElseIf α → α
  | .mk keyword _ _ => keyword

def Statement.kindName : Statement α → String
  | .procedure _ _ decl => decl.keyword.spelling
  | .branch .. => "if"
  | .forLoop .. => "for"
  | .forEach .. => "for each"
  | .whileLoop .. => "while"
  | .call .. => "expression"
  | .assign .. => "assignment"
  | .assignMember .. => "member assignment"
  | .assignIndex .. => "indexed assignment"
  | .print .. => "print"
  | .giveBack .. => "return"
  | .increment _ _ false => "increment"
  | .increment _ _ true => "decrement"
  | .dim .. => "dim"
  | .goto .. => "goto"
  | .label .. => "label"
  | .exit .. => "exit"
  | .endProgram .. => "end"
  | .stop .. => "stop"
  | .library .. => "library"
  | .compileIf .. => "#if"
  | .directive .. => "directive"

end BrightCoverage
