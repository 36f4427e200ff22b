namespace Varlet

inductive Operator where
  | add
  | subtract
  | multiply
  | divide
  | modulo
deriving DecidableEq

namespace Operator

def symbol : Operator → String
  | add => "+"
  | subtract => "-"
  | multiply => "*"
  | divide => "/"
  | modulo => "%"

def name : Operator → String
  | add => "Add"
  | subtract => "Subtract"
  | multiply => "Multiply"
  | divide => "Divide"
  | modulo => "Modulo"

def isAdditive : Operator → Bool
  | add | subtract => true
  | multiply | divide | modulo => false

end Operator

inductive NodeKind where
  | program
  | numericLiteral
  | identifier
  | binaryExpr
  | callExpr
  | unaryExpr
  | functionDeclaration
  | nullLiteral
  | variableDeclaration
  | assignmentExpr
  | property
  | objectLiteral
  | expressionStatement
deriving DecidableEq

namespace NodeKind

def all : List NodeKind :=
  [program, numericLiteral, identifier, binaryExpr, callExpr, unaryExpr, functionDeclaration,
    nullLiteral, variableDeclaration, assignmentExpr, property, objectLiteral,
    expressionStatement]

def name : NodeKind → String
  | program => "Program"
  | numericLiteral => "NumericLiteral"
  | identifier => "Identifier"
  | binaryExpr => "BinaryExpr"
  | callExpr => "CallExpr"
  | unaryExpr => "UnaryExpr"
  | functionDeclaration => "FunctionDeclaration"
  | nullLiteral => "NullLiteral"
  | variableDeclaration => "VariableDeclaration"
  | assignmentExpr => "AssignmentExpr"
  | property => "Property"
  | objectLiteral => "ObjectLiteral"
  | expressionStatement => "ExpressionStatement"

end NodeKind

/-- A property of an object literal. Without a value it stands for the variable of its key. -/
structure Property (ε : Type) where
  key : String
  value : Option ε

inductive Expr where
  | assignment (target value : Expr)
  | binary (left : Expr) (operator : Operator) (right : Expr)
  | identifier (name : String)
  | number (value : Float)
  | null
  | object (properties : List (Property Expr))

inductive Statement where
  | declaration (mutable : Bool) (name : String) (initializer : Option Expr)
  | expression (e : Expr)

structure Program where
  body : List Statement

def Expr.kind : Expr → NodeKind
  | assignment _ _ => .assignmentExpr
  | binary _ _ _ => .binaryExpr
  | identifier _ => .identifier
  | number _ => .numericLiteral
  | null => .nullLiteral
  | object _ => .objectLiteral

namespace Statement

def kind : Statement → NodeKind
  | declaration _ _ _ => .variableDeclaration
  | expression _ => .expressionStatement

def expression? : Statement → Option Expr
  | declaration _ _ initializer => initializer
  | expression e => some e

end Statement

mutual

def Expr.same : Expr → Expr → Bool
  | .assignment t v, .assignment u w => t.same u && v.same w
  | .binary l o r, .binary m p s => l.same m && o == p && r.same s
  | .identifier n, .identifier m => n == m
  | .number x, .number y => x == y
  | .null, .null => true
  | .object ps, .object qs => sameProperties ps qs
  | _, _ => false

def sameProperties : List (Property Expr) → List (Property Expr) → Bool
  | [], [] => true
  | ⟨k, some e⟩ :: ps, ⟨l, some f⟩ :: qs => k == l && e.same f && sameProperties ps qs
  | ⟨k, none⟩ :: ps, ⟨l, none⟩ :: qs => k == l && sameProperties ps qs
  | _, _ => false

end

def Statement.same : Statement → Statement → Bool
  | .declaration m n (some e), .declaration k l (some f) => m == k && n == l && e.same f
  | .declaration m n none, .declaration k l none => m == k && n == l
  | .expression e, .expression f => e.same f
  | _, _ => false

def sameStatements : List Statement → List Statement → Bool
  | [], [] => true
  | s :: ss, t :: ts => s.same t && sameStatements ss ts
  | _, _ => false

def Program.same (p q : Program) : Bool :=
  sameStatements p.body q.body

end Varlet
