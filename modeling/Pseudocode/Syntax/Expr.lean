import Pseudocode.Span
import Pseudocode.Lexicon

/-!
# Expressions and type expressions

Expressions and type expressions contain each other: a cast names a type, and the lengths in a type
are expressions.
-/

namespace Pseudocode.Syntax

/-- The identity of an expression or lvalue. A copy of a node keeps the identity of the node. -/
structure NodeId where
  index : Nat
deriving DecidableEq

inductive Literal where
  | boolean (b : Bool)
  | character (c : Char)
  | integer (n : Int32)
  | real (x : Float)
  | string (s : String)
deriving DecidableEq

mutual

structure Expr where
  id : NodeId
  span : Span
  kind : ExprKind

inductive ExprKind where
  | literal (value : Literal)
  | paren (inner : Expr)
  | binary (op : Located BinaryOp) (left right : Expr)
  | unary (op : Located UnaryOp) (operand : Expr)
  | call (callee : Ident) (args : List Argument)
  /-- The end-of-file test. -/
  | endOfFile (file : Expr)
  | cast (target : TypeExpr) (value : Expr)
  | lvalue (value : Lvalue)

/-- An actual parameter. -/
structure Argument where
  span : Span
  mode : Mode
  value : Expr

/-- An expression that designates a place. -/
structure Lvalue where
  id : NodeId
  span : Span
  kind : LvalueKind

inductive LvalueKind where
  | name (name : Ident)
  | subscript (array index : Expr)
  | component (base : Expr) (name : Ident)

structure TypeExpr where
  span : Span
  kind : TypeKind

inductive TypeKind where
  | boolean
  | character
  | integer
  | real
  | file
  | string
  /-- A string with a greatest length. -/
  | boundedString (length : Expr)
  | named (name : Ident)
  | array (item : TypeExpr) (lengths : List Expr)
  | struct (components : List ComponentDecl)

/-- Components of one type in a structure type. -/
structure ComponentDecl where
  span : Span
  names : List Ident
  type : TypeExpr

end

end Pseudocode.Syntax
