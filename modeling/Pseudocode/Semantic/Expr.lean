import Pseudocode.Scope.Table
import Pseudocode.Syntax.Expr

/-!
# Analysed expressions and initializers

Each node carries the scope that it was analysed in; each expression carries its value.
-/

namespace Pseudocode.Semantic

structure Site where
  scope : ScopeId
  span : Span
deriving DecidableEq

mutual

structure Expr where
  site : Site
  value : Value
  kind : ExprKind

inductive ExprKind where
  | literal (value : Syntax.Literal)
  | paren (inner : Expr)
  | binary (op : Located BinaryOp) (left right : Expr)
  | unary (op : Located UnaryOp) (operand : Expr)
  | call (callee : Ident) (args : List Argument)
  | endOfFile (file : Expr)
  | cast (target : Ty) (value : Expr)
  | name (name : Ident)
  | subscript (array index : Expr)
  | component (base : Expr) (name : Ident)

structure Argument where
  site : Site
  mode : Mode
  value : Expr

end

def Expr.type (e : Expr) : Ty := e.value.type

def Expr.span (e : Expr) : Span := e.site.span

inductive Directive where
  | assertion (site : Site) (condition : Expr) (message : Option Expr)
  | showValue (site : Site) (expr : Expr)
  | showType (site : Site) (type : Ty)

inductive Designator where
  | index (site : Site) (expr : Expr)
  | component (site : Site) (name : Ident)

mutual

inductive Initializer where
  | expr (value : Expr)
  /-- The value is the aggregate that the items make out of the initial one. -/
  | braced (site : Site) (value : Value) (items : List Item)

inductive Item where
  | value (value : ItemValue)
  | directive (directive : Directive)

structure ItemValue where
  site : Site
  designators : List Designator
  value : Initializer

end

def Initializer.value : Initializer → Value
  | .expr e => e.value
  | .braced _ value _ => value

end Pseudocode.Semantic
