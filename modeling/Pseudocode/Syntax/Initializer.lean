import Pseudocode.Syntax.Expr

/-!
# Directives and initializers
-/

namespace Pseudocode.Syntax

inductive DirectiveKind where
  /-- The condition has to hold during analysis; the message is shown if it does not. -/
  | assertion (condition : Expr) (message : Option Expr)
  | showValue (expr : Expr)
  | showType (type : TypeExpr)

/-- An instruction to the analysis itself. -/
structure Directive where
  span : Span
  kind : DirectiveKind

inductive DesignatorKind where
  /-- One-based position in an array. -/
  | index (expr : Expr)
  | component (name : Ident)

structure Designator where
  span : Span
  kind : DesignatorKind

mutual

inductive Initializer where
  | expr (value : Expr)
  | braced (value : BracedInitializer)

structure BracedInitializer where
  span : Span
  items : List Item

/-- What stands between the commas of a braced initializer. -/
inductive Item where
  | value (value : ItemValue)
  /-- Takes no position in the aggregate. -/
  | directive (directive : Directive)

/-- A value for one place of the aggregate: the designated one, or else the next one. -/
structure ItemValue where
  span : Span
  designators : List Designator
  value : Initializer

end

def Initializer.span : Initializer → Span
  | .expr e => e.span
  | .braced b => b.span

def Item.span : Item → Span
  | .value item => item.span
  | .directive d => d.span

end Pseudocode.Syntax
