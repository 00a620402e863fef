import Pseudocode.Proofs.Outline.Basic
import Pseudocode.Syntax.Statement

/-!
# The outline of a syntax tree

The terms of a program are the pieces of its syntax that have a value: its expressions and lvalues.
An outline shows no types, so the terms in a type are kept in the mark of the node where the type is
written. Nor does it show that an lvalue is used as an expression: the two terms share one node.
The terms are listed in the order in which their analyses end.
-/

namespace Pseudocode

namespace Syntax

inductive Term where
  | expr (e : Expr)
  | lvalue (l : Lvalue)

def Term.id : Term → NodeId
  | .expr e => e.id
  | .lvalue l => l.id

/-- The terms that belong to a node itself, before and after those of the nodes inside it. -/
structure Mark where
  before : List Term
  after : List Term

def Mark.plain : Mark := ⟨[], []⟩

end Syntax

namespace Outline

open Syntax (Term Mark)

mutual

def terms : Outline Mark → List Term
  | .node _ _ mark children => mark.before ++ (termsAll children ++ mark.after)

def termsAll : List (Outline Mark) → List Term
  | [] => []
  | o :: os => o.terms ++ termsAll os

end

end Outline

namespace Syntax

/-! ### Expressions and types -/

mutual

def Expr.outline : Expr → Outline Mark
  | ⟨id, span, kind⟩ => kind.outline span (.expr ⟨id, span, kind⟩)

/-- The outline of the term `self`, which has the given kind. -/
def ExprKind.outline (span : Span) (self : Term) : ExprKind → Outline Mark
  | .literal value => .node (.literal value) span ⟨[], [self]⟩ []
  | .paren inner => .node .paren span ⟨[], [self]⟩ [inner.outline]
  | .binary op left right => .node (.binary op) span ⟨[], [self]⟩ [left.outline, right.outline]
  | .unary op operand => .node (.unary op) span ⟨[], [self]⟩ [operand.outline]
  | .call callee args => .node (.call callee) span ⟨[], [self]⟩ (argumentOutlines args)
  | .endOfFile file => .node .endOfFile span ⟨[], [self]⟩ [file.outline]
  | .cast target value => .node .cast span ⟨target.terms, [self]⟩ [value.outline]
  | .lvalue value => value.outline [self]

/-- The terms that are this lvalue used as an expression are `uses`. -/
def Lvalue.outline (uses : List Term) : Lvalue → Outline Mark
  | ⟨id, span, kind⟩ => kind.outline span (.lvalue ⟨id, span, kind⟩ :: uses)

def LvalueKind.outline (span : Span) (selves : List Term) : LvalueKind → Outline Mark
  | .name name => .node (.name name) span ⟨[], selves⟩ []
  | .subscript array index => .node .subscript span ⟨[], selves⟩ [array.outline, index.outline]
  | .component base name => .node (.component name) span ⟨[], selves⟩ [base.outline]

def argumentOutlines : List Argument → List (Outline Mark)
  | [] => []
  | ⟨span, mode, value⟩ :: rest =>
    .node (.argument mode) span .plain [value.outline] :: argumentOutlines rest

def TypeExpr.terms : TypeExpr → List Term
  | ⟨_, kind⟩ => kind.terms

def TypeKind.terms : TypeKind → List Term
  | .boolean | .character | .integer | .real | .file | .string | .named _ => []
  | .boundedString length => length.outline.terms
  | .array item lengths => item.terms ++ lengthTerms lengths
  | .struct components => componentTerms components

def lengthTerms : List Expr → List Term
  | [] => []
  | length :: rest => length.outline.terms ++ lengthTerms rest

def componentTerms : List ComponentDecl → List Term
  | [] => []
  | ⟨_, _, type⟩ :: rest => type.terms ++ componentTerms rest

end

def optionalOutline (e : Option Expr) : List (Outline Mark) := e.toList.map Expr.outline

/-! ### Directives and initializers -/

def Directive.outline : Directive → Outline Mark
  | ⟨span, .assertion condition message⟩ =>
    .node .assertion span .plain (condition.outline :: optionalOutline message)
  | ⟨span, .showValue e⟩ => .node .showValue span .plain [e.outline]
  | ⟨span, .showType type⟩ => .node .showType span ⟨type.terms, []⟩ []

def Designator.outline : Designator → Outline Mark
  | ⟨span, .index e⟩ => .node .indexDesignator span .plain [e.outline]
  | ⟨span, .component name⟩ => .node (.componentDesignator name) span .plain []

mutual

def Initializer.outline : Initializer → Outline Mark
  | .expr e => e.outline
  | .braced ⟨span, items⟩ => .node .braced span .plain (itemOutlines items)

def itemOutlines : List Item → List (Outline Mark)
  | [] => []
  | .directive d :: rest => d.outline :: itemOutlines rest
  | .value ⟨span, designators, value⟩ :: rest =>
    .node .item span .plain (designators.map Designator.outline ++ [value.outline]) ::
      itemOutlines rest

end

/-! ### Statements -/

def RoutineCall.operands : RoutineCall → List (Outline Mark)
  | .assign file name => [file.outline [], name.outline]
  | .write file value => [file.outline, value.outline]
  | .print values => values.map Expr.outline
  | .read file target => [file.outline, target.outline []]
  | .readKey target => [target.outline []]
  | .close file | .openAppend file | .openWrite file | .openRead file => [file.outline]

mutual

/-- A block has no place of its own in the text: it stands where its owner does. -/
def Stmt.outline : Stmt → Outline Mark
  | .nop span => .node .nop span .plain []
  | .expr e => e.outline
  | .alternative span first others none =>
    .node .alternative span .plain (first.outline :: clauseOutlines others)
  | .alternative span first others (some body) =>
    .node .alternative span .plain
      (first.outline :: (clauseOutlines others ++ [.node .block span .plain (stmtOutlines body)]))
  | .assignment ⟨span, target, value⟩ =>
    .node .assignment span .plain [target.outline [], value.outline]
  | .routine span call => .node (.routine call.routine) span .plain call.operands
  | .loop span kind condition body =>
    .node (.loop kind) span .plain
      [condition.outline, .node .block span .plain (stmtOutlines body)]
  | .forLoop span variant start stop step body =>
    .node .forLoop span .plain
      (variant.outline [] :: start.outline :: stop.outline ::
        (optionalOutline step ++ [.node .block span .plain (stmtOutlines body)]))
  | .locals ⟨span, type, names, initializer⟩ =>
    .node (.locals names) span ⟨type.terms, []⟩ (initializer.toList.map Initializer.outline)
  | .returns ⟨span, value⟩ => .node .returns span .plain (optionalOutline value)
  | .switch span scrutinee cases =>
    .node .switch span .plain (scrutinee.outline :: caseOutlines cases)
  | .directive d => d.outline

def Clause.outline : Clause → Outline Mark
  | ⟨span, condition, body⟩ =>
    .node .clause span .plain [condition.outline, .node .block span .plain (stmtOutlines body)]

def clauseOutlines : List Clause → List (Outline Mark)
  | [] => []
  | c :: rest => c.outline :: clauseOutlines rest

def caseOutlines : List Case → List (Outline Mark)
  | [] => []
  | ⟨span, value, body⟩ :: rest =>
    .node .case span .plain
      (optionalOutline value ++ [.node .block span .plain (stmtOutlines body)]) ::
        caseOutlines rest

def stmtOutlines : List Stmt → List (Outline Mark)
  | [] => []
  | s :: rest => s.outline :: stmtOutlines rest

end

/-! ### Declarations -/

def FormalParameter.outline (p : FormalParameter) : Outline Mark :=
  .node (.parameter p.mode p.name) p.span ⟨p.type.terms, []⟩ []

def Signature.outline (s : Signature) : Outline Mark :=
  .node (.signature s.kind s.name) s.span ⟨[], s.returnType.toList.flatMap TypeExpr.terms⟩
    (s.parameters.map FormalParameter.outline)

def Decl.outline : Decl → Outline Mark
  | .constant ⟨span, type, name, value⟩ =>
    .node (.constant name) span ⟨type.terms, []⟩ [value.outline]
  | .typeAlias ⟨span, name, target⟩ => .node (.typeAlias name) span ⟨target.terms, []⟩ []
  | .main span body => .node .main span .plain [.node .block span .plain (stmtOutlines body)]
  | .forward s => .node .forward s.span .plain [s.outline]
  | .definition span s body =>
    .node .definition span .plain [s.outline, .node .block span .plain (stmtOutlines body)]
  | .directive d => d.outline

def Algorithm.outline (a : Algorithm) : Outline Mark :=
  .node (.algorithm a.leading.length) a.span .plain
    (a.leading.map Directive.outline ++ a.decls.map Decl.outline)

/-- All expressions and lvalues of the algorithm. -/
def Algorithm.terms (a : Algorithm) : List Term := a.outline.terms

end Syntax

end Pseudocode
