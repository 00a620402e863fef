import Pseudocode.Proofs.Outline.Syntax
import Pseudocode.Semantic.Statement

/-!
# The outline of an analysed tree

A node of an analysed tree is marked with its scope and, if it is an expression, with the expression
itself. Laid over the outline of a syntax tree, the outline of an analysed tree tells which
expression each term has become. The terms in a type have not become one: analysis leaves only the
type.
-/

namespace Pseudocode

namespace Semantic

structure Mark where
  scope : ScopeId
  expr? : Option Expr

def Site.mark (site : Site) : Mark := ⟨site.scope, none⟩

/-! ### Expressions -/

mutual

def Expr.outline : Expr → Outline Mark
  | ⟨site, value, kind⟩ => kind.outline site.span ⟨site.scope, some ⟨site, value, kind⟩⟩

def ExprKind.outline (span : Span) (mark : Mark) : ExprKind → Outline Mark
  | .literal value => .node (.literal value) span mark []
  | .paren inner => .node .paren span mark [inner.outline]
  | .binary op left right => .node (.binary op) span mark [left.outline, right.outline]
  | .unary op operand => .node (.unary op) span mark [operand.outline]
  | .call callee args => .node (.call callee) span mark (argumentOutlines args)
  | .endOfFile file => .node .endOfFile span mark [file.outline]
  | .cast _ value => .node .cast span mark [value.outline]
  | .name name => .node (.name name) span mark []
  | .subscript array index => .node .subscript span mark [array.outline, index.outline]
  | .component base name => .node (.component name) span mark [base.outline]

def argumentOutlines : List Argument → List (Outline Mark)
  | [] => []
  | ⟨site, mode, value⟩ :: rest =>
    .node (.argument mode) site.span site.mark [value.outline] :: argumentOutlines rest

end

def optionalOutline (e : Option Expr) : List (Outline Mark) := e.toList.map Expr.outline

/-! ### Directives and initializers -/

def Directive.outline : Directive → Outline Mark
  | .assertion site condition message =>
    .node .assertion site.span site.mark (condition.outline :: optionalOutline message)
  | .showValue site e => .node .showValue site.span site.mark [e.outline]
  | .showType site _ => .node .showType site.span site.mark []

def Designator.outline : Designator → Outline Mark
  | .index site e => .node .indexDesignator site.span site.mark [e.outline]
  | .component site name => .node (.componentDesignator name) site.span site.mark []

mutual

def Initializer.outline : Initializer → Outline Mark
  | .expr e => e.outline
  | .braced site _ items => .node .braced site.span site.mark (itemOutlines items)

def itemOutlines : List Item → List (Outline Mark)
  | [] => []
  | .directive d :: rest => d.outline :: itemOutlines rest
  | .value ⟨site, designators, value⟩ :: rest =>
    .node .item site.span site.mark (designators.map Designator.outline ++ [value.outline]) ::
      itemOutlines rest

end

/-! ### Statements -/

mutual

def Block.outline : Block → Outline Mark
  | ⟨site, stmts⟩ => .node .block site.span site.mark (stmtOutlines stmts)

def Stmt.outline : Stmt → Outline Mark
  | .nop site => .node .nop site.span site.mark []
  | .expr e => e.outline
  | .alternative site first others none =>
    .node .alternative site.span site.mark (first.outline :: clauseOutlines others)
  | .alternative site first others (some body) =>
    .node .alternative site.span site.mark
      (first.outline :: (clauseOutlines others ++ [body.outline]))
  | .assignment site target value =>
    .node .assignment site.span site.mark [target.outline, value.outline]
  | .routine site routine args =>
    .node (.routine routine) site.span site.mark (args.map Expr.outline)
  | .loop site kind condition body =>
    .node (.loop kind) site.span site.mark [condition.outline, body.outline]
  | .forLoop site variant start stop step body =>
    .node .forLoop site.span site.mark
      (variant.outline :: start.outline :: stop.outline ::
        (optionalOutline step ++ [body.outline]))
  | .locals site _ names initializer =>
    .node (.locals names) site.span site.mark (initializer.toList.map Initializer.outline)
  | .returns site value => .node .returns site.span site.mark (optionalOutline value)
  | .switch site scrutinee cases =>
    .node .switch site.span site.mark (scrutinee.outline :: caseOutlines cases)
  | .directive d => d.outline

def Clause.outline : Clause → Outline Mark
  | ⟨site, condition, body⟩ =>
    .node .clause site.span site.mark [condition.outline, body.outline]

def clauseOutlines : List Clause → List (Outline Mark)
  | [] => []
  | c :: rest => c.outline :: clauseOutlines rest

def caseOutlines : List Case → List (Outline Mark)
  | [] => []
  | ⟨site, value, body⟩ :: rest =>
    .node .case site.span site.mark (optionalOutline value ++ [body.outline]) ::
      caseOutlines rest

def stmtOutlines : List Stmt → List (Outline Mark)
  | [] => []
  | s :: rest => s.outline :: stmtOutlines rest

end

/-! ### Declarations -/

def FormalParameter.outline (p : FormalParameter) : Outline Mark :=
  .node (.parameter p.mode p.name) p.site.span p.site.mark []

def Signature.outline (s : Signature) : Outline Mark :=
  .node (.signature s.kind s.name) s.site.span s.site.mark
    (s.parameters.map FormalParameter.outline)

def Decl.outline : Decl → Outline Mark
  | .constant site _ name initializer =>
    .node (.constant name) site.span site.mark [initializer.outline]
  | .typeAlias site name _ => .node (.typeAlias name) site.span site.mark []
  | .main site body => .node .main site.span site.mark [body.outline]
  | .forward site signature => .node .forward site.span site.mark [signature.outline]
  | .definition site signature body =>
    .node .definition site.span site.mark [signature.outline, body.outline]
  | .directive d => d.outline

def Algorithm.outline (a : Algorithm) : Outline Mark :=
  .node (.algorithm a.leading.length) a.site.span a.site.mark
    (a.leading.map Directive.outline ++ a.decls.map Decl.outline)

/-- Where the nodes of the algorithm stand, each before those inside it. -/
def Algorithm.placements (a : Algorithm) : List Outline.Placement :=
  (a.outline.map Mark.scope).placements ScopeTable.root

end Semantic

/-! ### Counterparts -/

/-- A term, the scope it was analysed in, and the expression it has become. -/
structure Counterpart where
  term : Syntax.Term
  scope : ScopeId
  expr? : Option Semantic.Expr

namespace Outline

mutual

/-- The terms of a syntax tree with what they are in an analysed tree of the same shape. -/
def counterparts : Outline Syntax.Mark → Outline Semantic.Mark → List Counterpart
  | .node _ _ x xs, .node _ _ y ys =>
    x.before.map (⟨·, y.scope, none⟩) ++
      (counterpartsAll xs ys ++ x.after.map (⟨·, y.scope, y.expr?⟩))

def counterpartsAll : List (Outline Syntax.Mark) → List (Outline Semantic.Mark) →
    List Counterpart
  | x :: xs, y :: ys => counterparts x y ++ counterpartsAll xs ys
  | _, _ => []

end

theorem counterpartsAll_append {xs : List (Outline Syntax.Mark)}
    {ys : List (Outline Semantic.Mark)} (h : xs.length = ys.length)
    (xs' : List (Outline Syntax.Mark)) (ys' : List (Outline Semantic.Mark)) :
    counterpartsAll (xs ++ xs') (ys ++ ys') =
      counterpartsAll xs ys ++ counterpartsAll xs' ys' := by
  induction xs generalizing ys with
  | nil =>
    obtain rfl := List.length_eq_zero_iff.mp h.symm
    simp [counterpartsAll]
  | cons x xs ih =>
    obtain ⟨y, ys, rfl⟩ := List.exists_cons_of_length_eq_add_one h.symm
    have hlength : xs.length = ys.length := Nat.succ.inj h
    simp only [List.cons_append, counterpartsAll, ih hlength, List.append_assoc]

mutual

/-- No term is left out. -/
theorem term_counterparts : ∀ (x : Outline Syntax.Mark) (y : Outline Semantic.Mark),
    x.erase = y.erase → (counterparts x y).map (·.term) = x.terms
  | .node _ _ x xs, .node _ _ y ys, h => by
    have hchildren : mapAll (fun _ => ()) xs = mapAll (fun _ => ()) ys := (node.inj h).2.2.2
    rw [mapAll_eq_map, mapAll_eq_map] at hchildren
    have hterms := term_counterpartsAll xs ys hchildren
    simp only [counterparts, terms, List.map_append, List.map_map, hterms]
    simp [Function.comp_def]

theorem term_counterpartsAll :
    ∀ (xs : List (Outline Syntax.Mark)) (ys : List (Outline Semantic.Mark)),
      xs.map erase = ys.map erase → (counterpartsAll xs ys).map (·.term) = termsAll xs
  | [], [], _ => rfl
  | [], _ :: _, h => by cases h
  | _ :: _, [], h => by cases h
  | x :: xs, y :: ys, h => by
    obtain ⟨hfirst, hrest⟩ := List.cons.inj h
    rw [counterpartsAll, List.map_append, term_counterparts x y hfirst,
      term_counterpartsAll xs ys hrest, termsAll]

end

end Outline

end Pseudocode
