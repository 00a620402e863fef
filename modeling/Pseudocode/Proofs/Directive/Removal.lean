import Pseudocode.Analysis.Algorithm

/-!
# Programs without their directives

A directive can stand in front of an algorithm, among its declarations, among statements and between
the items of a braced initializer. Removing all of them makes a program *bare*, and an analysed
program as well. All other nodes stay as they are, their extents included.
-/

namespace Pseudocode

namespace Syntax

mutual

def Initializer.bare : Initializer → Initializer
  | .expr e => .expr e
  | .braced ⟨span, items⟩ => .braced ⟨span, bareItems items⟩

def bareItems : List Item → List Item
  | [] => []
  | .directive _ :: rest => bareItems rest
  | .value ⟨span, designators, value⟩ :: rest =>
    .value ⟨span, designators, value.bare⟩ :: bareItems rest

end

mutual

/-- The statement without the directives in it: no statement if it is a directive itself. -/
def Stmt.bare : Stmt → List Stmt
  | .nop span => [.nop span]
  | .expr e => [.expr e]
  | .alternative span first others none =>
    [.alternative span first.bare (bareClauses others) none]
  | .alternative span first others (some body) =>
    [.alternative span first.bare (bareClauses others) (some (bareStmts body))]
  | .assignment a => [.assignment a]
  | .routine span call => [.routine span call]
  | .loop span kind condition body => [.loop span kind condition (bareStmts body)]
  | .forLoop span variant start stop step body =>
    [.forLoop span variant start stop step (bareStmts body)]
  | .locals l => [.locals { l with initializer := l.initializer.map Initializer.bare }]
  | .returns r => [.returns r]
  | .switch span scrutinee cases => [.switch span scrutinee (bareCases cases)]
  | .directive _ => []

def Clause.bare : Clause → Clause
  | ⟨span, condition, body⟩ => ⟨span, condition, bareStmts body⟩

def bareClauses : List Clause → List Clause
  | [] => []
  | c :: rest => c.bare :: bareClauses rest

def bareCases : List Case → List Case
  | [] => []
  | ⟨span, value, body⟩ :: rest => ⟨span, value, bareStmts body⟩ :: bareCases rest

def bareStmts : List Stmt → List Stmt
  | [] => []
  | s :: rest => s.bare ++ bareStmts rest

end

def Decl.bare : Decl → List Decl
  | .constant c => [.constant { c with value := c.value.bare }]
  | .typeAlias a => [.typeAlias a]
  | .main span body => [.main span (bareStmts body)]
  | .forward signature => [.forward signature]
  | .definition span signature body => [.definition span signature (bareStmts body)]
  | .directive _ => []

def Algorithm.bare (a : Algorithm) : Algorithm := ⟨a.span, [], a.decls.flatMap Decl.bare⟩

theorem Initializer.span_bare (init : Initializer) : init.bare.span = init.span := by
  cases init with
  | expr e => rw [bare]
  | braced b =>
    obtain ⟨span, items⟩ := b
    rw [bare]
    rfl

theorem isEmpty_bareCases (cases : List Case) : (bareCases cases).isEmpty = cases.isEmpty := by
  cases cases with
  | nil => rfl
  | cons c rest =>
    obtain ⟨span, value, body⟩ := c
    rw [bareCases]
    rfl

end Syntax

namespace Semantic

mutual

def Initializer.bare : Initializer → Initializer
  | .expr e => .expr e
  | .braced site value items => .braced site value (bareItems items)

def bareItems : List Item → List Item
  | [] => []
  | .directive _ :: rest => bareItems rest
  | .value ⟨site, designators, value⟩ :: rest =>
    .value ⟨site, designators, value.bare⟩ :: bareItems rest

end

mutual

def Block.bare : Block → Block
  | ⟨site, stmts⟩ => ⟨site, bareStmts stmts⟩

def Stmt.bare : Stmt → List Stmt
  | .nop site => [.nop site]
  | .expr e => [.expr e]
  | .alternative site first others none =>
    [.alternative site first.bare (bareClauses others) none]
  | .alternative site first others (some body) =>
    [.alternative site first.bare (bareClauses others) (some body.bare)]
  | .assignment site target value => [.assignment site target value]
  | .routine site routine args => [.routine site routine args]
  | .loop site kind condition body => [.loop site kind condition body.bare]
  | .forLoop site variant start stop step body =>
    [.forLoop site variant start stop step body.bare]
  | .locals site type names initializer =>
    [.locals site type names (initializer.map Initializer.bare)]
  | .returns site value => [.returns site value]
  | .switch site scrutinee cases => [.switch site scrutinee (bareCases cases)]
  | .directive _ => []

def Clause.bare : Clause → Clause
  | ⟨site, condition, body⟩ => ⟨site, condition, body.bare⟩

def bareClauses : List Clause → List Clause
  | [] => []
  | c :: rest => c.bare :: bareClauses rest

def bareCases : List Case → List Case
  | [] => []
  | ⟨site, value, body⟩ :: rest => ⟨site, value, body.bare⟩ :: bareCases rest

def bareStmts : List Stmt → List Stmt
  | [] => []
  | s :: rest => s.bare ++ bareStmts rest

end

def Decl.bare : Decl → List Decl
  | .constant site type name initializer => [.constant site type name initializer.bare]
  | .typeAlias site name target => [.typeAlias site name target]
  | .main site body => [.main site body.bare]
  | .forward site signature => [.forward site signature]
  | .definition site signature body => [.definition site signature body.bare]
  | .directive _ => []

def Algorithm.bare (a : Algorithm) : Algorithm := ⟨a.site, [], a.decls.flatMap Decl.bare⟩

theorem Initializer.value_bare (init : Initializer) : init.bare.value = init.value := by
  cases init with
  | expr e => rw [bare]
  | braced site value items =>
    rw [bare]
    rfl

end Semantic

end Pseudocode
