import Pseudocode.Analysis.Algorithm

/-!
# Return statements, and programs without them

An exit of an analysed body is a return statement in it, together with the type that the value has
to have. What there is to complain about an exit can be told from the exit alone. A program is
*muted* by letting it print the values that it would return: nothing is asked of a printed value.
-/

namespace Pseudocode

/-! ### Merging -/

/-- The elements of `zs` are those of `xs` and those of `ys`, and either come in their order. -/
inductive Merges {α : Type} : List α → List α → List α → Prop
  | nil : Merges [] [] []
  | left {x : α} {xs ys zs : List α} (h : Merges xs ys zs) : Merges (x :: xs) ys (x :: zs)
  | right {y : α} {xs ys zs : List α} (h : Merges xs ys zs) : Merges xs (y :: ys) (y :: zs)

section Merges

variable {α β : Type} {xs ys zs : List α}

theorem merges_nil_left (ys : List α) : Merges [] ys ys := by
  induction ys with
  | nil => exact .nil
  | cons y ys ih => exact ih.right

theorem merges_nil_right (xs : List α) : Merges xs [] xs := by
  induction xs with
  | nil => exact .nil
  | cons x xs ih => exact ih.left

theorem Merges.append {xs' ys' zs' : List α} (h : Merges xs ys zs) (h' : Merges xs' ys' zs') :
    Merges (xs ++ xs') (ys ++ ys') (zs ++ zs') := by
  induction h with
  | nil => exact h'
  | left _ ih => exact ih.left
  | right _ ih => exact ih.right

theorem Merges.mem_iff (h : Merges xs ys zs) {a : α} : a ∈ zs ↔ a ∈ xs ∨ a ∈ ys := by
  induction h with
  | nil => simp
  | left _ ih => simp only [List.mem_cons, ih, or_assoc]
  | right _ ih => simp only [List.mem_cons, ih, or_left_comm]

theorem Merges.map (h : Merges xs ys zs) (f : α → β) : Merges (xs.map f) (ys.map f) (zs.map f) := by
  induction h with
  | nil => exact .nil
  | left _ ih => exact ih.left
  | right _ ih => exact ih.right

theorem Merges.filter (h : Merges xs ys zs) (p : α → Bool) :
    Merges (xs.filter p) (ys.filter p) (zs.filter p) := by
  induction h with
  | nil => exact .nil
  | left _ ih | right _ ih =>
    rw [List.filter_cons, List.filter_cons]
    split
    · constructor
      exact ih
    · exact ih

end Merges

namespace Syntax

/-! ### In a program -/

/-- Prints the value instead of returning it. -/
def Return.muted : Return → Stmt
  | ⟨span, none⟩ => .nop span
  | ⟨span, some e⟩ => .routine span (.print [e])

mutual

def Stmt.muted : Stmt → Stmt
  | .nop span => .nop span
  | .expr e => .expr e
  | .alternative span first others none => .alternative span first.muted (mutedClauses others) none
  | .alternative span first others (some body) =>
    .alternative span first.muted (mutedClauses others) (some (mutedStmts body))
  | .assignment a => .assignment a
  | .routine span call => .routine span call
  | .loop span kind condition body => .loop span kind condition (mutedStmts body)
  | .forLoop span variant start stop step body =>
    .forLoop span variant start stop step (mutedStmts body)
  | .locals l => .locals l
  | .returns r => r.muted
  | .switch span scrutinee cases => .switch span scrutinee (mutedCases cases)
  | .directive d => .directive d

def Clause.muted : Clause → Clause
  | ⟨span, condition, body⟩ => ⟨span, condition, mutedStmts body⟩

def mutedClauses : List Clause → List Clause
  | [] => []
  | c :: rest => c.muted :: mutedClauses rest

def mutedCases : List Case → List Case
  | [] => []
  | ⟨span, value, body⟩ :: rest => ⟨span, value, mutedStmts body⟩ :: mutedCases rest

def mutedStmts : List Stmt → List Stmt
  | [] => []
  | s :: rest => s.muted :: mutedStmts rest

end

mutual

/-- The return statements in a statement, at any depth. -/
def Stmt.exits : Stmt → List Return
  | .nop _ | .expr _ | .assignment _ | .routine .. | .locals _ | .directive _ => []
  | .alternative _ first others none => first.exits ++ clauseExits others
  | .alternative _ first others (some body) =>
    first.exits ++ (clauseExits others ++ stmtExits body)
  | .loop _ _ _ body => stmtExits body
  | .forLoop _ _ _ _ _ body => stmtExits body
  | .returns r => [r]
  | .switch _ _ cases => caseExits cases

def Clause.exits : Clause → List Return
  | ⟨_, _, body⟩ => stmtExits body

def clauseExits : List Clause → List Return
  | [] => []
  | c :: rest => c.exits ++ clauseExits rest

def caseExits : List Case → List Return
  | [] => []
  | ⟨_, _, body⟩ :: rest => stmtExits body ++ caseExits rest

def stmtExits : List Stmt → List Return
  | [] => []
  | s :: rest => s.exits ++ stmtExits rest

end

def Decl.muted : Decl → Decl
  | .constant c => .constant c
  | .typeAlias a => .typeAlias a
  | .main span body => .main span (mutedStmts body)
  | .forward s => .forward s
  | .definition span s body => .definition span s (mutedStmts body)
  | .directive d => .directive d

def Decl.exits : Decl → List Return
  | .main _ body | .definition _ _ body => stmtExits body
  | .constant _ | .typeAlias _ | .forward _ | .directive _ => []

/-- The program that prints what it would return. -/
def Algorithm.muted (a : Algorithm) : Algorithm := ⟨a.span, a.leading, a.decls.map Decl.muted⟩

theorem isEmpty_mutedCases (cases : List Case) : (mutedCases cases).isEmpty = cases.isEmpty := by
  cases cases with
  | nil => rfl
  | cons c rest =>
    obtain ⟨span, value, body⟩ := c
    rw [mutedCases]
    rfl

end Syntax

namespace Semantic

/-! ### In an analysed program -/

/-- A return statement that has to return something of type `expected`. -/
structure Exit where
  expected : Ty
  site : Site
  value : Option Expr

/-- What is wrong with an exit. Without a value it has to return nothing, and a value has to convert
to the expected type. -/
def Exit.complaint? (x : Exit) : Option Finding :=
  match x.value with
  | none =>
    if x.expected.same .void then none else some ⟨.returnWithoutValue x.expected, x.site.span⟩
  | some e =>
    if e.type.convertible x.expected then none else some ⟨.wrongType e.type x.expected, e.span⟩

section Exits

variable (expected : Ty)

mutual

def Block.exits : Block → List Exit
  | ⟨_, stmts⟩ => stmtExits stmts

def Stmt.exits : Stmt → List Exit
  | .nop _ | .expr _ | .assignment .. | .routine .. | .locals .. | .directive _ => []
  | .alternative _ first others none => first.exits ++ clauseExits others
  | .alternative _ first others (some body) => first.exits ++ (clauseExits others ++ body.exits)
  | .loop _ _ _ body => body.exits
  | .forLoop _ _ _ _ _ body => body.exits
  | .returns site value => [⟨expected, site, value⟩]
  | .switch _ _ cases => caseExits cases

def Clause.exits : Clause → List Exit
  | ⟨_, _, body⟩ => body.exits

def clauseExits : List Clause → List Exit
  | [] => []
  | c :: rest => c.exits ++ clauseExits rest

def caseExits : List Case → List Exit
  | [] => []
  | ⟨_, _, body⟩ :: rest => body.exits ++ caseExits rest

def stmtExits : List Stmt → List Exit
  | [] => []
  | s :: rest => s.exits ++ stmtExits rest

end

end Exits

/-- A main program has to return an integer, a callable what its signature says. -/
def Decl.exits : Decl → List Exit
  | .main _ body => body.exits .integer
  | .definition _ signature body => body.exits signature.returnType
  | .constant .. | .typeAlias .. | .forward .. | .directive _ => []

def Algorithm.exits (a : Algorithm) : List Exit := a.decls.flatMap Decl.exits

end Semantic

end Pseudocode
