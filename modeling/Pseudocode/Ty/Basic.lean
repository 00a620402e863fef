import Pseudocode.Span

/-!
# Types

A type expression evaluates to a `Ty`. An ill-formed one evaluates to `unknown`, which is taken to
be whatever its context wants, so that one mistake is reported once.
-/

namespace Pseudocode

inductive Ty where
  /-- The type that could not be made out; `origin` is where. -/
  | unknown (origin : Span)
  | void
  | boolean
  | character
  | integer
  | real
  | file
  | string
  /-- Strings of at most `capacity` characters. -/
  | boundedString (capacity : Nat)
  | array (item : Ty) (length : Nat)
  /-- Components in declaration order. -/
  | struct (components : List (String × Ty))
  /-- A second name for `target`. -/
  | aliased (name : String) (target : Ty)
deriving Inhabited

namespace Ty

/-- The type behind the outermost aliases. -/
def unaliased : Ty → Ty
  | .aliased _ target => target.unaliased
  | t => t

def isUnknown (t : Ty) : Bool :=
  match t.unaliased with
  | .unknown _ => true
  | _ => false

def isStringLike (t : Ty) : Bool :=
  match t.unaliased with
  | .string | .boundedString _ => true
  | _ => false

def isNumeric (t : Ty) : Bool :=
  match t.unaliased with
  | .integer | .real => true
  | _ => false

def isAggregate (t : Ty) : Bool :=
  match t.unaliased with
  | .array .. | .struct _ => true
  | _ => false

/-- Lengths of the nested array levels, outermost first. -/
def dimensions : Ty → List Nat
  | .array item length => length :: item.dimensions
  | .aliased _ target => target.dimensions
  | _ => []

/-- The type of the first component called `name`. -/
def component? (t : Ty) (name : String) : Option Ty :=
  match t.unaliased with
  | .struct components => components.lookup name
  | _ => none

@[simp]
theorem unaliased_aliased (name : String) (target : Ty) :
    (aliased name target).unaliased = target.unaliased := rfl

@[simp]
theorem unaliased_unaliased (t : Ty) : t.unaliased.unaliased = t.unaliased := by
  fun_induction unaliased t with
  | case1 _ _ ih => exact ih
  | case2 t hnot =>
    cases t with
    | aliased name target => exact absurd rfl (hnot name target)
    | _ => rfl

@[simp]
theorem isUnknown_unaliased (t : Ty) : t.unaliased.isUnknown = t.isUnknown := by
  simp [isUnknown]

theorem isUnknown_iff {t : Ty} : t.isUnknown = true ↔ ∃ origin, t.unaliased = unknown origin := by
  unfold isUnknown
  split <;> rename_i h
  · exact ⟨fun _ => ⟨_, h⟩, fun _ => rfl⟩
  · constructor
    · intro hfalse
      cases hfalse
    · rintro ⟨origin, horigin⟩
      exact absurd horigin (h origin)

end Ty

end Pseudocode
