import Pseudocode.Proofs.Analysis.Session
import Pseudocode.Proofs.Analysis.Soundness

/-!
# Assignments to constants

An assignment whose target is the name of a constant is reported. One that goes into a constant by
subscripts and components is not: the check looks at the outermost node of the target only.
-/

namespace Pseudocode

namespace Syntax

mutual

/-- The variable that a chain of subscripts and components starts from. -/
def Lvalue.root? : Lvalue → Option Ident
  | ⟨_, _, .name name⟩ => some name
  | ⟨_, _, .subscript array _⟩ => array.root?
  | ⟨_, _, .component base _⟩ => base.root?

def Expr.root? : Expr → Option Ident
  | ⟨_, _, .lvalue l⟩ => l.root?
  | _ => none

end

/-- The chain is the variable alone. -/
def Lvalue.isName (l : Lvalue) : Bool :=
  match l.kind with
  | .name _ => true
  | _ => false

end Syntax

namespace Session

variable {α : Type}

/-- The diagnostics that are delivered on the way through `p`. -/
def delivers (s : Session) (p : Pass α) : List Diagnostic :=
  (p s).2.sink.delivered.drop s.sink.delivered.length

theorem delivers_reading (s : Session) (scope : ScopeId) (f : Env → Traced α) :
    s.delivers (reading scope f) =
      (((Event.findings s.overflows (f ⟨s.scopes, scope⟩).events).filter
        (s.config.enables ·.cause.code)).map (Finding.diagnostic s.source)).filter
          fun d => !s.sink.suppressed.contains d.code := by
  rw [delivers, reading, perform, sink_foldl_handle, Sink.delivered_reportAll, List.drop_left]

/-- Under a code that is switched on and not suppressed, all that is found is delivered. -/
theorem delivers_reading_filter {s : Session} {code : Code}
    (henabled : s.config.enables code = true) (hcode : code ∉ s.sink.suppressed)
    (scope : ScopeId) (f : Env → Traced α) :
    (s.delivers (reading scope f)).filter (·.code = code) =
      ((Event.findings s.overflows (f ⟨s.scopes, scope⟩).events).filter
        (·.cause.code = code)).map (Finding.diagnostic s.source) := by
  rw [delivers_reading, List.filter_filter, List.filter_map, List.filter_filter]
  congr 1
  refine List.filter_congr fun finding _ => ?_
  by_cases h : finding.cause.code = code
  · simp [Finding.diagnostic, h, henabled, hcode]
  · simp [Finding.diagnostic, h]

end Session

namespace Analysis

theorem level_of_code_eq {cause : Cause} (h : decide (cause.code = .constantAssignment) = true) :
    0 < cause.level := by
  cases cause with
  | constantAssigned => exact Nat.one_pos
  | unbindable error => cases error <;> cases of_decide_eq_true h
  | _ => cases of_decide_eq_true h

/-- The operands of an assignment have no part in this. -/
theorem findings_assignment (env : Env) (a : Syntax.Assignment) (overflows : List Span) :
    (Event.findings overflows (assignment env a).events).filter
        (·.cause.code = .constantAssignment) =
      ((assignedConstant? env a.target).map fun name =>
        ⟨.constantAssigned name, a.span⟩).toList := by
  have htarget := (bounded_lvalue env a.target).silent_found? fun _ => level_of_code_eq
  have hvalue := (bounded_assignedValue env a (lvalue env a.target).result).silent_found?
    fun _ => level_of_code_eq
  have hfilter : _ = (assignment env a).pick _ :=
    Event.findings_filter (p := fun cause => cause.code = .constantAssignment) (fun _ => rfl)
      overflows _
  refine hfilter.trans ?_
  rw [assignment, Traced.pick_bind, htarget, List.nil_append]
  cases h : assignedConstant? env a.target with
  | none => exact hvalue
  | some name => exact congrArg (_ :: ·) hvalue

end Analysis

namespace Session

open Syntax (nowhere ident)

/-- **A constant is protected as a whole, and only as a whole.** An assignment into the constant
that its target starts from is reported, and reported once, if the target is the constant itself.
If it is a part of the constant, however deep, nothing of the kind is reported. -/
theorem constantAssignments_of_root (s : Session) (scope : ScopeId) (a : Syntax.Assignment)
    {root : Ident} {symbol : Symbol} (hroot : a.target.root? = some root)
    (hsymbol : s.scopes.lookup scope root.text = some symbol)
    (hconstant : symbol.isConstant = true) (hcode : .constantAssignment ∉ s.sink.suppressed) :
    (s.delivers (stmt scope (.assignment a))).filter (·.code = .constantAssignment) =
      if a.target.isName then
        [Finding.diagnostic s.source ⟨.constantAssigned root.text, a.span⟩]
      else [] := by
  rw [stmt, delivers_reading_filter rfl hcode, Analysis.findings_assignment]
  obtain ⟨span, ⟨id, place, kind⟩, value⟩ := a
  cases kind with
  | name name =>
    obtain rfl : name = root := by simpa [Syntax.Lvalue.root?] using hroot
    simp [Analysis.assignedConstant?, hsymbol, hconstant, Syntax.Lvalue.isName]
  | subscript array index | component base name => rfl

/-- The session that has declared the pairs. -/
def pairsSession : Session := { start .default none with scopes := (analyze pairs).scopes }

/-- Assigns to a constant. -/
def assignLast : Syntax.Assignment :=
  ⟨nowhere, ⟨⟨5⟩, nowhere, .name (ident "last")⟩, .ofInteger 5⟩

/-- Assigns to the integer of the first pair. -/
def assignFirst : Syntax.Assignment :=
  ⟨nowhere, ⟨⟨5⟩, nowhere, .component (.subscript (.ofName "pairs") (.ofInteger 1)) (ident "n")⟩,
    .ofInteger 5⟩

theorem constantAssignments_pairs :
    (pairsSession.delivers (stmt ScopeTable.root (.assignment assignLast))).filter
        (·.code = .constantAssignment) =
      [⟨.constantAssignment, "reassigning constant `last`", [], nowhere⟩] ∧
    (pairsSession.delivers (stmt ScopeTable.root (.assignment assignFirst))).filter
        (·.code = .constantAssignment) = [] := by
  have hcode : .constantAssignment ∉ pairsSession.sink.suppressed := List.not_mem_nil
  constructor
  · exact constantAssignments_of_root pairsSession ScopeTable.root assignLast rfl rfl rfl hcode
  · exact constantAssignments_of_root pairsSession ScopeTable.root assignFirst rfl rfl rfl hcode

/-- A component of an element of a constant is assigned to without a report. -/
theorem constant_assigned_in_part :
    ¬ ∀ (s : Session) (scope : ScopeId) (a : Syntax.Assignment) (root : Ident) (symbol : Symbol),
      a.target.root? = some root → s.scopes.lookup scope root.text = some symbol →
      symbol.isConstant = true → .constantAssignment ∉ s.sink.suppressed →
      ((s.delivers (stmt scope (.assignment a))).filter
        (·.code = .constantAssignment)).length = 1 := by
  intro h
  have hfirst := h pairsSession ScopeTable.root assignFirst _ _ rfl rfl rfl List.not_mem_nil
  cases hfirst

end Session

end Pseudocode
