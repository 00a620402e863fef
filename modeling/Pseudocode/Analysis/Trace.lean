import Pseudocode.Diagnostic.Cause
import Pseudocode.Syntax.Expr

/-!
# What an analysis leaves behind

An analysis of a piece of syntax has a result and a trace of events. The trace of two analyses in
sequence is the trace of the first followed by the trace of the second, and no result depends on a
trace, so results can be reasoned about without it.
-/

namespace Pseudocode

inductive Event where
  | found (finding : Finding)
  /-- The expression at `span` has to be constant, and is not. -/
  | notConstant (span : Span)
  /-- The integer operation at `span` has no result in the language. -/
  | overflow (span : Span)
  /-- The node has been given a type. -/
  | typed (id : Syntax.NodeId) (type : Ty)

structure Traced (α : Type) where
  result : α
  events : List Event

namespace Traced

variable {α β : Type}

instance : Monad Traced where
  pure a := ⟨a, []⟩
  bind x f := ⟨(f x.result).result, x.events ++ (f x.result).events⟩

@[simp]
theorem result_pure (a : α) : (pure a : Traced α).result = a := rfl

@[simp]
theorem events_pure (a : α) : (pure a : Traced α).events = [] := rfl

@[simp]
theorem result_bind (x : Traced α) (f : α → Traced β) :
    (x >>= f).result = (f x.result).result := rfl

@[simp]
theorem events_bind (x : Traced α) (f : α → Traced β) :
    (x >>= f).events = x.events ++ (f x.result).events := rfl

@[simp]
theorem result_map (f : α → β) (x : Traced α) : (f <$> x).result = f x.result := rfl

@[simp]
theorem events_map (f : α → β) (x : Traced α) : (f <$> x).events = x.events := by
  change x.events ++ [] = x.events
  simp

instance : LawfulMonad Traced := LawfulMonad.mk' Traced
  (by
    intro α x
    change Traced.mk x.result (x.events ++ []) = x
    simp)
  (by
    intro α β a f
    change Traced.mk (f a).result ([] ++ (f a).events) = f a
    simp)
  (by
    intro α β γ x f g
    change Traced.mk _ ((x.events ++ (f x.result).events) ++ _) = Traced.mk _ _
    simp [List.append_assoc])

def emit (event : Event) : Traced Unit := ⟨(), [event]⟩

def report (cause : Cause) (span : Span) : Traced Unit := emit (.found ⟨cause, span⟩)

@[simp]
theorem result_emit (event : Event) : (emit event).result = () := rfl

@[simp]
theorem events_emit (event : Event) : (emit event).events = [event] := rfl

@[simp]
theorem events_report (cause : Cause) (span : Span) :
    (report cause span).events = [.found ⟨cause, span⟩] := rfl

/-- A report in front of an analysis has no part in its result. -/
theorem result_unless_bind (c : Prop) [Decidable c] (x : Traced Unit) (y : Traced α) :
    (if c then y else x >>= fun _ => y).result = y.result := by
  split <;> rfl

end Traced

namespace Event

/-- The findings among the events, in order. A missing constant is put down to an overflow if an
operation inside the expression overflowed before; `overflows` holds those met so far. -/
def findings (overflows : List Span) : List Event → List Finding
  | [] => []
  | .found finding :: rest => finding :: findings overflows rest
  | .notConstant span :: rest =>
    ⟨.notConstant (overflows.any span.encloses), span⟩ :: findings overflows rest
  | .overflow span :: rest => findings (span :: overflows) rest
  | .typed .. :: rest => findings overflows rest

/-- The types given to nodes, in order. -/
def types (events : List Event) : List (Syntax.NodeId × Ty) :=
  events.filterMap fun
    | .typed id type => some (id, type)
    | _ => none

end Event

/-- The type of each node. A node that was analysed more than once keeps its first type. -/
structure InferredTypes where
  records : List (Syntax.NodeId × Ty)

namespace InferredTypes

def get? (t : InferredTypes) (id : Syntax.NodeId) : Option Ty := t.records.lookup id

/-- The nodes that have a type. -/
def nodes (t : InferredTypes) : List Syntax.NodeId := (t.records.map (·.1)).eraseDups

def size (t : InferredTypes) : Nat := t.nodes.length

end InferredTypes

end Pseudocode
