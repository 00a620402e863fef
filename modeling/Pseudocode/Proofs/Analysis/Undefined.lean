import Pseudocode.Proofs.Analysis.Absorption
import Pseudocode.Proofs.Analysis.Emission
import Pseudocode.Proofs.Filling.Contents

/-!
# Undefined names

A name that stands for nothing is reported where it is used. The expressions around it are neither
typed nor evaluated and report nothing of their own, and neither does what they are used for.
-/

namespace Pseudocode

open Traced (emit report)

/-! ### Reports -/

/-- The event, if it has a part in what is reported. -/
def Event.report? : Event → Option Event
  | .typed .. => none
  | e => some e

instance : Event.Ignores Event.report? .typing where
  eq_none e he := by
    cases e with
    | found f => exact absurd he f.cause.topic_ne_typing
    | notConstant | overflow => cases he
    | typed => rfl

theorem Event.findings_report? (overflows : List Span) (es : List Event) :
    findings overflows (es.filterMap report?) = findings overflows es := by
  fun_induction findings overflows es with
  | case1 => rfl
  | case2 overflows finding rest ih => exact congrArg (finding :: ·) ih
  | case3 overflows span rest ih => exact congrArg (_ :: ·) ih
  | case4 overflows span rest ih => exact ih
  | case5 overflows id type rest ih => exact ih

/-- The overflows met so far, once the events are over. -/
def Event.overflowsAfter (overflows : List Span) : List Event → List Span
  | [] => overflows
  | .overflow span :: rest => overflowsAfter (span :: overflows) rest
  | _ :: rest => overflowsAfter overflows rest

theorem Event.findings_append (overflows : List Span) (es others : List Event) :
    findings overflows (es ++ others) =
      findings overflows es ++ findings (overflowsAfter overflows es) others := by
  fun_induction findings overflows es with
  | case1 overflows => rfl
  | case2 overflows finding rest ih => exact congrArg (_ :: ·) ih
  | case3 overflows span rest ih => exact congrArg (_ :: ·) ih
  | case4 overflows span rest ih => exact ih
  | case5 overflows id type rest ih => exact ih

open Event (report?)

/-! ### Checks on poisoned expressions -/

/-- The expression is the result of an error that was reported. -/
structure Semantic.Expr.Poisoned (e : Semantic.Expr) : Prop where
  isUnknown : e.type.isUnknown = true
  isInvalid : e.value.isInvalid = true

theorem Ty.convertible_of_isUnknown {t : Ty} (h : t.isUnknown = true) (target : Ty) :
    t.convertible target = true := convertible_of_same (same_of_isUnknown_left h)

namespace Check

variable {e : Semantic.Expr}

theorem convertible_of_isUnknown (h : e.type.isUnknown = true) (target : Ty) :
    convertible e target = pure true := by
  rw [convertible, if_pos (Ty.convertible_of_isUnknown h target)]

theorem convertible_to_unknown (e : Semantic.Expr) {target : Ty} (h : target.isUnknown = true) :
    convertible e target = pure true := by
  rw [convertible, if_pos (Ty.convertible_of_same (Ty.same_of_isUnknown_right h))]

theorem assignable_of_isUnknown (h : e.type.isUnknown = true) (target : Ty) :
    assignable e target = pure () := by
  have hassignable := Ty.assignable_of_convertible (Ty.convertible_of_isUnknown h target)
  simp [assignable, hassignable]

theorem notConstant_of_isInvalid {v : Value} (h : v.isInvalid = true) (span : Span) :
    notConstant v span = pure () := by
  simp [notConstant, h]

theorem constant_of_isInvalid {v : Value} (h : v.isInvalid = true) (span : Span) :
    constant v span = pure () := by
  rw [constant, notConstant_of_isInvalid h]
  simp

theorem length_of_poisoned (h : e.Poisoned) : length e = pure none := by
  rw [length, convertible_of_isUnknown h.isUnknown, Value.integer?_of_isInvalid h.isInvalid,
    notConstant_of_isInvalid h.isInvalid]
  rfl

/-- An operand of unknown type makes the result one, and there is no remark. -/
theorem binary_of_isUnknown (op : BinaryOp) {left right : Semantic.Expr} (span : Span)
    (h : left.type.isUnknown = true ∨ right.type.isUnknown = true) :
    ∃ type, type.isUnknown = true ∧ binary op left right span = pure (.invalid type) := by
  by_cases hleft : left.type.isUnknown = true
  · refine ⟨left.type, hleft, ?_⟩
    have happly : op.apply left.value right.value span = .poisoned left.type := if_pos hleft
    rw [binary, happly]
    rfl
  · have hright := h.resolve_left hleft
    refine ⟨right.type, hright, ?_⟩
    have happly : op.apply left.value right.value span = .poisoned right.type :=
      (if_neg hleft).trans (if_pos hright)
    rw [binary, happly]
    rfl

theorem unary_of_isUnknown (op : UnaryOp) (span : Span) (h : e.type.isUnknown = true) :
    unary op e span = pure (.invalid e.type) := by
  have happly : op.apply e.value span = .poisoned e.type := if_pos h
  rw [unary, happly]
  rfl

/-- Reports an index that is not an integer. -/
def integerIndex (index : Semantic.Expr) : Traced Unit := do
  unless index.type.convertible .integer do
    report (.nonIntegerIndex index.type) index.span

/-- Of a subscript, only the index is left to check. -/
theorem subscript_of_isUnknown (index : Semantic.Expr) (span : Span) (h : e.type.isUnknown = true) :
    subscript e index span = do
      integerIndex index
      return .invalid e.type := by
  obtain ⟨origin, horigin⟩ := Ty.isUnknown_iff.mp h
  rw [subscript, horigin, integerIndex]
  by_cases hindex : index.type.convertible .integer = true
  · simp [hindex]
  · simp [hindex]

theorem component_of_isUnknown (name : Ident) (span : Span) (h : e.type.isUnknown = true) :
    component e name span = pure (.invalid e.type) := by
  obtain ⟨origin, horigin⟩ := Ty.isUnknown_iff.mp h
  rw [component, horigin]

theorem name_of_lookup {env : Env} {u : Ident} (h : env.table.lookup env.scope u.text = none) :
    name env u = do
      report (.unresolved (.undefined u.text .value)) u.span
      return .invalid (.unknown u.span) := by
  have hresolve : env.table.lookupValue env.scope u.text = .error (.undefined u.text .value) := by
    rw [ScopeTable.lookupValue, ScopeTable.resolve, h]
  rw [name, hresolve]

end Check

/-! ### Contexts -/

namespace Syntax

/-- What a node of the syntax is known by. -/
structure Node where
  id : NodeId
  span : Span

/-- An expression with a hole for a name. An lvalue in it is a node inside the node of the
expression that it is. -/
inductive Context where
  | hole (node place : Node)
  | paren (node : Node) (inner : Context)
  | unary (node : Node) (op : Located UnaryOp) (operand : Context)
  | binaryLeft (node : Node) (op : Located BinaryOp) (left : Context) (right : Expr)
  | binaryRight (node : Node) (op : Located BinaryOp) (left : Expr) (right : Context)
  | subscript (node place : Node) (array : Context) (index : Expr)
  | component (node place : Node) (base : Context) (name : Ident)

def Node.expr (node : Node) (kind : ExprKind) : Expr := ⟨node.id, node.span, kind⟩

/-- The expression with `u` in the hole. -/
def Context.fill (u : Ident) : Context → Expr
  | .hole node place => node.expr (.lvalue ⟨place.id, place.span, .name u⟩)
  | .paren node inner => node.expr (.paren (inner.fill u))
  | .unary node op operand => node.expr (.unary op (operand.fill u))
  | .binaryLeft node op left right => node.expr (.binary op (left.fill u) right)
  | .binaryRight node op left right => node.expr (.binary op left (right.fill u))
  | .subscript node place array index =>
    node.expr (.lvalue ⟨place.id, place.span, .subscript (array.fill u) index⟩)
  | .component node place base name =>
    node.expr (.lvalue ⟨place.id, place.span, .component (base.fill u) name⟩)

end Syntax

namespace Analysis

open Syntax (Context)

/-- One report about the name in the hole, and in their turn the analyses of the expressions beside
it. The only check is that an index is an integer. -/
def diagnosed (env : Env) (u : Ident) : Context → Traced Unit
  | .hole .. => Traced.report (.unresolved (.undefined u.text .value)) u.span
  | .paren _ inner => diagnosed env u inner
  | .unary _ _ operand => diagnosed env u operand
  | .binaryLeft _ _ left right => do
    diagnosed env u left
    let _ ← expr env right
  | .binaryRight _ _ left right => do
    let _ ← expr env left
    diagnosed env u right
  | .subscript _ _ array index => do
    diagnosed env u array
    let index ← expr env index
    Check.integerIndex index
  | .component _ _ base _ => diagnosed env u base

section Fill

variable {env : Env} {u : Ident}

theorem reports_lvalue (id : Syntax.NodeId) (span : Span) (l : Syntax.Lvalue) :
    (expr env ⟨id, span, .lvalue l⟩).pick report? = (lvalue env l).pick report? := by
  rw [expr]
  simp

theorem poisoned_fill (h : env.table.lookup env.scope u.text = none) (c : Context) :
    (expr env (c.fill u)).result.Poisoned := by
  induction c with
  | hole node place =>
    rw [Context.fill, Syntax.Node.expr, result_lvalue, lvalue, Check.name_of_lookup h]
    exact ⟨rfl, rfl⟩
  | paren node inner ih =>
    rw [Context.fill, Syntax.Node.expr, expr]
    exact ⟨ih.isUnknown, ih.isInvalid⟩
  | unary node op operand ih =>
    rw [Context.fill, Syntax.Node.expr, expr, Traced.result_bind,
      Check.unary_of_isUnknown op.item node.span ih.isUnknown]
    exact ⟨ih.isUnknown, rfl⟩
  | binaryLeft node op left right ih =>
    obtain ⟨type, htype, hbinary⟩ := Check.binary_of_isUnknown op.item node.span
      (.inl ih.isUnknown : _ ∨ (expr env right).result.type.isUnknown = true)
    rw [Context.fill, Syntax.Node.expr, expr, Traced.result_bind, Traced.result_bind, hbinary]
    exact ⟨htype, rfl⟩
  | binaryRight node op left right ih =>
    obtain ⟨type, htype, hbinary⟩ := Check.binary_of_isUnknown op.item node.span
      (.inr ih.isUnknown : (expr env left).result.type.isUnknown = true ∨ _)
    rw [Context.fill, Syntax.Node.expr, expr, Traced.result_bind, Traced.result_bind, hbinary]
    exact ⟨htype, rfl⟩
  | subscript node place array index ih =>
    rw [Context.fill, Syntax.Node.expr, result_lvalue, lvalue, Traced.result_bind,
      Traced.result_bind, Check.subscript_of_isUnknown _ place.span ih.isUnknown]
    exact ⟨ih.isUnknown, rfl⟩
  | component node place base name ih =>
    rw [Context.fill, Syntax.Node.expr, result_lvalue, lvalue, Traced.result_bind,
      Check.component_of_isUnknown name place.span ih.isUnknown]
    exact ⟨ih.isUnknown, rfl⟩

/-- What the context reports is what is due. -/
theorem reports_fill (h : env.table.lookup env.scope u.text = none) (c : Context) :
    (expr env (c.fill u)).pick report? = (diagnosed env u c).pick report? := by
  induction c with
  | hole node place =>
    rw [Context.fill, Syntax.Node.expr, reports_lvalue, lvalue, Check.name_of_lookup h]
    rfl
  | paren node inner ih =>
    rw [Context.fill, Syntax.Node.expr, expr, diagnosed]
    simp [ih]
  | unary node op operand ih =>
    have hunary := Check.unary_of_isUnknown op.item node.span (poisoned_fill h operand).isUnknown
    rw [Context.fill, Syntax.Node.expr, expr, diagnosed]
    simp [hunary, ih]
  | binaryLeft node op left right ih =>
    obtain ⟨type, -, hbinary⟩ := Check.binary_of_isUnknown op.item node.span
      (.inl (poisoned_fill h left).isUnknown : _ ∨ (expr env right).result.type.isUnknown = true)
    rw [Context.fill, Syntax.Node.expr, expr, diagnosed]
    simp [hbinary, ih]
  | binaryRight node op left right ih =>
    obtain ⟨type, -, hbinary⟩ := Check.binary_of_isUnknown op.item node.span
      (.inr (poisoned_fill h right).isUnknown : (expr env left).result.type.isUnknown = true ∨ _)
    rw [Context.fill, Syntax.Node.expr, expr, diagnosed]
    simp [hbinary, ih]
  | subscript node place array index ih =>
    have hsubscript := Check.subscript_of_isUnknown (expr env index).result place.span
      (poisoned_fill h array).isUnknown
    rw [Context.fill, Syntax.Node.expr, reports_lvalue, lvalue, diagnosed]
    simp [hsubscript, ih]
  | component node place base name ih =>
    have hcomponent := Check.component_of_isUnknown name place.span (poisoned_fill h base).isUnknown
    rw [Context.fill, Syntax.Node.expr, reports_lvalue, lvalue, diagnosed]
    simp [hcomponent, ih]

end Fill

/-! ### Uses -/

/-- Nothing is reported on account of the expression, whatever it is used for: an analysis that uses
it has the events of the expression and of its other parts, and no others. -/
structure Harmless (env : Env) (e : Syntax.Expr) : Prop where
  assignment : ∀ span target, (assignment env ⟨span, target, e⟩).events =
    (lvalue env target).events ++
      (assignedConstant? env target).toList.map (.found ⟨.constantAssigned ·, span⟩) ++
      (expr env e).events
  condition : (condition env e).events = (expr env e).events
  returned : ∀ ctx span, (returnStmt ctx env ⟨span, some e⟩).events =
    (expr env e).events ++
      if ctx.expected?.isNone then [.found ⟨.returnOutsideBody, span⟩] else []
  expressionStmt : (expressionStmt env e).events = (expr env e).events
  scrutinee : (scrutinee env e).events = (expr env e).events
  /-- In a switch on the expression, the value of a branch only has to be constant. -/
  branch : ∀ isLast span v,
    (caseValue env (expr env e).result.type isLast span (some v)).events =
      (expr env v).events ++
        (Check.constant (expr env v).result.value (expr env v).result.span).events
  caseValue : ∀ type isLast span,
    (caseValue env type isLast span (some e)).events = (expr env e).events
  stringLength : ∀ span, (typeExpr env ⟨span, .boundedString e⟩).events = (expr env e).events
  arrayLength : ∀ before after, (arrayLengths env (before ++ e :: after)).events =
    (arrayLengths env before).events ++ (expr env e).events ++ (arrayLengths env after).events
  /-- An item with the expression among its designators is for no place, and the items after it are
  placed as if it were not there. -/
  designator : ∀ target aggregate cursor span before place after value items,
    (placedItems env target aggregate cursor
        (.value ⟨span, before ++ ⟨place, .index e⟩ :: after, value⟩ :: items)).events =
      (follow env (some ([], target)) before).events ++ (expr env e).events ++
        (designators env after).events ++ (initializer env (.unknown span) value).events ++
        (placedItems env target aggregate cursor items).events
  assertion : ∀ span message, (directive env ⟨span, .assertion e message⟩).events =
    .found ⟨.unofficial .directives, span⟩ :: (expr env e).events ++
      (assertionMessage env message).events

section Uses

variable {env : Env} {e : Syntax.Expr}

theorem events_checkedExpr (h : (expr env e).result.type.isUnknown = true) (target : Ty) :
    (checkedExpr env target e).events = (expr env e).events := by
  have hconvertible := Check.convertible_of_isUnknown h target
  simp [checkedExpr, hconvertible]

theorem events_arrayLengths_cons (x : Syntax.Expr) (xs : List Syntax.Expr) :
    (arrayLengths env (x :: xs)).events =
      (expr env x).events ++ (Check.length (expr env x).result).events ++
        (arrayLengths env xs).events := by
  rw [arrayLengths]
  simp only [Traced.events_bind, List.append_assoc]
  congr 2
  split <;> simp

theorem events_arrayLengths_append (xs ys : List Syntax.Expr) :
    (arrayLengths env (xs ++ ys)).events =
      (arrayLengths env xs).events ++ (arrayLengths env ys).events := by
  induction xs with
  | nil => simp [arrayLengths]
  | cons x xs ih =>
    rw [List.cons_append, events_arrayLengths_cons, ih, events_arrayLengths_cons]
    simp

/-! ### Designators -/

theorem select_of_poisoned {e : Semantic.Expr} (h : e.Poisoned) (aggregate : Ty)
    (site : Semantic.Site) : select aggregate (.index site e) = pure none := by
  have hconvertible := Ty.convertible_of_isUnknown h.isUnknown .integer
  simp [select, hconvertible, Value.integer?_of_isInvalid h.isInvalid,
    Check.notConstant_of_isInvalid h.isInvalid]

theorem events_designators_append (xs ys : List Syntax.Designator) :
    (designators env (xs ++ ys)).events =
      (designators env xs).events ++ (designators env ys).events := by
  induction xs with
  | nil => simp [designators]
  | cons x xs ih => simp [designators, ih]

/-- Designators after one that selects nothing are not followed. -/
theorem events_follow_index (h : (expr env e).result.Poisoned) (place : Option (List Step × Ty))
    (before : List Syntax.Designator) (span : Span) (after : List Syntax.Designator) :
    (follow env place (before ++ ⟨span, .index e⟩ :: after)).events =
      (follow env place before).events ++ (expr env e).events ++ (designators env after).events ∧
    (follow env place (before ++ ⟨span, .index e⟩ :: after)).result.2 = none := by
  have hindex : (designator env ⟨span, .index e⟩).events = (expr env e).events := by
    simp [designator]
  induction before generalizing place with
  | nil =>
    cases place with
    | none =>
      rw [List.nil_append, follow_none, follow_none]
      simp [designators, hindex]
    | some place =>
      obtain ⟨steps, type⟩ := place
      have hselect := select_of_poisoned h type (env.site span)
      rw [List.nil_append, follow]
      simp [follow, designator, hselect, follow_none]
  | cons d before ih =>
    cases place with
    | none =>
      rw [follow_none, follow_none]
      simp [designators, events_designators_append, hindex]
    | some place =>
      obtain ⟨steps, type⟩ := place
      rw [List.cons_append, follow, follow]
      refine ⟨?_, (ih _).2⟩
      simp only [Traced.events_bind, Traced.events_pure, List.append_nil, List.append_assoc]
      rw [(ih _).1, List.append_assoc]

/-- The designators lead nowhere. -/
theorem position_of_poisoned (h : (expr env e).result.Poisoned) (target : Ty) (cursor : Option Path)
    (span : Span) (before : List Syntax.Designator) (place : Span)
    (after : List Syntax.Designator) :
    (position env target cursor span (before ++ ⟨place, .index e⟩ :: after)).events =
      (follow env (some ([], target)) before).events ++ (expr env e).events ++
        (designators env after).events ∧
    (position env target cursor span (before ++ ⟨place, .index e⟩ :: after)).result.2 = none := by
  have hfollow := events_follow_index h (some ([], target)) before place after
  have hsome : (before ++ ⟨place, .index e⟩ :: after).isEmpty = false := by simp
  simp only [position, hsome, Bool.false_eq_true, if_false, Traced.events_bind, Traced.events_pure,
    Traced.result_bind, Traced.result_pure, List.append_nil]
  refine ⟨hfollow.1, ?_⟩
  rw [hfollow.2]
  rfl

/-- **An expression that is the result of an error does no further harm.** -/
theorem harmless_of_poisoned (h : (expr env e).result.Poisoned) : Harmless env e where
  assignment span target := by
    have hassignable := Check.assignable_of_isUnknown h.isUnknown (lvalue env target).result.type
    cases hconstant : assignedConstant? env target <;> simp [assignment, hconstant, hassignable]
  condition := events_checkedExpr h.isUnknown .boolean
  returned ctx span := by
    cases hctx : ctx.expected? with
    | none => simp [returnStmt, returnedValue, hctx]
    | some expected =>
      have hconvertible := Check.convertible_of_isUnknown h.isUnknown expected
      simp [returnStmt, returnedValue, hctx, hconvertible]
  expressionStmt := by
    have hconvertible := Ty.convertible_of_isUnknown h.isUnknown .void
    simp [expressionStmt, hconvertible]
  scrutinee := by
    have hstring : (expr env e).result.type.isStringLike = false := by
      obtain ⟨origin, horigin⟩ := Ty.isUnknown_iff.mp h.isUnknown
      rw [Ty.isStringLike, horigin]
    simp [scrutinee, hstring]
  branch isLast span v := by
    have hconvertible := Check.convertible_to_unknown (expr env v).result h.isUnknown
    simp [caseValue, checkedExpr, hconvertible]
  caseValue type isLast span := by
    have hconvertible := Check.convertible_of_isUnknown h.isUnknown type
    have hconstant := Check.constant_of_isInvalid h.isInvalid (expr env e).result.span
    simp [caseValue, checkedExpr, hconvertible, hconstant]
  stringLength span := by
    rw [typeExpr]
    simp [Check.length_of_poisoned h]
  arrayLength before after := by
    rw [events_arrayLengths_append, events_arrayLengths_cons, Check.length_of_poisoned h]
    simp
  designator target aggregate cursor span before place after value items := by
    obtain ⟨hevents, hposition⟩ := position_of_poisoned h target cursor span before place after
    rw [placedItems]
    simp only [Traced.events_bind, Traced.events_pure, hevents, hposition, itemType, Analysis.place,
      Option.none_or, List.append_nil, List.append_assoc]
  assertion span message := by
    have hconvertible := Check.convertible_of_isUnknown h.isUnknown .boolean
    have hboolean : (expr env e).result.value.boolean? = none := by
      simp [Value.boolean?, Value.status_of_isInvalid h.isInvalid]
    have hconstant := Check.notConstant_of_isInvalid h.isInvalid (expr env e).result.span
    simp [directive, hconvertible, Analysis.assertion, hboolean, hconstant]

end Uses

/-- **Undefined names do not cascade.** An expression around a name that stands for nothing gives
one report about the name and those of the expressions beside it. It is of unknown type and invalid,
and it is harmless. -/
theorem undefined_name_does_not_cascade (env : Env) (u : Ident) (c : Context)
    (h : env.table.lookup env.scope u.text = none) :
    (∀ overflows, Event.findings overflows (expr env (c.fill u)).events =
      Event.findings overflows (diagnosed env u c).events) ∧
    (expr env (c.fill u)).result.type.isUnknown = true ∧
    (expr env (c.fill u)).result.value.isInvalid = true ∧
    Harmless env (c.fill u) := by
  have hpoisoned := poisoned_fill h c
  refine ⟨fun overflows => ?_, hpoisoned.isUnknown, hpoisoned.isInvalid,
    harmless_of_poisoned hpoisoned⟩
  calc Event.findings overflows (expr env (c.fill u)).events
      = Event.findings overflows ((expr env (c.fill u)).pick report?) :=
        (Event.findings_report? ..).symm
    _ = Event.findings overflows ((diagnosed env u c).pick report?) := by rw [reports_fill h]
    _ = Event.findings overflows (diagnosed env u c).events := Event.findings_report? ..

open Syntax (nowhere ident)

/-- The sum of `hole["one"].part` and a second name. -/
def partOfHole : Context :=
  .binaryLeft ⟨⟨0⟩, nowhere⟩ ⟨nowhere, .add⟩
    (.component ⟨⟨1⟩, nowhere⟩ ⟨⟨2⟩, nowhere⟩
      (.subscript ⟨⟨3⟩, nowhere⟩ ⟨⟨4⟩, nowhere⟩ (.hole ⟨⟨5⟩, nowhere⟩ ⟨⟨6⟩, nowhere⟩)
        (.ofString "one"))
      (ident "part"))
    (.ofName "second")

theorem findings_partOfHole :
    ScopeTable.initial.lookup ScopeTable.root "first" = none ∧
      (Event.findings []
        (expr ⟨.initial, ScopeTable.root⟩ (partOfHole.fill (ident "first"))).events).map
          (·.cause.code) = [.undefinedSymbol, .nonIntegerIndex, .undefinedSymbol] := by
  refine ⟨rfl, ?_⟩
  have hnames :=
    undefined_name_does_not_cascade ⟨.initial, ScopeTable.root⟩ (ident "first") partOfHole rfl
  rw [hnames.1]
  rfl

end Analysis

end Pseudocode
