import Mathlib.Data.List.Forall2
import Pseudocode.Proofs.Analysis.Access
import Pseudocode.Proofs.Filling.Unplaced

/-!
# Array types

An array type is made from the inside out: the last length encloses the element type first. Its
lengths still read from the outside in, and so do the subscripts of a variable. A length that is of
no use spoils the type, and it does so on its own account. All lengths are analysed, whatever
becomes of the others, and what is wrong with each is reported once.
-/

namespace Pseudocode

/-! ### Lengths -/

/-- The expression stands for the length `n`: it is of a type that converts to an integer, and its
value is known to be the positive integer `n`. -/
structure Semantic.Expr.GivesLength (e : Semantic.Expr) (n : Nat) : Prop where
  type : e.type.convertible .integer = true
  value : ∃ m : Int32, e.value.integer? = some m ∧ m.toInt = n
  positive : 0 < n

namespace Check

/-- The ways in which the check of a length ends: the length, if there is one, and the events. -/
inductive LengthVerdict (e : Semantic.Expr) : Option Nat → List Event → Prop
  | given {n : Nat} (h : e.GivesLength n) : LengthVerdict e (some n) []
  | wrongType (htype : e.type.convertible .integer = false) :
      LengthVerdict e none [.found ⟨.wrongType e.type .integer, e.span⟩]
  | nonPositive {m : Int32} (hvalue : e.value.integer? = some m) (hm : m.toInt ≤ 0) :
      LengthVerdict e none [.found ⟨.nonPositiveLength m, e.span⟩]
  | notConstant (hvalue : e.value.integer? = none) (hvalid : e.value.isInvalid = false) :
      LengthVerdict e none [.notConstant e.span]
  | poisoned (hvalue : e.value.integer? = none) (hinvalid : e.value.isInvalid = true) :
      LengthVerdict e none []

theorem lengthVerdict (e : Semantic.Expr) :
    LengthVerdict e (length e).result (length e).events := by
  unfold length convertible
  by_cases htype : e.type.convertible .integer = true
  · simp only [htype, if_true, pure_bind]
    cases hvalue : e.value.integer? with
    | some m =>
      by_cases hm : 0 < m.toInt
      · simp only [hm, if_true]
        exact .given ⟨htype, ⟨m, hvalue, (Int.toNat_of_nonneg (Int.le_of_lt hm)).symm⟩, by omega⟩
      · simp only [hm, if_false]
        exact .nonPositive hvalue (by omega)
    | none =>
      cases hinvalid : e.value.isInvalid with
      | true => simpa [Check.notConstant, hinvalid] using .poisoned hvalue hinvalid
      | false => simpa [Check.notConstant, hinvalid] using .notConstant hvalue hinvalid
  · simp only [htype]
    exact .wrongType (by simpa using htype)

namespace LengthVerdict

variable {e : Semantic.Expr} {n : Nat} {result : Option Nat} {events : List Event}

theorem result_eq_some_iff (h : LengthVerdict e result events) :
    result = some n ↔ e.GivesLength n := by
  constructor
  · rintro rfl
    cases h with
    | given hlength => exact hlength
  · intro hlength
    obtain ⟨htype, ⟨m, hvalue, hm⟩, hpositive⟩ := hlength
    cases h with
    | given hother =>
      obtain ⟨-, ⟨m', hvalue', hm'⟩, -⟩ := hother
      cases hvalue.symm.trans hvalue'
      rw [Int.ofNat_inj.mp (hm'.symm.trans hm)]
    | wrongType hnot => cases htype.symm.trans hnot
    | nonPositive hvalue' hm' =>
      cases hvalue.symm.trans hvalue'
      omega
    | notConstant hnone | poisoned hnone => cases hvalue.symm.trans hnone

theorem events_eq_nil (h : LengthVerdict e result events) (hlength : e.GivesLength n) :
    events = [] := by
  obtain rfl := h.result_eq_some_iff.mpr hlength
  cases h with
  | given => rfl

open Event (diagnostics) in
/-- An expression that is no length is reported once, unless an error accounts for its value. -/
theorem exists_diagnostic (h : LengthVerdict e result events) (hnone : ∀ n, ¬ e.GivesLength n)
    (hvalid : e.value.isInvalid = false) (source : Option String) (overflows : List Span) :
    ∃ d, diagnostics source overflows events = [d] ∧ d.span = e.span ∧
      d.code ∈ [Code.expressionHasWrongType, .nonPositiveLength, .constantExpressionExpected] := by
  cases h with
  | given hlength => exact absurd hlength (hnone _)
  | poisoned hvalue hinvalid => cases hvalid.symm.trans hinvalid
  | wrongType htype => exact ⟨_, rfl, rfl, by simp [Finding.diagnostic, Cause.code]⟩
  | nonPositive hvalue hm => exact ⟨_, rfl, rfl, by simp [Finding.diagnostic, Cause.code]⟩
  | notConstant hvalue _ => exact ⟨_, rfl, rfl, by simp [Finding.diagnostic, Cause.code]⟩

end LengthVerdict

end Check

namespace Analysis

variable {env : Env}

/-- The expression stands for the length `n` where it is analysed. -/
def FoldsToLength (env : Env) (e : Syntax.Expr) (n : Nat) : Prop :=
  (expr env e).result.GivesLength n

theorem result_arrayLengths_cons (e : Syntax.Expr) (rest : List Syntax.Expr) :
    (arrayLengths env (e :: rest)).result =
      (Check.length (expr env e).result).result.bind fun n =>
        (arrayLengths env rest).result.map (n :: ·) := by
  rw [arrayLengths, Traced.result_bind, Traced.result_bind, Traced.result_bind]
  cases (Check.length (expr env e).result).result with
  | none => rfl
  | some n => cases (arrayLengths env rest).result <;> rfl

theorem result_arrayLengths_eq_some_iff {es : List Syntax.Expr} {ns : List Nat} :
    (arrayLengths env es).result = some ns ↔ List.Forall₂ (FoldsToLength env) es ns := by
  induction es generalizing ns with
  | nil =>
    rw [arrayLengths, List.forall₂_nil_left_iff, Traced.result_pure, Option.some.injEq, eq_comm]
  | cons e rest ih =>
    rw [result_arrayLengths_cons, Option.bind_eq_some_iff, List.forall₂_cons_left_iff]
    constructor
    · rintro ⟨n, hn, hrest⟩
      obtain ⟨ns, hns, rfl⟩ := Option.map_eq_some_iff.mp hrest
      exact ⟨n, ns, (Check.lengthVerdict _).result_eq_some_iff.mp hn, ih.mp hns, rfl⟩
    · rintro ⟨n, ns, hn, hns, rfl⟩
      refine ⟨n, (Check.lengthVerdict _).result_eq_some_iff.mpr hn, ?_⟩
      rw [ih.mpr hns, Option.map_some]

theorem exists_length_of_mem {es : List Syntax.Expr} {ns : List Nat}
    (h : List.Forall₂ (FoldsToLength env) es ns) {e : Syntax.Expr} (he : e ∈ es) :
    ∃ n, FoldsToLength env e n := by
  induction h with
  | nil => cases he
  | cons hn _ ih =>
    obtain rfl | he := List.mem_cons.mp he
    · exact ⟨_, hn⟩
    · exact ih he

theorem events_arrayLengths (es : List Syntax.Expr) :
    (arrayLengths env es).events =
      es.flatMap fun e => (expr env e).events ++ (Check.length (expr env e).result).events := by
  induction es with
  | nil => simp [arrayLengths]
  | cons e rest ih => rw [events_arrayLengths_cons, ih, List.flatMap_cons]

/-! ### Array types -/

theorem dimensions_arrayOf (item : Ty) (lengths : List Nat) :
    (arrayOf item lengths).dimensions = lengths ++ item.dimensions := by
  induction lengths with
  | nil => rfl
  | cons n rest ih =>
    change n :: (arrayOf item rest).dimensions = _
    rw [ih, List.cons_append]

theorem unaliased_of_eq_arrayOf {t item : Ty} {n : Nat} {lengths : List Nat}
    (h : t = arrayOf item (n :: lengths)) : t.unaliased = .array (arrayOf item lengths) n := by
  rw [h]
  rfl

theorem result_array (span : Span) (item : Syntax.TypeExpr) (lengths : List Syntax.Expr) :
    (typeExpr env ⟨span, .array item lengths⟩).result =
      ((arrayLengths env lengths).result.map (arrayOf (typeExpr env item).result)).getD
        (.unknown span) := by
  rw [typeExpr, Traced.result_bind, Traced.result_bind]
  cases (arrayLengths env lengths).result <;> rfl

theorem events_array (span : Span) (item : Syntax.TypeExpr) (lengths : List Syntax.Expr) :
    (typeExpr env ⟨span, .array item lengths⟩).events =
      (typeExpr env item).events ++ lengths.flatMap fun e =>
        (expr env e).events ++ (Check.length (expr env e).result).events := by
  rw [typeExpr, Traced.events_bind, Traced.events_bind, events_arrayLengths]
  cases (arrayLengths env lengths).result <;> simp

end Analysis

/-! ### Subscripts -/

namespace Syntax

/-- One more subscript. The place it goes into is used as the expression `node`, and what becomes of
it is the lvalue `place`. -/
structure Subscript where
  node : Node
  place : Node
  index : Expr

def Subscript.apply (l : Lvalue) (s : Subscript) : Lvalue :=
  s.place.lvalue (.subscript (s.node.expr (.lvalue l)) s.index)

/-- The lvalue followed by the subscripts. -/
def Lvalue.subscripts (l : Lvalue) (ss : List Subscript) : Lvalue := ss.foldl Subscript.apply l

end Syntax

theorem Value.slot?_of_datum?_eq_none {v : Value} (h : v.datum? = none) (step : Step) :
    v.slot? step = none := by
  obtain ⟨type, status⟩ := v
  cases status with
  | known => cases h
  | _ => rfl

namespace Check

variable {array index : Semantic.Expr} {item : Ty} {length : Nat}

/-- An element of an array that is not known is not known either, and of the type of the item. -/
theorem result_subscript_of_array (harray : array.type.unaliased = .array item length)
    (hunknown : array.value.datum? = none) (span : Span) :
    (subscript array index span).result.type = item ∧
      (subscript array index span).result.datum? = none := by
  rw [subscript, Traced.result_unless_bind, harray]
  dsimp only
  split
  · rw [element, Value.slot?_of_datum?_eq_none hunknown]
    split <;> exact ⟨rfl, rfl⟩
  · cases array.value.isInvalid || index.value.isInvalid <;> exact ⟨rfl, rfl⟩

end Check

namespace Analysis

open Event (report?)
open Syntax (Subscript)

/-- The index is an integer, and it is not known to be outside of `1` to `length`. -/
def InRange (env : Env) (s : Subscript) (length : Nat) : Prop :=
  (expr env s.index).result.type.convertible .integer = true ∧
    ∀ m, (expr env s.index).result.value.integer? = some m → 1 ≤ m.toInt ∧ m.toInt ≤ length

theorem reports_subscript_of_inRange {env : Env} {s : Subscript} {array : Semantic.Expr} {item : Ty}
    {length : Nat} (harray : array.type.unaliased = .array item length)
    (hrange : InRange env s length) (span : Span) :
    (Check.subscript array (expr env s.index).result span).Silent report? := by
  rw [Check.subscript, if_pos hrange.1, harray]
  dsimp only
  split
  · rename_i m hm
    rw [Check.element, if_pos (hrange.2 m hm)]
    rfl
  · rfl

section Subscripts

variable {env : Env} {l : Syntax.Lvalue} {ss : List Subscript} {item : Ty} {n : Nat} {ns : List Nat}

theorem value_apply_subscript (env : Env) (l : Syntax.Lvalue) (s : Subscript) :
    (lvalue env (s.apply l)).result.value =
      (Check.subscript (lvalue env l).result (expr env s.index).result s.place.span).result := by
  simp only [Subscript.apply, Syntax.Node.lvalue, Syntax.Node.expr, lvalue, Traced.result_bind,
    result_lvalue]
  rfl

theorem reports_apply_subscript (env : Env) (l : Syntax.Lvalue) (s : Subscript) :
    (lvalue env (s.apply l)).pick report? =
      (lvalue env l).pick report? ++ (expr env s.index).pick report? ++
        (Check.subscript (lvalue env l).result (expr env s.index).result s.place.span).pick
          report? := by
  simp only [Subscript.apply, Syntax.Node.lvalue, lvalue, Traced.pick_bind, silent_finish,
    List.append_nil, List.append_assoc]
  rw [Syntax.Node.expr, reports_lvalue, result_lvalue]

/-- A subscript takes the outermost length off the type. -/
theorem result_apply_subscript (htype : (lvalue env l).result.type = arrayOf item (n :: ns))
    (hunknown : (lvalue env l).result.value.datum? = none) (s : Subscript) :
    (lvalue env (s.apply l)).result.type = arrayOf item ns ∧
      (lvalue env (s.apply l)).result.value.datum? = none := by
  rw [Semantic.Expr.type, value_apply_subscript]
  exact Check.result_subscript_of_array (unaliased_of_eq_arrayOf htype) hunknown s.place.span

theorem type_subscripts (htype : (lvalue env l).result.type = arrayOf item ns)
    (hunknown : (lvalue env l).result.value.datum? = none) (hlength : ss.length = ns.length) :
    (lvalue env (l.subscripts ss)).result.type = item := by
  induction ns generalizing l ss with
  | nil =>
    obtain rfl := List.length_eq_zero_iff.mp hlength
    exact htype
  | cons n rest ih =>
    -- The first subscript makes a longer lvalue of a shorter type.
    obtain ⟨s, ss, rfl⟩ := List.exists_cons_of_length_eq_add_one hlength
    obtain ⟨htype', hunknown'⟩ := result_apply_subscript htype hunknown s
    change (lvalue env ((s.apply l).subscripts ss)).result.type = item
    exact ih htype' hunknown' (Nat.add_right_cancel hlength)

theorem reports_subscripts (htype : (lvalue env l).result.type = arrayOf item ns)
    (hunknown : (lvalue env l).result.value.datum? = none)
    (hrange : List.Forall₂ (InRange env) ss ns) :
    (lvalue env (l.subscripts ss)).pick report? =
      (lvalue env l).pick report? ++ ss.flatMap fun s => (expr env s.index).pick report? := by
  induction hrange generalizing l with
  | nil => simp [Syntax.Lvalue.subscripts]
  | @cons s n ss ns hs _ ih =>
    obtain ⟨htype', hunknown'⟩ := result_apply_subscript htype hunknown s
    have hsilent := reports_subscript_of_inRange (unaliased_of_eq_arrayOf htype) hs s.place.span
    have hrest := ih htype' hunknown'
    rw [reports_apply_subscript, hsilent, List.append_nil, List.append_assoc] at hrest
    rwa [List.flatMap_cons]

/-- As many subscripts as there are lengths lead to an element. If they are in range, nothing is
reported but what is reported of the indices. -/
structure HasElements (env : Env) (l : Syntax.Lvalue) (ns : List Nat) (element : Ty) : Prop where
  type_eq : ∀ ss : List Subscript, ss.length = ns.length →
    (lvalue env (l.subscripts ss)).result.type = element
  reports_eq : ∀ ss : List Subscript, List.Forall₂ (InRange env) ss ns →
    (lvalue env (l.subscripts ss)).pick report? =
      ss.flatMap fun s => (expr env s.index).pick report?

theorem hasElements_of_lookupValue {name : Ident}
    (h : env.table.lookupValue env.scope name.text = .ok (.runtime (arrayOf item ns)))
    (node : Syntax.Node) : HasElements env (node.lvalue (.name name)) ns item := by
  have hname : lvalue env (node.lvalue (.name name)) =
      finish env node.id node.span (.runtime (arrayOf item ns)) (.name name) := by
    rw [Syntax.Node.lvalue, lvalue, Check.name, h]
    rfl
  have htype : (lvalue env (node.lvalue (.name name))).result.type = arrayOf item ns := by
    rw [hname]
    rfl
  have hunknown : (lvalue env (node.lvalue (.name name))).result.value.datum? = none := by
    rw [hname]
    rfl
  refine ⟨fun ss => type_subscripts htype hunknown, fun ss hrange => ?_⟩
  rw [reports_subscripts htype hunknown hrange, hname, silent_finish, List.nil_append]

end Subscripts

open Event (diagnostics)

/-- **Array types.** If all lengths are known and positive, the type encloses the element type in
them, outermost first, and the subscripts of a variable lead back to the element type. If one of
them is not, the type is unknown. In either case the element type and all lengths are analysed, and
a length that will not do is reported once, unless an error accounts for its value. -/
theorem array_type_is_evaluated (env : Env) (span : Span) (item : Syntax.TypeExpr)
    (lengths : List Syntax.Expr) :
    let element := typeExpr env item
    let array := typeExpr env ⟨span, .array item lengths⟩
    (∀ ns, List.Forall₂ (FoldsToLength env) lengths ns →
      array.result = arrayOf element.result ns ∧
      array.result.dimensions = ns ++ element.result.dimensions ∧
      ∀ (env' : Env) (node : Syntax.Node) (name : Ident),
        env'.table.lookupValue env'.scope name.text = .ok (.runtime array.result) →
        HasElements env' (node.lvalue (.name name)) ns element.result) ∧
    ((∃ e ∈ lengths, ∀ n, ¬ FoldsToLength env e n) → array.result = .unknown span) ∧
    array.events = element.events ++ lengths.flatMap (fun e =>
      (expr env e).events ++ (Check.length (expr env e).result).events) ∧
    ∀ e ∈ lengths,
      (∀ n, FoldsToLength env e n → (Check.length (expr env e).result).events = []) ∧
      ((∀ n, ¬ FoldsToLength env e n) → (expr env e).result.value.isInvalid = false →
        ∀ source overflows, ∃ d,
          diagnostics source overflows (Check.length (expr env e).result).events = [d] ∧
          d.span = (expr env e).result.span ∧
          d.code ∈ [Code.expressionHasWrongType, .nonPositiveLength,
            .constantExpressionExpected]) := by
  intro element array
  have hresult : array.result = _ := result_array span item lengths
  refine ⟨fun ns hns => ?_, ?_, events_array span item lengths, fun e _ => ⟨fun n hn => ?_, ?_⟩⟩
  · rw [result_arrayLengths_eq_some_iff.mpr hns] at hresult
    have harray : array.result = arrayOf element.result ns := hresult
    refine ⟨harray, ?_, fun env' node name h => ?_⟩
    · rw [harray, dimensions_arrayOf]
    · rw [harray] at h
      exact hasElements_of_lookupValue h node
  · rintro ⟨e, he, hnone⟩
    have hfails : (arrayLengths env lengths).result = none := by
      rw [Option.eq_none_iff_forall_ne_some]
      intro ns hns
      obtain ⟨n, hn⟩ := exists_length_of_mem (result_arrayLengths_eq_some_iff.mp hns) he
      exact hnone n hn
    rw [hfails] at hresult
    exact hresult
  · exact (Check.lengthVerdict _).events_eq_nil hn
  · exact (Check.lengthVerdict _).exists_diagnostic

open Syntax (nowhere ident Expr)

/-- A scope with a type of rows and a grid of two times three of them. -/
def gridScope : Env :=
  ⟨(ScopeTable.initial.bind ScopeTable.root (.typeAlias (ident "Row") (.array .integer 4))).bind
    ScopeTable.root (.localVariable (ident "grid")
      (.array (.array (.aliased "Row" (.array .integer 4)) 3) 2)), ScopeTable.root⟩

def rowType : Syntax.TypeExpr := .ofKind (.named (ident "Row"))

/-- A subscript by the integer `n`. -/
def subscriptBy (n : Int32) : Subscript := ⟨⟨⟨1⟩, nowhere⟩, ⟨⟨2⟩, nowhere⟩, .ofInteger n⟩

theorem foldsToLength_ofInteger (env : Env) {m : Int32} {n : Nat} (hm : m.toInt = n) (hn : 0 < n) :
    FoldsToLength env (.ofInteger m) n := by
  have hresult : (expr env (.ofInteger m)).result.value = .integer m := by
    rw [Expr.ofInteger, expr]
    rfl
  refine ⟨?_, ⟨m, ?_, hm⟩, hn⟩
  · rw [Semantic.Expr.type, hresult]
    rfl
  · rw [hresult]
    rfl

/-- Two subscripts of a grid of rows lead to a row. Of the lengths zero, two and a string, the first
and the last one are reported. -/
theorem grid_of_rows_is_evaluated :
    let grid := typeExpr gridScope ⟨nowhere, .array rowType [.ofInteger 2, .ofInteger 3]⟩
    let spoilt := typeExpr gridScope
      ⟨⟨5, 9⟩, .array rowType [.ofInteger 0, .ofInteger 2, .ofString "three"]⟩
    let element := (lvalue gridScope (((Syntax.Node.mk ⟨0⟩ nowhere).lvalue
      (.name (ident "grid"))).subscripts [subscriptBy 1, subscriptBy 3])).result
    List.Forall₂ (FoldsToLength gridScope) [.ofInteger 2, .ofInteger 3] [2, 3] ∧
    grid.result.dimensions = [2, 3, 4] ∧
    element.type = .aliased "Row" (.array .integer 4) ∧
    spoilt.result = .unknown ⟨5, 9⟩ ∧
    (diagnostics none [] spoilt.events).map (·.code) =
      [.nonPositiveLength, .expressionHasWrongType] := by
  intro grid spoilt element
  have hlengths : List.Forall₂ (FoldsToLength gridScope) [.ofInteger 2, .ofInteger 3] [2, 3] :=
    .cons (foldsToLength_ofInteger gridScope rfl (by decide))
      (.cons (foldsToLength_ofInteger gridScope rfl (by decide)) .nil)
  obtain ⟨hknown, -, -, -⟩ :=
    array_type_is_evaluated gridScope nowhere rowType [.ofInteger 2, .ofInteger 3]
  obtain ⟨-, hdimensions, helements⟩ := hknown [2, 3] hlengths
  obtain ⟨-, hunknown, hevents, -⟩ := array_type_is_evaluated gridScope ⟨5, 9⟩ rowType
    [.ofInteger 0, .ofInteger 2, .ofString "three"]
  refine ⟨hlengths, hdimensions, ?_, hunknown ⟨_, .head _, ?_⟩, ?_⟩
  · exact (helements gridScope ⟨⟨0⟩, nowhere⟩ (ident "grid") rfl).type_eq _ rfl
  · rintro n ⟨-, ⟨m, hvalue, hm⟩, hpositive⟩
    cases hvalue
    have hzero : (0 : Int32).toInt = 0 := rfl
    omega
  · exact (congrArg (fun es => (diagnostics none [] es).map (·.code)) hevents).trans rfl

end Analysis

end Pseudocode
