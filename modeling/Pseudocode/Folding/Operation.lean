import Pseudocode.Lexicon
import Pseudocode.Value.Basic

/-!
# Operations on values

An operation is typed by the kinds of its operands, whatever is known about them, and computed only
if all operands are known. What is worth reporting about it is returned beside its value.
-/

namespace Pseudocode

/-- What an operator distinguishes in the type of an operand. -/
inductive OperandKind where
  | boolean | character | integer | real | string | other
deriving DecidableEq

def Ty.operandKind (t : Ty) : OperandKind :=
  match t.unaliased with
  | .boolean => .boolean
  | .character => .character
  | .integer => .integer
  | .real => .real
  | .string | .boundedString _ => .string
  | _ => .other

namespace OperandKind

def isNumeric : OperandKind → Bool
  | .integer | .real => true
  | _ => false

/-- Has a smallest and a largest of any two values. -/
def isOrdered : OperandKind → Bool
  | .character | .integer | .real | .string => true
  | _ => false

end OperandKind

inductive Remark where
  | divisionByZero
  | floatingPointEquality
  /-- The exact result is no integer of the language, so it is left to the run of the program. -/
  | integerOverflow
  | unsupportedOperation
deriving DecidableEq

structure Operation where
  value : Value
  remarks : List Remark

namespace Operation

/-- An operand is of unknown type: the result is too, and nothing is worth a remark. -/
def poisoned (type : Ty) : Operation := ⟨.invalid type, []⟩

def unsupported (span : Span) : Operation := ⟨.invalid (.unknown span), [.unsupportedOperation]⟩

end Operation

/-! ### Binary operators -/

namespace BinaryOp

/-- The type of the result for operands of kinds `l` and `r`, if the operator takes them. -/
def resultType? (op : BinaryOp) (l r : OperandKind) : Option Ty :=
  let numeric := l.isNumeric && r.isNumeric
  match op with
  | .and | .or | .xor => if l = .boolean ∧ r = .boolean then some .boolean else none
  | .eq | .ne => if (l = r ∧ l ≠ .other) ∨ numeric then some .boolean else none
  | .lt | .le | .gt | .ge => if (l = r ∧ l.isOrdered) ∨ numeric then some .boolean else none
  | .add | .sub | .mul | .div | .mod =>
    if l = .integer ∧ r = .integer then some .integer
    else if numeric then some .real
    else none

/-- The answer of a comparison about operands in the given order, which is none if they have no
order. -/
def holds? (op : BinaryOp) (order : Option Ordering) : Option Bool :=
  match op with
  | .eq => some (order == some .eq)
  | .ne => some (order != some .eq)
  | .lt => some (order == some .lt)
  | .le => some (order == some .lt || order == some .eq)
  | .gt => some (order == some .gt)
  | .ge => some (order == some .gt || order == some .eq)
  | _ => none

def onBooleans? (op : BinaryOp) (x y : Bool) : Option Datum :=
  match op with
  | .and => some (.boolean (x && y))
  | .or => some (.boolean (x || y))
  | .xor => some (.boolean (x != y))
  | _ => (op.holds? (some (compare x y))).map .boolean

def onIntegers? (op : BinaryOp) (x y : Int32) : Option Datum :=
  match op with
  | .add => (Integer.add? x y).map .integer
  | .sub => (Integer.sub? x y).map .integer
  | .mul => (Integer.mul? x y).map .integer
  | .div => (Integer.div? x y).map .integer
  | .mod => (Integer.mod? x y).map .integer
  | _ => (op.holds? (some (compare x.toInt y.toInt))).map .boolean

def onReals? (op : BinaryOp) (x y : Float) : Option Datum :=
  match op with
  | .add => some (.real (x + y))
  | .sub => some (.real (x - y))
  | .mul => some (.real (x * y))
  | .div => some (.real (x / y))
  | .mod => some (.real (Real.remainder x y))
  | _ => (op.holds? (Real.compare? x y)).map .boolean

/-- The result on known operands, if there is one. An integer beside a real is taken as a real. -/
def onData? (op : BinaryOp) (a b : Datum) : Option Datum :=
  match a, b with
  | .boolean x, .boolean y => op.onBooleans? x y
  | .integer x, .integer y => op.onIntegers? x y
  | .character x, .character y => (op.holds? (some (compare x.toNat y.toNat))).map .boolean
  | .string x, .string y => (op.holds? (some (compare x y))).map .boolean
  | a, b =>
    match a.number?, b.number? with
    | some x, some y => op.onReals? x y
    | _, _ => none

end BinaryOp

/-- A known zero of either number type. -/
def Value.isZero (v : Value) : Bool :=
  match v.status with
  | .known (.integer n) => n == 0
  | .known (.real x) => x == 0
  | _ => false

/-- The status of a result that is not computed. -/
def Status.pending (invalid : Bool) : Status := if invalid then .invalid else .runtime

/-- A status for a result that was computed, or that overflowed. -/
def Operation.computed (type : Ty) (remarks : List Remark) : Option Datum → Operation
  | some datum => ⟨.known type datum, remarks⟩
  | none => ⟨.runtime type, remarks ++ [.integerOverflow]⟩

/-- Applies a binary operator at `span`. -/
def BinaryOp.apply (op : BinaryOp) (left right : Value) (span : Span) : Operation :=
  if left.type.isUnknown then .poisoned left.type
  else if right.type.isUnknown then .poisoned right.type
  else
    let l := left.type.operandKind
    let r := right.type.operandKind
    match op.resultType? l r with
    | none => .unsupported span
    | some type =>
      let remarks :=
        if op.isEquality ∧ (l = .real ∨ r = .real) then [Remark.floatingPointEquality] else []
      if op.isDivision ∧ right.isZero then ⟨.runtime type, remarks ++ [.divisionByZero]⟩
      else
        match left.datum?, right.datum? with
        | some a, some b => .computed type remarks (op.onData? a b)
        | _, _ => ⟨⟨type, .pending (left.isInvalid || right.isInvalid)⟩, remarks⟩

/-! ### Unary operators -/

namespace UnaryOp

def resultType? (op : UnaryOp) (operand : OperandKind) : Option Ty :=
  match op, operand with
  | .minus, .integer | .plus, .integer => some .integer
  | .minus, .real | .plus, .real => some .real
  | .not, .boolean => some .boolean
  | _, _ => none

def onDatum? (op : UnaryOp) (a : Datum) : Option Datum :=
  match op, a with
  | .minus, .integer n => (Integer.neg? n).map .integer
  | .minus, .real x => some (.real (-x))
  | .not, .boolean b => some (.boolean !b)
  | .plus, a => some a
  | _, _ => none

/-- Applies a unary operator at `span`. -/
def apply (op : UnaryOp) (operand : Value) (span : Span) : Operation :=
  if operand.type.isUnknown then .poisoned operand.type
  else
    match op.resultType? operand.type.operandKind with
    | none => .unsupported span
    | some type =>
      match operand.datum? with
      | some a => .computed type [] (op.onDatum? a)
      | none => ⟨⟨type, .pending operand.isInvalid⟩, []⟩

end UnaryOp

end Pseudocode
