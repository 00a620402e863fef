/-!
# Diagnostic codes

The number of a code is stable. Its thousands give the severity.
-/

namespace Pseudocode

inductive Severity where
  | error | warning | hint | debug
deriving DecidableEq

def Severity.text : Severity → String
  | .error => "error"
  | .warning => "warning"
  | .hint => "hint"
  | .debug => "debug"

inductive Code where
  | undefinedSymbol
  | redefinedSymbol
  | redefinedMainProgram
  | signatureMismatch
  | callableNotDefined
  | constantAssignment
  | callParameterMismatch
  | constantExpressionExpected
  | structureDuplicateComponent
  | structureComponentDoesntExist
  | componentAccessOfNonStruct
  | subscriptOfNonArray
  | unsupportedOperation
  | expressionHasWrongType
  | nonIntegerIndex
  | indexOutOfBounds
  | excessElementInInitializer
  | unsupportedInitializer
  | unsupportedDesignator
  | returnInNonReturnable
  | returnExpectsValue
  | cannotSwitchOnString
  | switchDefaultIsNotLast
  | invalidCast
  | assertionFailed
  | nonPositiveLength
  | divisionByZero
  | floatingPointEquality
  | unofficialFeature
  | redundantCast
  | expressionValueUnused
  | evaluateExpression
  | evaluateType
deriving DecidableEq

namespace Code

/-- All codes, by ascending number. -/
def all : List Code :=
  [.undefinedSymbol, .redefinedSymbol, .redefinedMainProgram, .signatureMismatch,
    .callableNotDefined, .constantAssignment, .callParameterMismatch, .constantExpressionExpected,
    .structureDuplicateComponent, .structureComponentDoesntExist, .componentAccessOfNonStruct,
    .subscriptOfNonArray, .unsupportedOperation, .expressionHasWrongType, .nonIntegerIndex,
    .indexOutOfBounds, .excessElementInInitializer, .unsupportedInitializer,
    .unsupportedDesignator, .returnInNonReturnable, .returnExpectsValue, .cannotSwitchOnString,
    .switchDefaultIsNotLast, .invalidCast, .assertionFailed, .nonPositiveLength, .divisionByZero,
    .floatingPointEquality, .unofficialFeature, .redundantCast, .expressionValueUnused,
    .evaluateExpression, .evaluateType]

def number : Code → Nat
  | .undefinedSymbol => 0
  | .redefinedSymbol => 1
  | .redefinedMainProgram => 2
  | .signatureMismatch => 3
  | .callableNotDefined => 4
  | .constantAssignment => 5
  | .callParameterMismatch => 6
  | .constantExpressionExpected => 7
  | .structureDuplicateComponent => 8
  | .structureComponentDoesntExist => 9
  | .componentAccessOfNonStruct => 10
  | .subscriptOfNonArray => 11
  | .unsupportedOperation => 12
  | .expressionHasWrongType => 13
  | .nonIntegerIndex => 14
  | .indexOutOfBounds => 15
  | .excessElementInInitializer => 16
  | .unsupportedInitializer => 17
  | .unsupportedDesignator => 18
  | .returnInNonReturnable => 19
  | .returnExpectsValue => 20
  | .cannotSwitchOnString => 21
  | .switchDefaultIsNotLast => 22
  | .invalidCast => 23
  | .assertionFailed => 24
  | .nonPositiveLength => 25
  | .divisionByZero => 1000
  | .floatingPointEquality => 1001
  | .unofficialFeature => 2000
  | .redundantCast => 2001
  | .expressionValueUnused => 2002
  | .evaluateExpression => 3000
  | .evaluateType => 3001

def ofNumber? (n : Nat) : Option Code := all.find? (·.number == n)

def severity (c : Code) : Severity :=
  match c.number / 1000 with
  | 0 => .error
  | 1 => .warning
  | 2 => .hint
  | _ => .debug

def name : Code → String
  | .undefinedSymbol => "undefined-symbol"
  | .redefinedSymbol => "redefined-symbol"
  | .redefinedMainProgram => "redefined-main-program"
  | .signatureMismatch => "signature-mismatch"
  | .callableNotDefined => "callable-not-defined"
  | .constantAssignment => "constant-assignment"
  | .callParameterMismatch => "call-parameter-mismatch"
  | .constantExpressionExpected => "constant-expression-expected"
  | .structureDuplicateComponent => "structure-duplicate-component"
  | .structureComponentDoesntExist => "structure-component-doesnt-exist"
  | .componentAccessOfNonStruct => "component-access-of-non-struct"
  | .subscriptOfNonArray => "subscript-of-non-array"
  | .unsupportedOperation => "unsupported-operation"
  | .expressionHasWrongType => "expression-has-wrong-type"
  | .nonIntegerIndex => "non-integer-index"
  | .indexOutOfBounds => "index-out-of-bounds"
  | .excessElementInInitializer => "excess-element-in-initializer"
  | .unsupportedInitializer => "unsupported-initializer"
  | .unsupportedDesignator => "unsupported-designator"
  | .returnInNonReturnable => "return-in-non-returnable"
  | .returnExpectsValue => "return-expects-value"
  | .cannotSwitchOnString => "cannot-switch-on-string"
  | .switchDefaultIsNotLast => "switch-default-is-not-last"
  | .invalidCast => "invalid-cast"
  | .assertionFailed => "assertion-failed"
  | .nonPositiveLength => "non-positive-length"
  | .divisionByZero => "division-by-zero"
  | .floatingPointEquality => "floating-point-equality"
  | .unofficialFeature => "unofficial-feature"
  | .redundantCast => "redundant-cast"
  | .expressionValueUnused => "expression-value-unused"
  | .evaluateExpression => "evaluate-expression"
  | .evaluateType => "evaluate-type"

/-- `P` and the number in four digits. -/
def text (c : Code) : String :=
  let digits := Nat.toDigits 10 c.number
  String.ofList ('P' :: List.replicate (4 - digits.length) '0' ++ digits)

theorem mem_all (c : Code) : c ∈ all := by
  cases c <;> decide

theorem ofNumber?_number (c : Code) : ofNumber? c.number = some c := by
  cases c <;> rfl

end Code

end Pseudocode
