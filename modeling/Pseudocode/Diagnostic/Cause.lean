import Pseudocode.Diagnostic.Sink
import Pseudocode.Scope.Symbol
import Pseudocode.Value.Text

/-!
# Causes

A finding names its cause and its place. The code, the message and the advice of the diagnostic that
reports it all follow from the cause.
-/

namespace Pseudocode

/-- A feature that programs can use and the official language does not have. -/
inductive Feature where
  | directives | casts | scalarInitializers
deriving DecidableEq

def Feature.text : Feature → String
  | .directives => "compiler directives"
  | .casts => "type casts"
  | .scalarInitializers => "scalar initializers"

/-- What to write without the feature. -/
def Feature.alternative : Feature → List String
  | .scalarInitializers =>
    ["consider separating the initialization from the declaration in an assignment statement"]
  | _ => []

/-- A way in which a call differs from the signature of its callee. -/
inductive CallProblem where
  | count (expected actual : Nat)
  | mode (parameter : String) (expected actual : Mode)
  | type (parameter : String) (expected actual : Ty)

def CallProblem.text : CallProblem → String
  | .count expected actual =>
    let plural := if expected = 1 then "" else "s"
    s!"expected {expected} argument{plural}, got {actual}"
  | .mode parameter expected actual =>
    s!"wrong mode for `{parameter}`: expected '{expected.actual}', got '{actual.actual}'"
  | .type parameter expected actual =>
    s!"wrong type for `{parameter}`: expected '{expected.text}', got '{actual.text}'"

inductive Cause where
  | unresolved (error : LookupError)
  | unbindable (error : DeclareError)
  | secondMainProgram
  | undefinedCallable (kind : CallableKind) (name : String)
  | constantAssigned (name : String)
  | callMismatch (kind : CallableKind) (name : String) (problems : List CallProblem)
  /-- An integer operation inside the expression overflowed if `overflowed` holds. -/
  | notConstant (overflowed : Bool)
  | duplicateComponent (name : String)
  /-- The structure is shown by the name of its type, if that is an alias. -/
  | missingComponent (owner : Option String) (name : String)
  | componentOfNonStruct (name : String) (type : Ty)
  | subscriptOfNonArray (type : Ty)
  | unsupportedBinary (op : BinaryOp) (left right : Ty)
  | unsupportedUnary (op : UnaryOp) (operand : Ty)
  | wrongType (actual expected : Ty)
  | nonIntegerIndex (type : Ty)
  | indexOutOfBounds (index : Int32) (length : Nat)
  | excessItem
  | unsupportedInitializer (type : Ty)
  | unsupportedDesignator (type : Ty)
  | returnOutsideBody
  | returnWithoutValue (expected : Ty)
  | switchOnString
  | defaultNotLast
  | invalidCast (source target : Ty)
  | assertionFailed (message : Option String)
  | nonPositiveLength (length : Int32)
  | divisionByZero
  | floatingPointEquality
  | unofficial (feature : Feature)
  | redundantCast (source target : Ty)
  | unusedValue
  | shownValue (value : Value)
  | shownType (type : Ty)

namespace Cause

def code : Cause → Code
  | .unresolved _ => .undefinedSymbol
  | .unbindable (.redefined ..) => .redefinedSymbol
  | .unbindable (.signatureMismatch ..) => .signatureMismatch
  | .secondMainProgram => .redefinedMainProgram
  | .undefinedCallable .. => .callableNotDefined
  | .constantAssigned _ => .constantAssignment
  | .callMismatch .. => .callParameterMismatch
  | .notConstant _ => .constantExpressionExpected
  | .duplicateComponent _ => .structureDuplicateComponent
  | .missingComponent .. => .structureComponentDoesntExist
  | .componentOfNonStruct .. => .componentAccessOfNonStruct
  | .subscriptOfNonArray _ => .subscriptOfNonArray
  | .unsupportedBinary .. => .unsupportedOperation
  | .unsupportedUnary .. => .unsupportedOperation
  | .wrongType .. => .expressionHasWrongType
  | .nonIntegerIndex _ => .nonIntegerIndex
  | .indexOutOfBounds .. => .indexOutOfBounds
  | .excessItem => .excessElementInInitializer
  | .unsupportedInitializer _ => .unsupportedInitializer
  | .unsupportedDesignator _ => .unsupportedDesignator
  | .returnOutsideBody => .returnInNonReturnable
  | .returnWithoutValue _ => .returnExpectsValue
  | .switchOnString => .cannotSwitchOnString
  | .defaultNotLast => .switchDefaultIsNotLast
  | .invalidCast .. => .invalidCast
  | .assertionFailed _ => .assertionFailed
  | .nonPositiveLength _ => .nonPositiveLength
  | .divisionByZero => .divisionByZero
  | .floatingPointEquality => .floatingPointEquality
  | .unofficial _ => .unofficialFeature
  | .redundantCast .. => .redundantCast
  | .unusedValue => .expressionValueUnused
  | .shownValue _ => .evaluateExpression
  | .shownType _ => .evaluateType

/-- The source text of a span, if there is a source and the span lies on its characters. -/
def quotation? (source : Option String) (span : Span) : Option String :=
  source.bind fun text => Text.slice? text span.offset span.length

/-- The message of a binding that was refused. A signature that differs from an earlier one is shown
beside the earlier one, if that can be quoted. -/
def unbindableMessage (source : Option String) (error : DeclareError) : String :=
  match error with
  | .redefined .. => error.message
  | .signatureMismatch _ _ previous =>
    match quotation? source previous with
    | some text => s!"{error.message} (`{text}`)"
    | none => error.message

/-- The message, which may quote the source text. -/
def message (source : Option String) : Cause → String
  | .unresolved error => error.message
  | .unbindable error => unbindableMessage source error
  | .secondMainProgram => "more than one main program"
  | .undefinedCallable kind name => s!"{kind.text} `{name}` declared but not defined"
  | .constantAssigned name => s!"reassigning constant `{name}`"
  | .callMismatch kind name _ => s!"call to {kind.text} `{name}` does not correspond to signature"
  | .notConstant _ => "constant expression expected"
  | .duplicateComponent name => s!"duplicate component `{name}` in structure is ignored"
  | .missingComponent (some owner) name => s!"'{owner}' has no component named `{name}`"
  | .missingComponent none name => s!"no component named `{name}` in structure"
  | .componentOfNonStruct name type =>
    s!"request for component `{name}` in something ('{type.text}') not a structure"
  | .subscriptOfNonArray type => s!"subscripted value ('{type.text}') is not an array"
  | .unsupportedBinary op left right =>
    s!"unsupported operand types for {op.symbol}: '{left.text}' and '{right.text}'"
  | .unsupportedUnary op operand =>
    s!"unsupported operand type for {op.symbol}: '{operand.text}'"
  | .wrongType actual expected =>
    s!"can't convert expression of type '{actual.text}' to '{expected.text}'"
  | .nonIntegerIndex type => s!"non integer ('{type.text}') array index"
  | .indexOutOfBounds .. => "index out of bounds for array"
  | .excessItem => "excess element in initializer"
  | .unsupportedInitializer type => s!"unsupported initializer for type `{type.text}`"
  | .unsupportedDesignator type => s!"unsupported designator in '{type.text}' initializer"
  | .returnOutsideBody => "return in something not a function, a procedure or a main program"
  | .returnWithoutValue expected => s!"return here requires a value of type '{expected.text}'"
  | .switchOnString => "cannot switch on string"
  | .defaultNotLast => "default not last in switch; all cases below are unreachable"
  | .invalidCast source target =>
    s!"invalid cast: there is no implicit or explicit conversion from '{source.text}' to " ++
      s!"'{target.text}'"
  | .assertionFailed (some message) => s!"compile-time assertion failed: {message}"
  | .assertionFailed none => "compile-time assertion failed"
  | .nonPositiveLength length => s!"length must be positive, got {length.toInt}"
  | .divisionByZero => "division by zero will cause runtime error"
  | .floatingPointEquality => "floating point equality may be inaccurate"
  | .unofficial feature => s!"language feature '{feature.text}' is not official"
  | .redundantCast source target =>
    s!"redundant cast from '{source.text}' to '{target.text}': an implicit conversion exists"
  | .unusedValue => "value of expression unused"
  | .shownValue value => s!"evaluated value: {value.text}"
  | .shownType type => s!"evaluated type: {type.fullText}"

def advice : Cause → List String
  | .undefinedCallable _ name => [s!"provide a definition for `{name}`"]
  | .callMismatch _ _ problems => problems.map CallProblem.text
  | .notConstant overflowed => if overflowed then ["integer overflow"] else []
  | .indexOutOfBounds index length => [s!"indexed at {index.toInt}, length is {length}"]
  | .defaultNotLast => ["move the default case to the end of the switch statement"]
  | .floatingPointEquality =>
    ["consider comparing absolute difference to an epsilon value instead"]
  | .unofficial feature => feature.alternative
  | _ => []

end Cause

/-- Something worth reporting, and where. -/
structure Finding where
  cause : Cause
  span : Span

def Finding.diagnostic (source : Option String) (f : Finding) : Diagnostic :=
  { code := f.cause.code
    message := f.cause.message source
    advice := f.cause.advice
    span := f.span }

end Pseudocode
