import Pseudocode.Diagnostic.Cause

/-!
# What is reported

A configuration decides which findings are delivered. It has no part in finding them.
-/

namespace Pseudocode

structure Config where
  /-- Hint at features outside the official language. -/
  unofficialFeatures : Bool
  /-- Answer the directives that show a value or a type. -/
  debug : Bool
  /-- Hint at local variables of scalar type that are declared with an initializer. -/
  scalarInitializers : Bool
  suppressed : List Code

namespace Config

def default : Config := ⟨true, true, true, []⟩

/-- Errors and warnings only. -/
def quiet : Config :=
  ⟨false, false, false, [.redundantCast, .expressionValueUnused, .unofficialFeature]⟩

def suppress (c : Config) (code : Code) : Config := { c with suppressed := code :: c.suppressed }

/-- The suppressed codes, each once, by ascending number. -/
def suppressedCodes (c : Config) : List Code := Code.all.filter c.suppressed.contains

/-- The finding is of a sort that is asked for. -/
def wants (c : Config) (f : Finding) : Bool :=
  match f.cause with
  | .unofficial .scalarInitializers => c.unofficialFeatures && c.scalarInitializers
  | .unofficial _ => c.unofficialFeatures
  | .shownValue _ | .shownType _ => c.debug
  | _ => true

/-- Reports the findings that are wanted. -/
def deliver (c : Config) (source : Option String) (findings : List Finding) : Sink :=
  (Sink.empty c.suppressed).reportAll ((findings.filter c.wants).map (Finding.diagnostic source))

end Config

end Pseudocode
