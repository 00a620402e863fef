/-!
# Fixed words of the language

Operators, passing modes, kinds of callables and routines of the standard library, with the way
programs and messages spell them.
-/

namespace Pseudocode

inductive BinaryOp where
  | and | or | xor
  | eq | ne | lt | le | gt | ge
  | add | sub | mul | div | mod
deriving DecidableEq

namespace BinaryOp

def all : List BinaryOp :=
  [.and, .or, .xor, .eq, .ne, .lt, .le, .gt, .ge, .add, .sub, .mul, .div, .mod]

def symbol : BinaryOp → String
  | .and => "ET"
  | .or => "OU"
  | .xor => "XOR"
  | .eq => "=="
  | .ne => "!="
  | .lt => "<"
  | .le => "<="
  | .gt => ">"
  | .ge => ">="
  | .add => "+"
  | .sub => "-"
  | .mul => "*"
  | .div => "/"
  | .mod => "%"

/-- Tests whether two values are the same. -/
def isEquality : BinaryOp → Bool
  | .eq | .ne => true
  | _ => false

/-- Divides by its right operand. -/
def isDivision : BinaryOp → Bool
  | .div | .mod => true
  | _ => false

end BinaryOp

inductive UnaryOp where
  | minus | plus | not
deriving DecidableEq

namespace UnaryOp

def all : List UnaryOp := [.minus, .plus, .not]

def symbol : UnaryOp → String
  | .minus => "-"
  | .plus => "+"
  | .not => "NON"

end UnaryOp

/-- The direction in which a parameter passes data. -/
inductive Mode where
  | input | output | inputOutput
deriving DecidableEq

namespace Mode

def all : List Mode := [.input, .output, .inputOutput]

/-- The keyword in a list of formal parameters. -/
def formal : Mode → String
  | .input => "entF"
  | .output => "sortF"
  | .inputOutput => "entF/sortF"

/-- The keyword at a call. -/
def actual : Mode → String
  | .input => "entE"
  | .output => "sortE"
  | .inputOutput => "entE/sortE"

end Mode

inductive CallableKind where
  | function | procedure
deriving DecidableEq

namespace CallableKind

def all : List CallableKind := [.function, .procedure]

def text : CallableKind → String
  | .function => "function"
  | .procedure => "procedure"

end CallableKind

/-- The loops that run under a condition. -/
inductive LoopKind where
  /-- The body runs before the first test. -/
  | doWhile
  /-- The body runs before the first test, and the loop ends once the condition holds. -/
  | repeatUntil
  | whileDo
deriving DecidableEq

/-- The file and console routines of the standard library. -/
inductive Routine where
  | assign | write | print | close | read | readKey | openAppend | openWrite | openRead
deriving DecidableEq

def Routine.name : Routine → String
  | .assign => "assigner"
  | .write => "ecrire"
  | .print => "ecrireEcran"
  | .close => "fermer"
  | .read => "lire"
  | .readKey => "lireClavier"
  | .openAppend => "ouvrirAjout"
  | .openWrite => "ouvrirEcriture"
  | .openRead => "ouvrirLecture"

end Pseudocode
