import GeneralizedLR.Fault
import GeneralizedLR.Number.Signed
import GeneralizedLR.Source.Span
import GeneralizedLR.Text.Quoted

/-!
Why an expression has no value at all. Syntax errors are not among the reasons, since they are
repaired.
-/

set_option autoImplicit false
set_option relaxedAutoImplicit false

namespace GeneralizedLR.Arithmetic

/-- Why an expression could not be evaluated. -/
inductive Error where
  /-- A run of digits is no 64-bit number. -/
  | unreadable (cause : Number.ReadError)
  /-- No token starts with the character. -/
  | unexpected (char : Char) (position : Position)
  | engine (cause : Fault)
  | noParse
  deriving DecidableEq

def causeLabel : Number.ReadError → String
  | .empty => "Empty"
  | .invalidDigit => "InvalidDigit"
  | .tooLarge => "PosOverflow"
  | .tooSmall => "NegOverflow"

def Error.message : Error → String
  | .unreadable cause => s!"unable to parse ParseIntError \x7b kind: {causeLabel cause} \x7d"
  | .unexpected char position =>
    s!"unexpected character {Text.quoteChar char} at {position.line}:{position.column}"
  | .engine cause => s!"engine error: {cause.message}"
  | .noParse => "no parse"

def Error.causes : Error → List String
  | .unreadable cause => [(Error.unreadable cause).message, cause.message]
  | .engine cause => [(Error.engine cause).message, cause.message]
  | error => [error.message]

end GeneralizedLR.Arithmetic
