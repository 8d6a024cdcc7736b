import GeneralizedLR.Actions
import GeneralizedLR.Token

/-!
Words: tokens of no particular language, which say themselves what terminal they are in which
channel. The actions for them write down what they see, so that the value of a parse shows how it
came about.
-/

set_option autoImplicit false
set_option relaxedAutoImplicit false

namespace GeneralizedLR

/-- A token with a terminal of its own and further ones by channel. -/
structure Word where
  terminal : Nat
  text : String := ""
  span : Option Span := none
  isEnd : Bool := false
  channels : List (Nat × Nat) := []
  deriving DecidableEq

namespace Word

/-- The terminal in a channel is the one listed first for it, or else the word's own. -/
def terminalIn (channel : Nat) (word : Word) : Nat :=
  (word.channels.lookup channel).getD word.terminal

/-- A word inserted by a repair shows its description in angle brackets. -/
def correction (word : Word) (terminal : Nat) (description : String) : Word :=
  { terminal, text := "<" ++ description ++ ">", span := word.span }

instance : Token Word where
  terminal := terminal
  terminalIn := terminalIn
  literal := text
  span := span
  isEnd := isEnd
  correction := correction

def inspect (word : Word) : String := s!"{word.terminal}:{word.text}"

def render : Content Word String → String
  | .lexeme word => word.text
  | .reduced value => value

/-- The text of the value at `index`, or a blank if there is none. -/
def renderAt (values : List (Content Word String)) (index : Nat) : String :=
  (values[index]?.map render).getD "_"

def joined : Action Word String := fun values _ =>
  " ".intercalate (values.map render)

def grouped : Action Word String := fun values lookahead =>
  "[" ++ joined values lookahead ++ "]"

def summed : Action Word String := fun values _ =>
  "(" ++ renderAt values 0 ++ "+" ++ renderAt values 2 ++ ")"

def labelled (label : String) : Action Word String := fun values _ =>
  label ++ "(" ++ renderAt values 0 ++ ")"

def withLookahead : Action Word String := fun values lookahead =>
  "\x7b" ++ joined values lookahead ++ "\x7d@" ++ lookahead.inspect

def kinds : Action Word String := fun values _ =>
  String.ofList (values.map fun
    | .lexeme _ => 'L'
    | .reduced _ => 'R')

end Word

end GeneralizedLR
