import GeneralizedLR.Number.Signed
import GeneralizedLR.Text.Quoted
import GeneralizedLR.Token

/-!
The tokens of arithmetic: numbers, the operators `+` and `*`, parentheses, and the end of the input.
-/

set_option autoImplicit false
set_option relaxedAutoImplicit false

namespace GeneralizedLR.Arithmetic

inductive Terminal where
  | number
  | plus
  | star
  | leftParen
  | rightParen
  | endOfInput
  deriving DecidableEq

namespace Terminal

def all : List Terminal := [.number, .plus, .star, .leftParen, .rightParen, .endOfInput]

def index : Terminal → Nat
  | .number => 0
  | .plus => 1
  | .star => 2
  | .leftParen => 3
  | .rightParen => 4
  | .endOfInput => 5

def ofIndex? (index : Nat) : Option Terminal := all[index]?

def name : Terminal → String
  | .number => "Number"
  | .plus => "Plus"
  | .star => "Star"
  | .leftParen => "LeftParen"
  | .rightParen => "RightParen"
  | .endOfInput => "End"

/-- How a terminal is written, if it is always written the same way. -/
def symbol : Terminal → String
  | .number => ""
  | .plus => "+"
  | .star => "*"
  | .leftParen => "("
  | .rightParen => ")"
  | .endOfInput => ""

def description : Terminal → String
  | .number => "number"
  | .plus => "'+'"
  | .star => "'*'"
  | .leftParen => "'('"
  | .rightParen => "')'"
  | .endOfInput => "end of input"

theorem ofIndex?_index (t : Terminal) : ofIndex? t.index = some t := by
  cases t <;> rfl

end Terminal

/-- What a token carries beside its terminal. -/
inductive Payload where
  | empty
  | number (value : Int64)
  /-- A repair inserted the token; the text describes it. -/
  | missing (description : String)
  deriving DecidableEq

def Payload.inspect : Payload → String
  | .empty => "None"
  | .number value => s!"Number({Number.decimal value})"
  | .missing description => s!"Missing({Text.quote description})"

structure Lexeme where
  terminal : Terminal
  payload : Payload := .empty
  span : Option Span := none
  deriving DecidableEq

namespace Lexeme

/-- A number is written in decimal digits and an inserted token not at all. -/
def literal (lexeme : Lexeme) : String :=
  match lexeme.payload with
  | .number value => Number.decimal value
  | .missing _ => ""
  | .empty => lexeme.terminal.symbol

def isEnd (lexeme : Lexeme) : Bool := lexeme.terminal = .endOfInput

def correction (lexeme : Lexeme) (terminal : Nat) (description : String) : Lexeme where
  terminal := (Terminal.ofIndex? terminal).getD .endOfInput
  payload := .missing description
  span := lexeme.span

instance : Token Lexeme where
  terminal lexeme := lexeme.terminal.index
  terminalIn _ lexeme := lexeme.terminal.index
  literal := literal
  span := span
  isEnd := isEnd
  correction := correction

def inspect (lexeme : Lexeme) : String :=
  s!"CalcToken \x7b token_id: {lexeme.terminal.name}, value: {lexeme.payload.inspect}, " ++
    s!"span: {Span.inspect lexeme.span} \x7d"

end Lexeme

end GeneralizedLR.Arithmetic
