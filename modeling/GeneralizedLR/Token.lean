import GeneralizedLR.Source.Span

/-!
What the engine asks of a token. A token has one terminal of its own and may have another one in a
lexical channel; a state of the table may ask for a channel.
-/

set_option autoImplicit false
set_option relaxedAutoImplicit false

namespace GeneralizedLR

/-- The tokens of a language. -/
class Token (K : Type) where
  terminal : K → Nat
  /-- The terminal of a token in a lexical channel. -/
  terminalIn : Nat → K → Nat
  literal : K → String
  span : K → Option Span
  isEnd : K → Bool
  /-- A token of the given terminal and description to insert before a token. -/
  correction : K → Nat → String → K

def Token.classify {K : Type} [Token K] (channel : Option Nat) (token : K) : Nat :=
  match channel with
  | some channel => Token.terminalIn channel token
  | none => Token.terminal token

end GeneralizedLR
