import GeneralizedLR.Choice
import GeneralizedLR.Token

/-!
Parsers put together from single tokens, sequences, maps and alternatives. A parser runs with a
continuation: what comes behind it. So each alternative is judged by how it goes on to the end and
not by itself.
-/

set_option autoImplicit false
set_option relaxedAutoImplicit false

namespace GeneralizedLR

/-- A parser over tokens `K`, by the type of its value. -/
inductive Combinator (K : Type) : Type → Type 1 where
  | expect (terminal : Nat) (description : String) : Combinator K K
  | both {A B : Type} (first : Combinator K A) (second : Combinator K B) : Combinator K (A × B)
  | map {A B : Type} (f : A → B) (parser : Combinator K A) : Combinator K B
  /-- The better one of two parsers. -/
  | either {A : Type} (first second : Combinator K A) : Combinator K A

namespace Combinator

variable {K A R : Type} [Token K]

/-- A failure where the token at the cursor, or the end, stands in place of an expected one. -/
def mismatch (description : String) (cursor : Cursor K) : Outcome K R where
  value := none
  cursor := cursor
  errors := [⟨some .missing, cursor.peek.bind Token.span, some description⟩]

/-- Run a parser at a cursor with what comes behind it, and count the choices made. -/
def run : {A : Type} → Combinator K A → Cursor K → (A → Cursor K → StateM Nat (Outcome K R)) →
    StateM Nat (Outcome K R)
  | _, .expect terminal description, cursor, future =>
    match cursor.peek with
    | some token =>
      if Token.terminal token = terminal then future token cursor.advance
      else pure (mismatch description cursor)
    | none => pure (mismatch description cursor)
  | _, .both first second, cursor, future =>
    first.run cursor fun a cursor => second.run cursor fun b cursor => future (a, b) cursor
  | _, .map f parser, cursor, future =>
    parser.run cursor fun a cursor => future (f a) cursor
  | _, .either first second, cursor, future => do
    let a ← first.run cursor future
    let b ← second.run cursor future
    a.choose b

def parse (parser : Combinator K A) (cursor : Cursor K) : StateM Nat (Outcome K A) :=
  parser.run cursor fun value cursor => pure { value := some value, cursor }

end Combinator

end GeneralizedLR
