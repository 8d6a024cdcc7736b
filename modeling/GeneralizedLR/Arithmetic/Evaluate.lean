import GeneralizedLR.Arithmetic.Grammar
import GeneralizedLR.Arithmetic.Scan
import GeneralizedLR.Engine.Input

/-!
Evaluating an expression: its tokens go into the engine one by one, and the first accepted parse is
the result.
-/

set_option autoImplicit false
set_option relaxedAutoImplicit false

namespace GeneralizedLR.Arithmetic

def parser (grouping : Grouping) (codes : ErrorCodes := {}) : Parser Lexeme Expr where
  table := table grouping
  reducer := reducer
  codes := codes

/-- An expression, the syntax errors that were repaired to read it, and what the engine did. -/
structure Evaluation where
  expr : Expr
  diagnostics : List Diagnostic
  stats : Stats

/-- More rounds than the engine makes for a source: a stack grows by at most two values for a token
and two more for each that is missing at the end, and every round shortens a stack or inserts a
token. -/
def fuelFor (source : String) : Nat := 16 * (source.length + 4)

def feed (fuel : Nat) (p : Parser Lexeme Expr) (e : Engine Lexeme Expr) :
    List Scanned → Except Error (Engine Lexeme Expr)
  | [] => .ok e
  | .error error :: _ => .error error
  | .ok lexeme :: rest =>
    match e.input fuel p lexeme with
    | .ok e => feed fuel p e rest
    | .error (.fault cause _) => .error (.engine cause)
    | .error .exhausted => .error .noParse

def evaluate (grouping : Grouping) (codes : ErrorCodes) (source : String) :
    Except Error Evaluation := do
  let p := parser grouping codes
  let e ← feed (fuelFor source) p .start (scan source)
  if e.accepted.isEmpty then throw .noParse
  match e.result 0 with
  | .ok expr => return ⟨expr, e.diagnostics codes 0, e.stats⟩
  | .error cause => throw (.engine cause)

end GeneralizedLR.Arithmetic
