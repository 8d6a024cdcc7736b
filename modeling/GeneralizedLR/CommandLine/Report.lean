import GeneralizedLR.Arithmetic.Evaluate
import GeneralizedLR.CommandLine.Arguments
import GeneralizedLR.Text.Blank

/-!
What the program prints. Every line that is not blank is an expression of its own; its report is the
value, the repaired syntax errors and, on demand, the counts of the engine. The first line that
cannot be evaluated ends the run.
-/

set_option autoImplicit false
set_option relaxedAutoImplicit false

namespace GeneralizedLR.CommandLine

/-- The exit code and what goes to the two output streams. -/
structure Output where
  code : Nat := 0
  out : String := ""
  err : String := ""
  deriving DecidableEq

inductive FileError where
  | notFound
  | denied
  | notADirectory
  | isADirectory
  | nameTooLong
  | notText
  | other (text : String)
  deriving DecidableEq

def FileError.message : FileError → String
  | .notFound => "No such file or directory (os error 2)"
  | .denied => "Permission denied (os error 13)"
  | .notADirectory => "Not a directory (os error 20)"
  | .isADirectory => "Is a directory (os error 21)"
  | .nameTooLong => "File name too long (os error 36)"
  | .notText => "stream did not contain valid UTF-8"
  | .other text => text

/-- An error with what caused it; several causes are numbered. -/
def describeError (context : String) : List String → String
  | [] => s!"Error: {context}\n"
  | [cause] => s!"Error: {context}\n\nCaused by:\n    {cause}\n"
  | causes =>
    let numbered := causes.zipIdx.map fun (cause, index) => s!"    {index}: {cause}\n"
    s!"Error: {context}\n\nCaused by:\n" ++ String.join numbered

def dropReturn : List Char → List Char
  | '\r' :: line => line
  | line => line

/-- Cut a text into lines; `line` holds the characters of the open line, last one first. A line feed
ends a line, together with a carriage return before it, and what stands behind the last one is a
line unless it is empty. -/
def linesFrom (line : List Char) : List Char → List String
  | [] => if line.isEmpty then [] else [String.ofList line.reverse]
  | c :: rest =>
    if c = '\n' then String.ofList (dropReturn line).reverse :: linesFrom [] rest
    else linesFrom (c :: line) rest

def lines (text : String) : List String := linesFrom [] text.toList

def showDiagnostic (number : Nat) (line : String) (d : Diagnostic) : String :=
  let place := match d.span with
    | some span => s!"{span.start.line + number}:{span.start.column}"
    | none => ""
  let what := d.argument.getD ""
  s!"  error {d.code} at {place}: {Text.quote what} in {Text.quote line}\n"

def showEvaluation (number : Nat) (line : String) (stats : Bool) (e : Arithmetic.Evaluation) :
    String :=
  let value := match e.expr.value with
    | some value => Number.decimal value
    | none => "?"
  s!"{number}: {e.expr.text} = {value}\n" ++
    String.join (e.diagnostics.map (showDiagnostic number line)) ++
    (if stats then s!"  {e.stats.inspect}\n" else "")

/-- Evaluate lines, the first of which has the given number; `printed` is what was printed before.
-/
def evaluateLines (grouping : Arithmetic.Grouping) (stats : Bool) :
    Nat → String → List String → Output
  | _, printed, [] => { out := printed }
  | number, printed, line :: rest =>
    if Text.isBlankText line then evaluateLines grouping stats (number + 1) printed rest
    else
      match Arithmetic.evaluate grouping {} line with
      | .ok e =>
        let report := showEvaluation number line stats e
        evaluateLines grouping stats (number + 1) (printed ++ report) rest
      | .error error =>
        { code := 1, out := printed, err := describeError s!"line {number}" error.causes }

def versionText : String := "parlex-glr-calc 0.1.0\n"

def usageText : String :=
  "Usage: parlex-glr-calc parse [OPTIONS]\n\nOptions:\n" ++
    "  -i, --input <INPUT>        Input file with one expression per line\n" ++
    "  -e, --expr <EXPR>          Expression to evaluate\n" ++
    "  -g, --grouping <GROUPING>  How operator conflicts are handled: ambiguous, precedence\n" ++
    "      --stats                Also print engine statistics\n" ++
    "  -h, --help                 Print help\n"

/-- Answer a request. `read` gives the text of a file or the reason why there is none. -/
def respond (read : String → Except FileError String) : Request → Output
  | .version => { out := versionText }
  | .help => { out := usageText }
  | .misuse => { code := 2, err := usageText }
  | .evaluate none _ _ =>
    { code := 1, err := describeError "either --input or --expr is required" [] }
  | .evaluate (some (.text text)) grouping stats => evaluateLines grouping stats 1 "" (lines text)
  | .evaluate (some (.file path)) grouping stats =>
    match read path with
    | .ok text => evaluateLines grouping stats 1 "" (lines text)
    | .error cause =>
      { code := 1, err := describeError s!"can't open {Text.quote path}" [cause.message] }

end GeneralizedLR.CommandLine
