import GeneralizedLR.Fault
import GeneralizedLR.Source.Span
import GeneralizedLR.Text.Quoted

/-!
The journal of a run: what the engine did, event by event, and the line that a log shows for each
event. How a token is shown is the business of its language.
-/

set_option autoImplicit false
set_option relaxedAutoImplicit false

namespace GeneralizedLR

inductive Severity where
  | trace
  | debug
  | warn
  | error
  deriving DecidableEq

def Severity.label : Severity → String
  | .trace => "TRACE"
  | .debug => "DEBUG"
  | .warn => "WARN"
  | .error => "ERROR"

/-- What the engine does while it takes in a token. -/
inductive Event (K : Type) where
  /-- Without any live head, a token comes in. -/
  | waiting
  /-- A live head, its path and its record of repairs when a token comes in. -/
  | standing (serial : Nat) (path : String) (token : K) (level errors : Nat)
  | shifted (state target : Nat) (token : K)
  | reduced (state production target : Nat)
  | accepted (serial production : Nat)
  | deadEnd (token : K)
  | recovering (heads : Nat) (literal : String) (span : Option Span)
  | deleted (token : K) (serial : Nat)
  | inserted (description : String) (state target serial : Nat)
  | merged (serial level keptSerial keptLevel : Nat)
  | settled (heads results nodes reclaimed : Nat)
  | abandoned (token : K) (cause : Fault)

namespace Event

variable {K : Type}

def severity : Event K → Severity
  | .recovering .. => .debug
  | .merged .. => .debug
  | .settled .. => .debug
  | .deadEnd _ => .warn
  | .abandoned .. => .error
  | _ => .trace

def message (inspect : K → String) : Event K → String
  | .waiting => "<>"
  | .standing serial path token level errors =>
    s!"#{serial} {path}<-  {inspect token}  (level {level}, {errors} errors)"
  | .shifted state target token => s!"Shift {state} -> {target} on {inspect token}"
  | .reduced state production target => s!"Reduce {state}({production}) -> {target}"
  | .accepted serial production => s!"Accept head #{serial} ({production})"
  | .deadEnd token => s!"No head left to recover at {inspect token}"
  | .recovering heads literal span =>
    s!"Recovering {heads} heads at {Text.quote literal} {Span.inspect span}"
  | .deleted token serial => s!"Delete {inspect token} (head #{serial})"
  | .inserted description state target serial =>
    s!"Insert {Text.quote description} {state} -> {target} (head #{serial})"
  | .merged serial level keptSerial keptLevel =>
    s!"Merge head #{serial} (level {level}) with head #{keptSerial} (level {keptLevel})"
  | .settled heads results nodes reclaimed =>
    s!"{heads} heads, {results} accepted, {nodes} stack nodes ({reclaimed} reclaimed)"
  | .abandoned token cause => s!"Abandoning parse at {inspect token}: {cause.message}"

def line (inspect : K → String) (event : Event K) : String :=
  event.severity.label ++ " " ++ event.message inspect

end Event

end GeneralizedLR
