import GeneralizedLR.Source.Span

/-!
Syntax errors. A head records each repair it made; a result hands the records out as diagnostics,
whose codes the caller chooses for each kind of error.
-/

set_option autoImplicit false
set_option relaxedAutoImplicit false

namespace GeneralizedLR

inductive ErrorKind where
  | unexpected
  | missing
  | other
  deriving DecidableEq

/-- The caller's code for each kind of error. -/
structure ErrorCodes where
  unexpected : Nat := 1
  missing : Nat := 2
  other : Nat := 0
  deriving DecidableEq, Inhabited

/-- The code of a kind; an error without a kind counts as other. -/
def ErrorCodes.code (codes : ErrorCodes) : Option ErrorKind → Nat
  | some .unexpected => codes.unexpected
  | some .missing => codes.missing
  | some .other => codes.other
  | none => codes.other

/-- A syntax error as a head keeps it: `argument` is the literal of a dropped token or the
description of an inserted one. -/
structure ErrorRecord where
  kind : Option ErrorKind
  span : Option Span
  argument : Option String
  deriving DecidableEq

/-- A syntax error as the caller receives it. -/
structure Diagnostic where
  code : Nat
  span : Option Span
  argument : Option String
  deriving DecidableEq

def ErrorRecord.diagnostic (codes : ErrorCodes) (record : ErrorRecord) : Diagnostic where
  code := codes.code record.kind
  span := record.span
  argument := record.argument

end GeneralizedLR
