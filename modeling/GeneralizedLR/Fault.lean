/-!
Faults of a run that are no syntax errors: a defective table, or a question about a result that is
not there.
-/

set_option autoImplicit false
set_option relaxedAutoImplicit false

namespace GeneralizedLR

/-- Why the engine cannot go on or cannot answer. -/
inductive Fault where
  /-- There are only `accepted` results. -/
  | resultOutOfRange (index accepted : Nat)
  /-- The table does not say where `nonterminal` leads from `state`. -/
  | missingGoto (state nonterminal : Nat)
  /-- The table names a production that it does not have. -/
  | unknownProduction (production : Nat)
  /-- A reduction needs more values than the stack holds. -/
  | stackUnderflow (arity : Nat)
  | staleNode (node : Nat)
  /-- The accepted head at `index` carries no reduced value. -/
  | missingResult (index : Nat)
  deriving DecidableEq

def Fault.message : Fault → String
  | .resultOutOfRange index accepted =>
    s!"result index {index} is out of range (accepted: {accepted})"
  | .missingGoto state nonterminal => s!"no goto from state {state} on nonterminal {nonterminal}"
  | .unknownProduction production => s!"unknown production {production}"
  | .stackUnderflow arity => s!"stack underflow while reducing {arity} values"
  | .staleNode node => s!"stack node {node} was reclaimed"
  | .missingResult index => s!"accepted head {index} has no reduced value"

end GeneralizedLR
