import GeneralizedLR.Head

/-!
Semantic actions by production, with one action for all productions that have none of their own.
-/

set_option autoImplicit false
set_option relaxedAutoImplicit false

namespace GeneralizedLR

/-- An action sees the values of its production, lowest first, and the lookahead. -/
abbrev Action (K V : Type) := List (Content K V) → K → V

/-- Actions by production, newest in front. -/
structure Actions (K V : Type) where
  fallback : Action K V
  registered : List (Nat × Action K V) := []

namespace Actions

variable {K V : Type}

def on (actions : Actions K V) (production : Nat) (action : Action K V) : Actions K V :=
  { actions with registered := (production, action) :: actions.registered }

def reduce (actions : Actions K V) : Reducer K V := fun production =>
  (actions.registered.lookup production).getD actions.fallback

end Actions

end GeneralizedLR
