import GeneralizedLR.Diagnostic
import GeneralizedLR.Stack.Arena
import GeneralizedLR.Table

/-!
Parse heads. A head is one alternative of the parse: the top of its stack, the repairs it made and
how many they were. A shift or a reduction pushes one node and leaves all other nodes as they are.
-/

set_option autoImplicit false
set_option relaxedAutoImplicit false

namespace GeneralizedLR

/-- The semantic actions: the value of a production over the values it takes, lowest first, and the
lookahead. -/
abbrev Reducer (K V : Type) := Nat → List (Content K V) → K → V

/-- The outcome of a reduction before it is pushed: a value for the node on `base`, its state, and
whether the parse ends with it. -/
structure Reduction (V : Type) where
  value : V
  base : NodeId
  state : Nat
  ends : Bool

/-- One alternative of a parse. -/
structure Head where
  top : NodeId
  errors : List ErrorRecord := []
  level : Nat := 0
  accepted : Bool := false
  /-- A number that no other head has. -/
  serial : Nat
  deriving DecidableEq

namespace Head

variable {K V : Type}

def fork (h : Head) (serial : Nat) : Head := { h with serial }

def raise (h : Head) : Head := { h with level := h.level + 1 }

def addError (h : Head) (record : ErrorRecord) : Head := { h with errors := h.errors ++ [record] }

def shift (h : Head) (a : Arena K V) (token : K) (target : Nat) : Head × Arena K V :=
  let (arena, top) := a.push target (some (.lexeme token)) (some h.top)
  ({ h with top }, arena)

/-- What a production makes of a stack: the value it yields over the values it takes, on the node
that it uncovers, in the state where it lands. Of several faults, the one found first counts. -/
def reduction (h : Head) (a : Arena K V) (table : Table) (reducer : Reducer K V) (production : Nat)
    (lookahead : K) : Except Fault (Reduction V) :=
  match table.production? production with
  | none => .error (.unknownProduction production)
  | some rule => do
    let (values, base) ← a.pop rule.arity h.top
    let uncovered ← a.state base
    let state ← table.landing rule uncovered
    return { value := reducer production values lookahead, base, state, ends := rule.isStart }

def replace (h : Head) (a : Arena K V) (r : Reduction V) : Head × Arena K V :=
  let (arena, top) := a.push r.state (some (.reduced r.value)) (some r.base)
  ({ h with top, accepted := h.accepted || r.ends }, arena)

/-- Replace the values that a production takes by the value it yields. Nothing is pushed on a
fault. -/
def reduce (h : Head) (a : Arena K V) (table : Table) (reducer : Reducer K V) (production : Nat)
    (lookahead : K) : Except Fault (Head × Arena K V) :=
  match h.reduction a table reducer production lookahead with
  | .error cause => .error cause
  | .ok r => .ok (h.replace a r)

/-- Whether a head comes before another one of the same path: fewer repairs first, then the older
one. -/
def isPreferred (a b : Head) : Bool :=
  a.level < b.level || (a.level == b.level && a.serial < b.serial)

end Head

end GeneralizedLR
