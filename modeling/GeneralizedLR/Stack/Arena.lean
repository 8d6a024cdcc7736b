import GeneralizedLR.Fault

/-!
The arena of stack nodes. Every node points to the node below it, so that stacks with a common part
share it. A node's number is its slot; a slot that a sweep frees is filled again by a later push,
the one freed last first.
-/

set_option autoImplicit false
set_option relaxedAutoImplicit false

namespace GeneralizedLR

abbrev NodeId := Nat

/-- What a node carries: a token that was shifted or a value that was reduced. -/
inductive Content (K V : Type) where
  | lexeme (token : K)
  | reduced (value : V)
  deriving DecidableEq

namespace Content

variable {K V : Type}

def lexeme? : Content K V → Option K
  | .lexeme token => some token
  | .reduced _ => none

def reduced? : Content K V → Option V
  | .lexeme _ => none
  | .reduced value => some value

end Content

/-- A stack node: its state, what it carries, the node below and the number of nodes below. -/
structure Node (K V : Type) where
  state : Nat
  value : Option (Content K V)
  below : Option NodeId
  depth : Nat
  deriving DecidableEq

/-- All slots, and the free ones with the one freed last in front. -/
structure Arena (K V : Type) where
  slots : Array (Option (Node K V)) := #[]
  free : List NodeId := []

namespace Arena

variable {K V : Type}

def node? (a : Arena K V) (id : NodeId) : Option (Node K V) :=
  a.slots[id]?.join

def state (a : Arena K V) (id : NodeId) : Except Fault Nat :=
  match a.node? id with
  | some node => .ok node.state
  | none => .error (.staleNode id)

def size (a : Arena K V) : Nat := a.slots.size - a.free.length

def isEmpty (a : Arena K V) : Bool := a.size == 0

/-- The depth of a node above `below`; above an empty slot it is zero. -/
def depthAbove (a : Arena K V) (below : Option NodeId) : Nat :=
  match below.bind a.node? with
  | some node => node.depth + 1
  | none => 0

/-- Put a new node into the slot freed last, or into a new slot. -/
def push (a : Arena K V) (state : Nat) (value : Option (Content K V)) (below : Option NodeId) :
    Arena K V × NodeId :=
  let node : Node K V := ⟨state, value, below, a.depthAbove below⟩
  let fresh := a.slots.size
  match a.free with
  | slot :: free => (⟨a.slots.setIfInBounds slot (some node), free⟩, slot)
  | [] => (⟨a.slots.push (some node), []⟩, fresh)

/-- Take `count` values off the stack at `id` and put them in front of `taken`, so that the lowest
comes first; with them comes the node that is uncovered. -/
def popOnto (a : Arena K V) :
    Nat → NodeId → List (Content K V) → Option (List (Content K V) × NodeId)
  | 0, id, taken => some (taken, id)
  | count + 1, id, taken =>
    match a.node? id with
    | some ⟨_, some value, some below, _⟩ => a.popOnto count below (value :: taken)
    | _ => none

def pop (a : Arena K V) (count : Nat) (top : NodeId) :
    Except Fault (List (Content K V) × NodeId) :=
  match a.popOnto count top [] with
  | some popped => .ok popped
  | none => .error (.stackUnderflow count)

def chainUpTo (a : Arena K V) : Nat → Option NodeId → List (NodeId × Node K V)
  | 0, _ => []
  | _ + 1, none => []
  | limit + 1, some id =>
    match a.node? id with
    | some node => (id, node) :: a.chainUpTo limit node.below
    | none => []

def chain (a : Arena K V) (top : NodeId) : List (NodeId × Node K V) :=
  a.chainUpTo a.slots.size (some top)

def path (a : Arena K V) (top : NodeId) : List Nat :=
  ((a.chain top).map fun entry => entry.2.state).reverse

/-- The states of a path, each in angle brackets and followed by a space. -/
def showPath (a : Arena K V) (top : NodeId) : String :=
  String.join ((a.path top).map fun state => s!"<{state}> ")

def entry? (a : Arena K V) (next : Option NodeId) : Option (NodeId × Node K V) :=
  next.bind fun id => (a.node? id).map fun node => (id, node)

/-- Go down two stacks side by side, over at most `limit` nodes of each. From a common node on they are
the same; above it they differ where a state or a depth does, or where only one of them goes on. -/
def sameWithin (a : Arena K V) : Nat → Option NodeId → Option NodeId → Option Bool
  | 0, _, _ => none
  | limit + 1, left, right =>
    match a.entry? left, a.entry? right with
    | some (id, node), some (other, node') =>
      if id = other then some true
      else if node.state ≠ node'.state ∨ node.depth ≠ node'.depth then some false
      else a.sameWithin limit node.below node'.below
    | none, none => some true
    | _, _ => some false

/-- Whether two stacks have the same states at the same depths. Stacks that lead in a circle and show no
difference count as the same. -/
def sameStates (a : Arena K V) (left right : NodeId) : Bool :=
  (a.sameWithin (a.slots.size + 1) (some left) (some right)).getD true

/-- Mark the slots on the chain that starts at `id`, up to one that is marked already. -/
def markChain (a : Arena K V) : Nat → Option NodeId → Array Bool → Array Bool
  | 0, _, marked => marked
  | _ + 1, none, marked => marked
  | fuel + 1, some id, marked =>
    if marked[id]? = some false then
      a.markChain fuel ((a.node? id).bind (·.below)) (marked.setIfInBounds id true)
    else marked

def reachable (a : Arena K V) (roots : List NodeId) : Array Bool :=
  roots.foldl (fun marked root => a.markChain a.slots.size (some root) marked)
    (Array.replicate a.slots.size false)

/-- Free every filled slot that is on no root's chain, in ascending order; the count of freed slots
comes with the arena. -/
def sweep (a : Arena K V) (roots : List NodeId) : Arena K V × Nat :=
  let marked := a.reachable roots
  let kept (id : NodeId) : Bool := marked[id]?.getD false
  let freed := (List.range a.slots.size).filter fun id => !kept id && (a.node? id).isSome
  let slots := a.slots.mapIdx fun id slot => if kept id then slot else none
  (⟨slots, freed.reverse ++ a.free⟩, freed.length)

end Arena

end GeneralizedLR
