import GeneralizedLR.Head
import GeneralizedLR.Trie

/-!
Merging heads. Heads whose stacks have the same states react alike to every later token, so one of
them is enough: the one with the fewest repairs, and among those the oldest. Stacks are compared only
where the states and the depths of their tops agree.
-/

set_option autoImplicit false
set_option relaxedAutoImplicit false

namespace GeneralizedLR

/-- The heads after a merge, and the pairs that were merged: the head that came and the one that stood
there, in the order of their meeting. -/
structure Merged where
  heads : List Head
  pairs : List (Head × Head) := []

/-- A merge under way: the heads that stand so far, the places of those that came in under the state and
the depth of their tops, and the pairs so far with the newest in front. -/
structure Merging where
  target : Array Head
  buckets : Trie Nat (List Nat) := .empty
  pairs : List (Head × Head) := []

namespace Merging

variable {K V : Type}

def bucket (m : Merging) (state depth : Nat) : List Nat :=
  (m.buckets.find? [state, depth]).getD []

/-- A place with the head on it, if the stack of that head has the states of the one at `top`. -/
def meets? (a : Arena K V) (m : Merging) (top : NodeId) (place : Nat) : Option (Nat × Head) :=
  m.target[place]?.bind fun kept =>
    if a.sameStates kept.top top then some (place, kept) else none

/-- Take in one more head. It meets the first of its bucket with the same states, and takes the place
of that one if it is preferred; if there is none, it gets a place of its own. A head whose top was
reclaimed has no stack to compare, so nothing meets it. -/
def add (a : Arena K V) (m : Merging) (head : Head) : Merging :=
  match a.node? head.top with
  | none => { m with target := m.target.push head }
  | some node =>
    let places := m.bucket node.state node.depth
    match places.findSome? (m.meets? a head.top) with
    | some (place, kept) =>
      let target := if head.isPreferred kept then m.target.setIfInBounds place head else m.target
      { m with target, pairs := (head, kept) :: m.pairs }
    | none =>
      { m with
        target := m.target.push head
        buckets := m.buckets.set (places ++ [m.target.size]) [node.state, node.depth] }

def finish (m : Merging) : Merged where
  heads := m.target.toList
  pairs := m.pairs.reverse

end Merging

namespace Merged

variable {K V : Type}

/-- Merge heads in order, behind heads that stand already. -/
def onto (a : Arena K V) (standing heads : List Head) : Merged :=
  (heads.foldl (Merging.add a) { target := standing.toArray }).finish

def ofHeads (a : Arena K V) (heads : List Head) : Merged :=
  onto a [] heads

/-- Merge heads in order, behind heads that stand already, and count those that were merged away. -/
def behind (a : Arena K V) (standing heads : List Head) : List Head × Nat :=
  let m := onto a standing heads
  (m.heads, m.pairs.length)

def unmerged (_ : Arena K V) (heads : List Head) : Merged :=
  { heads }

end Merged

end GeneralizedLR
