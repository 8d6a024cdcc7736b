import GeneralizedLR.Engine.Repair

/-!
Taking in a token. The live heads are stepped, and repaired if none of them can go on, until one
shifts the token or accepts. Then equivalent heads are merged and the nodes that no head needs are
reclaimed. After a fault the parse is given up, but what was accepted before stays.

A table can make reductions or repairs go on for ever. The fuel bounds the rounds of each loop.
-/

set_option autoImplicit false
set_option relaxedAutoImplicit false

namespace GeneralizedLR.Engine

variable {K V : Type}

def roots (e : Engine K V) : List NodeId :=
  (e.heads ++ e.accepted).map (·.top)

/-- After a token: merge the accepted and the shifted heads, let the latter live, and reclaim. -/
def settle (merge : Arena K V → List Head → Merged) (e : Engine K V) : Engine K V :=
  let accepted := merge e.arena e.accepted
  let shifted := merge e.arena e.shifted.reverse
  let e := (e.recordMerges accepted.pairs).recordMerges shifted.pairs
  let e := { e with
    heads := shifted.heads
    shifted := []
    stranded := []
    accepted := accepted.heads }
  let (arena, reclaimed) := e.arena.sweep e.roots
  let e := { e with arena, stats := { e.stats with reclaimed := e.stats.reclaimed + reclaimed } }
  e.record (.settled e.heads.length e.accepted.length e.arena.size reclaimed)

/-- After a fault: keep the first `accepted` accepted heads and nothing else. -/
def abandon (accepted : Nat) (token : K) (cause : Fault) (e : Engine K V) : Engine K V :=
  let e := e.record (.abandoned token cause)
  let e := { e with
    heads := []
    waiting := []
    shifted := []
    stranded := []
    accepted := e.accepted.take accepted }
  let (arena, reclaimed) := e.arena.sweep e.roots
  { e with arena, stats := { e.stats with reclaimed := e.stats.reclaimed + reclaimed } }

variable [Token K]

/-- Pass over the heads and repair in turn, until a head shifts or accepts or none is left to
repair. -/
def advance (merge : Arena K V → List Head → Merged) (fuel : Nat) (p : Parser K V) (token : K) :
    Nat → Engine K V → Except (Halt K V) (Engine K V)
  | 0, _ => .error .exhausted
  | rounds + 1, e => do
    let accepted := e.accepted.length
    let next ← pass p token fuel e
    if !next.shifted.isEmpty || accepted < next.accepted.length then
      return next
    else if next.stranded.isEmpty then
      return next.record (.deadEnd token)
    else
      let next ← recover merge fuel p token next
      advance merge fuel p token rounds next

def inputWith (merge : Arena K V → List Head → Merged) (fuel : Nat) (p : Parser K V) (token : K)
    (e : Engine K V) : Except (Halt K V) (Engine K V) :=
  let accepted := e.accepted.length
  let begun := { e with journal := [], stats := { e.stats with tokens := e.stats.tokens + 1 } }
  match advance merge fuel p token fuel begun with
  | .ok stepped => .ok (settle merge stepped)
  | .error (.fault cause stopped) =>
    .error (.fault cause (abandon accepted token cause stopped))
  | .error .exhausted => .error .exhausted

def input (fuel : Nat) (p : Parser K V) (token : K) (e : Engine K V) :
    Except (Halt K V) (Engine K V) :=
  inputWith Merged.ofHeads fuel p token e

/-- Take in tokens up to the first fault, with a given way to merge heads. -/
def parseWith (merge : Arena K V → List Head → Merged) (fuel : Nat) (p : Parser K V) :
    List K → Engine K V → Except (Halt K V) (Engine K V)
  | [], e => .ok e
  | token :: rest, e => do
    let e ← inputWith merge fuel p token e
    parseWith merge fuel p rest e

def parse (fuel : Nat) (p : Parser K V) (tokens : List K) (e : Engine K V) :
    Except (Halt K V) (Engine K V) :=
  parseWith Merged.ofHeads fuel p tokens e

end GeneralizedLR.Engine
