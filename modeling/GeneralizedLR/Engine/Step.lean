import GeneralizedLR.Engine.Basic

/-!
One pass over the live heads. Each head shifts the token to every target and does every reduction
that its table entries list; the heads that a reduction yields get their turn behind the others. A
head without any action is stranded.
-/

set_option autoImplicit false
set_option relaxedAutoImplicit false

namespace GeneralizedLR.Engine

variable {K V : Type}

def shiftTo (token : K) (head : Head) (state : Nat) (e : Engine K V) (target : Nat) : Engine K V :=
  let serial := e.serial + 1
  let (shifted, arena) := (head.fork serial).shift e.arena token target
  { e with
    arena, serial
    shifted := shifted :: e.shifted
    stats := { e.stats with shifts := e.stats.shifts + 1 }
    journal := .shifted state target token :: e.journal }

/-- Fork a head that reduces `production`; it is accepted or gets its turn. -/
def reduceBy (p : Parser K V) (token : K) (head : Head) (state : Nat) (e : Engine K V)
    (production : Nat) : Except (Halt K V) (Engine K V) :=
  let serial := e.serial + 1
  match head.reduction e.arena p.table p.reducer production token with
  | .error cause => .error (.fault cause { e with serial })
  | .ok r =>
    let (reduced, arena) := (head.fork serial).replace e.arena r
    let stats := { e.stats with reductions := e.stats.reductions + 1 }
    if reduced.accepted then
      .ok { e with
        arena, serial, stats
        accepted := e.accepted ++ [reduced]
        journal := .accepted serial production :: e.journal }
    else
      .ok { e with
        arena, serial, stats
        waiting := reduced :: e.waiting
        journal := .reduced state production r.state :: e.journal }

/-- Count the forks of a head that had `actions` actions; without any it is stranded. -/
def conclude (e : Engine K V) (head : Head) (actions : Nat) : Engine K V :=
  if actions = 0 then
    { e with
      stranded := head :: e.stranded
      stats := { e.stats with strandings := e.stats.strandings + 1 } }
  else
    { e with stats := { e.stats with forks := e.stats.forks + (actions - 1) } }

variable [Token K]

def stepHead (p : Parser K V) (token : K) (e : Engine K V) (head : Head) :
    Except (Halt K V) (Engine K V) :=
  match e.arena.state head.top with
  | .error cause => .error (.fault cause e)
  | .ok state => do
    let targets := p.table.shifts state (Token.classify (p.table.shiftChannel? state) token)
    let rules := p.table.reduces state (Token.classify (p.table.reduceChannel? state) token)
    let e := targets.foldl (shiftTo token head state) e
    let e ← rules.foldlM (reduceBy p token head state) e
    return e.conclude head (targets.length + rules.length)

/-- Step all live heads, then those that they were reduced to, until none is left. -/
def pass (p : Parser K V) (token : K) : Nat → Engine K V → Except (Halt K V) (Engine K V)
  | 0, e => if e.heads.isEmpty then .ok e else .error .exhausted
  | fuel + 1, e =>
    if e.heads.isEmpty then .ok e
    else do
      let e ← e.heads.foldlM (stepHead p token) { e with heads := [] }
      pass p token fuel { e with heads := e.waiting.reverse, waiting := [] }

end GeneralizedLR.Engine
