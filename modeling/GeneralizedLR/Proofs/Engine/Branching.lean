import GeneralizedLR.Engine.Input
import GeneralizedLR.Proofs.Head.Survivors
import GeneralizedLR.Proofs.Stack.Frames

/-!
The engine without an arena. A branch is one alternative of a parse with its stack written out, and
a branching is the engine with branches in the place of heads. Here the outcome of a step is said in
one piece: what a stack can do before a token is a list of moves, and each move makes one branch.
-/

set_option autoImplicit false
set_option relaxedAutoImplicit false

namespace GeneralizedLR

/-- One alternative of a parse with its stack from the top down. -/
structure Branch (K V : Type) where
  frames : List (Frame K V) := []
  errors : List ErrorRecord := []
  level : Nat := 0
  serial : Nat := 0

inductive Fate where
  | shifted
  | waiting
  | accepted
  deriving DecidableEq

abbrev Move (K V : Type) := Fate × List (Frame K V)

namespace Parser

variable {K V : Type}

/-- The stack after a reduction; the parse goes on with it unless the production is a start
production. -/
def reduct (p : Parser K V) (lookahead : K) (frames : List (Frame K V)) (production : Nat) :
    Except Fault (Move K V) :=
  match p.table.production? production with
  | none => .error (.unknownProduction production)
  | some rule =>
    if frames.length < rule.arity then .error (.stackUnderflow rule.arity)
    else
      let base := frames.drop rule.arity
      let values := (frames.take rule.arity).reverse.map (·.content)
      match p.table.landing rule (Frame.top base) with
      | .error cause => .error cause
      | .ok state =>
        .ok (if rule.isStart then .accepted else .waiting,
          ⟨state, .reduced (p.reducer production values lookahead)⟩ :: base)

/-- All moves of a stack: first it shifts `lexeme`, then it reduces. -/
def moves (p : Parser K V) (lookahead lexeme : K) (targets rules : List Nat)
    (frames : List (Frame K V)) : Except Fault (List (Move K V)) :=
  match rules.mapM (p.reduct lookahead frames) with
  | .error cause => .error cause
  | .ok reducts =>
    .ok (targets.map (fun target => (.shifted, ⟨target, .lexeme lexeme⟩ :: frames)) ++ reducts)

variable [Token K]

def targets (p : Parser K V) (token : K) (frames : List (Frame K V)) : List Nat :=
  p.table.shifts (Frame.top frames)
    (Token.classify (p.table.shiftChannel? (Frame.top frames)) token)

def rules (p : Parser K V) (token : K) (frames : List (Frame K V)) : List Nat :=
  p.table.reduces (Frame.top frames)
    (Token.classify (p.table.reduceChannel? (Frame.top frames)) token)

def movesOn (p : Parser K V) (token : K) (frames : List (Frame K V)) :
    Except Fault (List (Move K V)) :=
  p.moves token token (p.targets token frames) (p.rules token frames) frames

/-- The moves of a stack on a terminal that is inserted before a token. -/
def movesBefore (p : Parser K V) (token : K) (terminal : Nat) (frames : List (Frame K V)) :
    Except Fault (List (Move K V)) :=
  p.moves token (Token.correction token terminal (p.table.describe terminal))
    (p.table.shifts (Frame.top frames) terminal) (p.table.reduces (Frame.top frames) terminal) frames

end Parser

namespace Branch

variable {K V : Type}

/-- One branch for each move, with the serial numbers that follow `serial`. -/
def fork (b : Branch K V) : Nat → List (Move K V) → List (Fate × Branch K V)
  | _, [] => []
  | serial, (fate, frames) :: rest =>
    (fate, { b with frames, serial := serial + 1 }) :: b.fork (serial + 1) rest

def repaired (b : Branch K V) (record : ErrorRecord) : Branch K V :=
  { b with errors := b.errors ++ [record], level := b.level + 1 }

def path (b : Branch K V) : List Nat := Frame.path b.frames

/-- Fewer repairs come first, and then the older branch. -/
def rank (b : Branch K V) : Lex (Nat × Nat) := toLex (b.level, b.serial)

def merge (branches : List (Branch K V)) : List (Branch K V) × Nat :=
  let kept := survivors path rank branches
  (kept, branches.length - kept.length)

end Branch

def Fate.select {K V : Type} (fate : Fate) (forks : List (Fate × Branch K V)) :
    List (Branch K V) :=
  forks.filterMap fun fork => if fork.1 = fate then some fork.2 else none

/-- The engine with branches for heads; all lists are in the order in which they fill. -/
structure Branching (K V : Type) where
  live : List (Branch K V)
  waiting : List (Branch K V) := []
  shifted : List (Branch K V) := []
  stranded : List (Branch K V) := []
  accepted : List (Branch K V) := []
  serial : Nat := 0
  stats : Stats := {}

namespace Branching

variable {K V : Type}

def start : Branching K V := { live := [{}] }

def take (s : Branching K V) (b : Branch K V) (moves : List (Move K V)) : Branching K V :=
  let forks := b.fork s.serial moves
  let shifted := Fate.shifted.select forks
  let waiting := Fate.waiting.select forks
  let accepted := Fate.accepted.select forks
  { s with
    shifted := s.shifted ++ shifted
    waiting := s.waiting ++ waiting
    accepted := s.accepted ++ accepted
    serial := s.serial + moves.length
    stats := { s.stats with
      shifts := s.stats.shifts + shifted.length
      reductions := s.stats.reductions + (waiting.length + accepted.length) } }

/-- Count the moves of a branch; without any it is stranded. -/
def conclude (s : Branching K V) (b : Branch K V) (moves : Nat) : Branching K V :=
  if moves = 0 then
    { s with
      stranded := s.stranded ++ [b]
      stats := { s.stats with strandings := s.stats.strandings + 1 } }
  else { s with stats := { s.stats with forks := s.stats.forks + (moves - 1) } }

/-- Let a branch make its moves ahead of an insertion: what shifts carries the repair and waits,
what reduces goes behind `queue`, and an accepted branch is dropped. -/
def prepare (record : ErrorRecord) (b : Branch K V) (moves : List (Move K V)) :
    Branching K V × List (Branch K V) → Branching K V × List (Branch K V)
  | (s, queue) =>
    let forks := b.fork s.serial moves
    let shifted := Fate.shifted.select forks
    let waiting := Fate.waiting.select forks
    let accepted := Fate.accepted.select forks
    ({ s with
      waiting := s.waiting ++ shifted.map (·.repaired record)
      serial := s.serial + moves.length
      stats := { s.stats with
        insertions := s.stats.insertions + shifted.length
        closures := s.stats.closures + (waiting.length + accepted.length) } },
     queue ++ waiting)

def settle (merge : List (Branch K V) → List (Branch K V) × Nat) (s : Branching K V) :
    Branching K V :=
  let accepted := merge s.accepted
  let shifted := merge s.shifted
  { s with
    live := shifted.1
    shifted := []
    stranded := []
    accepted := accepted.1
    stats := { s.stats with merged := s.stats.merged + accepted.2 + shifted.2 } }

variable [Token K]

def step (p : Parser K V) (token : K) (s : Branching K V) (b : Branch K V) :
    Except (Option Fault) (Branching K V) :=
  match p.movesOn token b.frames with
  | .error cause => .error (some cause)
  | .ok moves => .ok ((s.take b moves).conclude b moves.length)

def pass (p : Parser K V) (token : K) : Nat → Branching K V →
    Except (Option Fault) (Branching K V)
  | 0, s => if s.live.isEmpty then .ok s else .error none
  | fuel + 1, s =>
    if s.live.isEmpty then .ok s
    else do
      let s ← s.live.foldlM (step p token) { s with live := [] }
      pass p token fuel { s with live := s.waiting, waiting := [] }

def unexpected (token : K) : ErrorRecord :=
  ⟨some .unexpected, Token.span token, some (Token.literal token)⟩

def missing (p : Parser K V) (token : K) (terminal : Nat) : ErrorRecord :=
  ⟨some .missing, Token.span token, some (p.table.describe terminal)⟩

def delete (token : K) (s : Branching K V) (b : Branch K V) : Branching K V :=
  { s with
    shifted := s.shifted ++ [{ b.repaired (unexpected token) with serial := s.serial + 1 }]
    serial := s.serial + 1
    stats := { s.stats with deletions := s.stats.deletions + 1 } }

def insertAt (p : Parser K V) (token : K) (terminal : Nat) :
    Branching K V × List (Branch K V) → Branch K V →
      Except (Option Fault) (Branching K V × List (Branch K V))
  | (s, queue), b =>
    match p.movesBefore token terminal b.frames with
    | .error cause => .error (some cause)
    | .ok moves => .ok (prepare (missing p token terminal) b moves (s, queue))

def insertAll (p : Parser K V) (token : K) (terminal : Nat) :
    Nat → Branching K V × List (Branch K V) → Except (Option Fault) (Branching K V)
  | 0, (s, queue) => if queue.isEmpty then .ok s else .error none
  | fuel + 1, (s, queue) =>
    if queue.isEmpty then .ok s
    else do
      let next ← queue.foldlM (insertAt p token terminal) (s, [])
      insertAll p token terminal fuel next

def repair (fuel : Nat) (p : Parser K V) (token : K) (s : Branching K V) (b : Branch K V) :
    Except (Option Fault) (Branching K V) :=
  p.table.insertable.foldlM (fun s terminal => insertAll p token terminal fuel (s, [b]))
    (if Token.isEnd token then s else s.delete token b)

/-- Repair all stranded branches; those with an insertion are merged and live again. -/
def recover (merge : List (Branch K V) → List (Branch K V) × Nat) (fuel : Nat) (p : Parser K V)
    (token : K) (s : Branching K V) : Except (Option Fault) (Branching K V) := do
  let s ← s.stranded.foldlM (repair fuel p token) { s with stranded := [] }
  let inserted := merge s.waiting
  return { s with
    live := inserted.1
    waiting := []
    stats := { s.stats with merged := s.stats.merged + inserted.2 } }

def advance (merge : List (Branch K V) → List (Branch K V) × Nat) (fuel : Nat) (p : Parser K V)
    (token : K) : Nat → Branching K V → Except (Option Fault) (Branching K V)
  | 0, _ => .error none
  | rounds + 1, s => do
    let next ← pass p token fuel s
    if !next.shifted.isEmpty || s.accepted.length < next.accepted.length then
      return next
    else if next.stranded.isEmpty then
      return next
    else
      let next ← recover merge fuel p token next
      advance merge fuel p token rounds next

def input (merge : List (Branch K V) → List (Branch K V) × Nat) (fuel : Nat) (p : Parser K V)
    (token : K) (s : Branching K V) : Except (Option Fault) (Branching K V) := do
  let begun := { s with stats := { s.stats with tokens := s.stats.tokens + 1 } }
  return (← advance merge fuel p token fuel begun).settle merge

end Branching

end GeneralizedLR
