import GeneralizedLR.Engine.Journal
import GeneralizedLR.Head.Merge
import GeneralizedLR.Token

/-!
The state of the engine: one arena, the heads that live on it, the accepted ones, and the counts of
what was done so far. Between two tokens no head is waiting, shifted or stranded; these sets fill
while a token is taken in.
-/

set_option autoImplicit false
set_option relaxedAutoImplicit false

namespace GeneralizedLR

/-- What stays the same during a run: the table, the semantic actions and the codes of the
diagnostics. -/
structure Parser (K V : Type) where
  table : Table
  reducer : Reducer K V
  codes : ErrorCodes := {}

/-- What was done so far. The first eight counts are reported. `strandings` counts the heads for
which the table had no action, `closures` the reductions made to prepare an insertion. -/
structure Stats where
  tokens : Nat := 0
  shifts : Nat := 0
  reductions : Nat := 0
  forks : Nat := 0
  deletions : Nat := 0
  insertions : Nat := 0
  merged : Nat := 0
  reclaimed : Nat := 0
  strandings : Nat := 0
  closures : Nat := 0
  deriving DecidableEq

def Stats.inspect (s : Stats) : String :=
  s!"EngineStats \x7b tokens: {s.tokens}, shifts: {s.shifts}, reductions: {s.reductions}, " ++
    s!"forks: {s.forks}, deletions: {s.deletions}, insertions: {s.insertions}, " ++
    s!"merged: {s.merged}, reclaimed: {s.reclaimed} \x7d"

/-- The engine between or within tokens. The sets that fill within a token have their newest head in
front. -/
structure Engine (K V : Type) where
  arena : Arena K V
  heads : List Head
  /-- The heads that will have their turn after those at hand. -/
  waiting : List Head := []
  shifted : List Head := []
  /-- The heads for which the table has no action on the current token. -/
  stranded : List Head := []
  accepted : List Head := []
  serial : Nat := 0
  stats : Stats := {}
  /-- The events since the last token came in, newest in front. -/
  journal : List (Event K) := []

/-- Why taking in a token stopped halfway: a fault, with the engine as it then was, or no fuel was
left. -/
inductive Halt (K V : Type) where
  | fault (cause : Fault) (engine : Engine K V)
  | exhausted

namespace Engine

variable {K V : Type}

/-- One head in state 0 on a stack of one node. -/
def start : Engine K V :=
  let (arena, root) := ({} : Arena K V).push 0 none none
  { arena, heads := [{ top := root, serial := 0 }] }

def isFinished (e : Engine K V) : Bool := e.heads.isEmpty

def record (e : Engine K V) (event : Event K) : Engine K V :=
  { e with journal := event :: e.journal }

def recordMerges (e : Engine K V) (pairs : List (Head × Head)) : Engine K V :=
  let e := pairs.foldl
    (fun e (head, kept) => e.record (.merged head.serial head.level kept.serial kept.level)) e
  { e with stats := { e.stats with merged := e.stats.merged + pairs.length } }

def standing (e : Engine K V) (token : K) : List (Event K) :=
  if e.heads.isEmpty then [.waiting]
  else e.heads.map fun head =>
    .standing head.serial (e.arena.showPath head.top) token head.level head.errors.length

def events (e : Engine K V) : List (Event K) := e.journal.reverse

def result (e : Engine K V) (index : Nat) : Except Fault V :=
  match e.accepted[index]? with
  | none => .error (.resultOutOfRange index e.accepted.length)
  | some head =>
    match (e.arena.node? head.top).bind (·.value) with
    | some (.reduced value) => .ok value
    | _ => .error (.missingResult index)

/-- The errors of the accepted head at `index`, in order, if it has a result. -/
def diagnostics (e : Engine K V) (codes : ErrorCodes) (index : Nat) : List Diagnostic :=
  match e.result index, e.accepted[index]? with
  | .ok _, some head => head.errors.map (·.diagnostic codes)
  | _, _ => []

end Engine

end GeneralizedLR
