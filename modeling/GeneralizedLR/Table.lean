import GeneralizedLR.Fault

/-!
Transition tables of a nondeterministic shift/reduce automaton. A table is built up entry by entry;
shift and reduce entries of one state and terminal keep the order in which they were first added,
while of gotos and channels the entry set last counts.
-/

set_option autoImplicit false
set_option relaxedAutoImplicit false

namespace GeneralizedLR

/-- A production: the nonterminal that it yields, the number of values it takes, and whether it ends
a parse. -/
structure Production where
  nonterminal : Nat
  arity : Nat
  isStart : Bool
  deriving DecidableEq

/-- In `state`, the terminal or nonterminal `symbol` leads to `target`: a state, or a production to
reduce. -/
structure Transition where
  state : Nat
  symbol : Nat
  target : Nat
  deriving DecidableEq

namespace Transition

def isAt (entry : Transition) (state symbol : Nat) : Bool :=
  entry.state == state && entry.symbol == symbol

def targets (entries : List Transition) (state symbol : Nat) : List Nat :=
  (entries.filter (·.isAt state symbol)).map (·.target)

theorem mem_targets_iff {entries : List Transition} {state symbol target : Nat} :
    target ∈ targets entries state symbol ↔ ⟨state, symbol, target⟩ ∈ entries := by
  simp only [targets, isAt, List.mem_map, List.mem_filter, Bool.and_eq_true, beq_iff_eq]
  constructor
  · rintro ⟨entry, ⟨listed, rfl, rfl⟩, rfl⟩
    exact listed
  · exact fun listed => ⟨_, ⟨listed, rfl, rfl⟩, rfl⟩

def addNew (entries : List Transition) (entry : Transition) : List Transition :=
  if entry ∈ entries then entries else entries ++ [entry]

end Transition

/-- A table. The lists of gotos and channels have the newest entry in front. -/
structure Table where
  descriptions : List String
  endOfStream : Nat
  productions : List Production := []
  shiftEntries : List Transition := []
  reduceEntries : List Transition := []
  gotoEntries : List Transition := []
  shiftChannels : List (Nat × Nat) := []
  reduceChannels : List (Nat × Nat) := []

namespace Table

/-- Add a production; its number is the count of those before it. -/
def addProduction (t : Table) (nonterminal arity : Nat) : Table × Nat :=
  ({ t with productions := t.productions ++ [⟨nonterminal, arity, false⟩] }, t.productions.length)

def addStartProduction (t : Table) (nonterminal arity : Nat) : Table × Nat :=
  ({ t with productions := t.productions ++ [⟨nonterminal, arity, true⟩] }, t.productions.length)

def addShift (t : Table) (state terminal target : Nat) : Table :=
  { t with shiftEntries := Transition.addNew t.shiftEntries ⟨state, terminal, target⟩ }

def addReduce (t : Table) (state terminal production : Nat) : Table :=
  { t with reduceEntries := Transition.addNew t.reduceEntries ⟨state, terminal, production⟩ }

def setGoto (t : Table) (state nonterminal target : Nat) : Table :=
  { t with gotoEntries := ⟨state, nonterminal, target⟩ :: t.gotoEntries }

def setShiftChannel (t : Table) (state channel : Nat) : Table :=
  { t with shiftChannels := (state, channel) :: t.shiftChannels }

def setReduceChannel (t : Table) (state channel : Nat) : Table :=
  { t with reduceChannels := (state, channel) :: t.reduceChannels }

def shifts (t : Table) (state terminal : Nat) : List Nat :=
  Transition.targets t.shiftEntries state terminal

def reduces (t : Table) (state terminal : Nat) : List Nat :=
  Transition.targets t.reduceEntries state terminal

def goto? (t : Table) (state nonterminal : Nat) : Option Nat :=
  (t.gotoEntries.find? (·.isAt state nonterminal)).map (·.target)

def shiftChannel? (t : Table) (state : Nat) : Option Nat :=
  t.shiftChannels.lookup state

def reduceChannel? (t : Table) (state : Nat) : Option Nat :=
  t.reduceChannels.lookup state

def production? (t : Table) (number : Nat) : Option Production :=
  t.productions[number]?

def terminalCount (t : Table) : Nat := t.descriptions.length

def describe (t : Table) (terminal : Nat) : String :=
  t.descriptions[terminal]?.getD "<unknown>"

/-- The terminals that a repair may insert: all but the end of the stream. -/
def insertable (t : Table) : List Nat :=
  (List.range t.terminalCount).filter (· ≠ t.endOfStream)

/-- Where a reduction lands that uncovers `state`: a start production stays in it. -/
def landing (t : Table) (rule : Production) (state : Nat) : Except Fault Nat :=
  if rule.isStart then .ok state
  else
    match t.goto? state rule.nonterminal with
    | some target => .ok target
    | none => .error (.missingGoto state rule.nonterminal)

end Table

end GeneralizedLR
