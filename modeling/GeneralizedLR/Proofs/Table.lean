import GeneralizedLR.Table
import Mathlib.Data.List.Induction

/-!
What a table answers. It is built up by calls: a production gets the next number, and every other call
brings a value under a key into one of five maps. The table answers with the values that were brought
under the key that it is asked for: shifts and reductions with all of them, each once and in the order
in which they first came, and gotos and channels with the last one. So calls under different keys, or
into different maps, may come in either order.
-/

set_option autoImplicit false
set_option relaxedAutoImplicit false

namespace GeneralizedLR

section Lists

private def appendNew (values : List Nat) : Option Nat → List Nat
  | none => values
  | some value => if value ∈ values then values else values ++ [value]

private theorem eraseDups_append_toList (values : List Nat) (value : Option Nat) :
    (values ++ value.toList).eraseDups = appendNew values.eraseDups value := by
  cases value with
  | none => rw [Option.toList_none, List.append_nil, appendNew]
  | some value =>
    rw [Option.toList_some, List.eraseDups_append, appendNew]
    by_cases listed : value ∈ values
    · simp [List.removeAll, listed]
    · simp [List.removeAll, listed, List.eraseDups_cons]

private theorem getLast?_append_toList (values : List Nat) (value : Option Nat) :
    (values ++ value.toList).getLast? = value.or values.getLast? := by
  cases value <;> simp

private theorem lookup_cons_eq_or (pairs : List (Nat × Nat)) (key other value : Nat) :
    ((other, value) :: pairs).lookup key =
      (if other = key then some value else none).or (pairs.lookup key) := by
  by_cases here : other = key
  · simp [here]
  · simp [List.lookup_cons, beq_eq_false_iff_ne.mpr (Ne.symm here), here]

end Lists

private theorem Transition.targets_addNew (entries : List Transition) (entry : Transition)
    (state symbol : Nat) : targets (addNew entries entry) state symbol =
      appendNew (targets entries state symbol)
        (if entry.isAt state symbol then some entry.target else none) := by
  have same (here : entry.isAt state symbol = true) : entry = ⟨state, symbol, entry.target⟩ := by
    simp only [isAt, Bool.and_eq_true, beq_iff_eq] at here
    obtain ⟨rfl, rfl⟩ := here
    rfl
  by_cases here : entry.isAt state symbol = true
  · have known : entry.target ∈ targets entries state symbol ↔ entry ∈ entries := by
      rw [mem_targets_iff, ← same here]
    rw [if_pos here, appendNew, addNew]
    by_cases listed : entry ∈ entries
    · rw [if_pos listed, if_pos (known.mpr listed)]
    · rw [if_neg listed, if_neg (listed ∘ known.mp)]
      simp [targets, here]
  · rw [if_neg here, appendNew, addNew]
    split
    · rfl
    · simp [targets, here]

namespace Table

inductive Call where
  | production (nonterminal arity : Nat)
  | startProduction (nonterminal arity : Nat)
  | shift (state terminal target : Nat)
  | reduce (state terminal production : Nat)
  | goto (state nonterminal target : Nat)
  | shiftChannel (state channel : Nat)
  | reduceChannel (state channel : Nat)

inductive Store where
  | shifts
  | reduces
  | gotos
  | shiftChannels
  | reduceChannels
  deriving DecidableEq

structure Entry where
  store : Store
  key : List Nat
  value : Nat

namespace Call

/-- Make the call; a production is answered with its number. -/
def make (t : Table) : Call → Table × Option Nat
  | .production nonterminal arity =>
    let (t, number) := t.addProduction nonterminal arity
    (t, some number)
  | .startProduction nonterminal arity =>
    let (t, number) := t.addStartProduction nonterminal arity
    (t, some number)
  | .shift state terminal target => (t.addShift state terminal target, none)
  | .reduce state terminal number => (t.addReduce state terminal number, none)
  | .goto state nonterminal target => (t.setGoto state nonterminal target, none)
  | .shiftChannel state channel => (t.setShiftChannel state channel, none)
  | .reduceChannel state channel => (t.setReduceChannel state channel, none)

def production? : Call → Option Production
  | .production nonterminal arity => some ⟨nonterminal, arity, false⟩
  | .startProduction nonterminal arity => some ⟨nonterminal, arity, true⟩
  | _ => none

def entry? : Call → Option Entry
  | .production .. => none
  | .startProduction .. => none
  | .shift state terminal target => some ⟨.shifts, [state, terminal], target⟩
  | .reduce state terminal number => some ⟨.reduces, [state, terminal], number⟩
  | .goto state nonterminal target => some ⟨.gotos, [state, nonterminal], target⟩
  | .shiftChannel state channel => some ⟨.shiftChannels, [state], channel⟩
  | .reduceChannel state channel => some ⟨.reduceChannels, [state], channel⟩

def value? (store : Store) (key : List Nat) (call : Call) : Option Nat :=
  match call.entry? with
  | some entry => if entry.store = store ∧ entry.key = key then some entry.value else none
  | none => none

/-- Two calls go to different maps, or under different keys of one map, or only one of them is about a
production. -/
def Independent (a b : Call) : Prop :=
  match a.entry?, b.entry? with
  | some x, some y => x.store ≠ y.store ∨ x.key ≠ y.key
  | none, none => False
  | _, _ => True

end Call

def productionsOf (calls : List Call) : List Production := calls.filterMap Call.production?

/-- The values that some calls bring under a key of a map, in their order. -/
def valuesAt (store : Store) (key : List Nat) (calls : List Call) : List Nat :=
  calls.filterMap (Call.value? store key)

/-- Make some calls to an empty table. The numbers are the answers for the productions. -/
def build (descriptions : List String) (endOfStream : Nat) (calls : List Call) : Table × List Nat :=
  calls.foldl
    (fun (t, numbers) call =>
      let (next, number) := call.make t
      (next, numbers ++ number.toList))
    ({ descriptions, endOfStream }, [])

section Make

variable (t : Table) (call : Call)

private theorem shifts_make (state terminal : Nat) : (call.make t).1.shifts state terminal =
    appendNew (t.shifts state terminal) (call.value? .shifts [state, terminal]) := by
  cases call with
  | shift state' terminal' target =>
    simp [Call.make, addShift, shifts, Transition.targets_addNew, Transition.isAt, Call.value?,
      Call.entry?]
  | _ => rfl

private theorem reduces_make (state terminal : Nat) : (call.make t).1.reduces state terminal =
    appendNew (t.reduces state terminal) (call.value? .reduces [state, terminal]) := by
  cases call with
  | reduce state' terminal' number =>
    simp [Call.make, addReduce, reduces, Transition.targets_addNew, Transition.isAt, Call.value?,
      Call.entry?]
  | _ => rfl

private theorem goto?_make (state nonterminal : Nat) : (call.make t).1.goto? state nonterminal =
    (call.value? .gotos [state, nonterminal]).or (t.goto? state nonterminal) := by
  cases call with
  | goto state' nonterminal' target =>
    by_cases here : state' = state ∧ nonterminal' = nonterminal
    · simp [Call.make, setGoto, goto?, Transition.isAt, Call.value?, Call.entry?, here]
    · simp [Call.make, setGoto, goto?, Transition.isAt, Call.value?, Call.entry?, here]
  | _ => rfl

private theorem shiftChannel?_make (state : Nat) : (call.make t).1.shiftChannel? state =
    (call.value? .shiftChannels [state]).or (t.shiftChannel? state) := by
  cases call with
  | shiftChannel state' channel =>
    simp [Call.make, setShiftChannel, shiftChannel?, lookup_cons_eq_or, Call.value?, Call.entry?]
  | _ => rfl

private theorem reduceChannel?_make (state : Nat) : (call.make t).1.reduceChannel? state =
    (call.value? .reduceChannels [state]).or (t.reduceChannel? state) := by
  cases call with
  | reduceChannel state' channel =>
    simp [Call.make, setReduceChannel, reduceChannel?, lookup_cons_eq_or, Call.value?, Call.entry?]
  | _ => rfl

private theorem productions_make :
    (call.make t).1.productions = t.productions ++ call.production?.toList := by
  cases call <;> simp [Call.make, Call.production?, addProduction, addStartProduction, addShift, addReduce,
    setGoto, setShiftChannel, setReduceChannel]

private theorem number_make : (call.make t).2 = call.production?.map fun _ => t.productions.length := by
  cases call <;> rfl

private theorem rest_make : (call.make t).1.descriptions = t.descriptions ∧
    (call.make t).1.endOfStream = t.endOfStream := by
  cases call <;> exact ⟨rfl, rfl⟩

end Make

/-- A table and the numbers of its productions, as they are when these calls have been made. -/
structure BuiltFrom (descriptions : List String) (endOfStream : Nat) (calls : List Call)
    (built : Table × List Nat) : Prop where
  shifts (state terminal : Nat) : built.1.shifts state terminal =
    (valuesAt .shifts [state, terminal] calls).eraseDups
  reduces (state terminal : Nat) : built.1.reduces state terminal =
    (valuesAt .reduces [state, terminal] calls).eraseDups
  goto (state nonterminal : Nat) : built.1.goto? state nonterminal =
    (valuesAt .gotos [state, nonterminal] calls).getLast?
  shiftChannel (state : Nat) : built.1.shiftChannel? state =
    (valuesAt .shiftChannels [state] calls).getLast?
  reduceChannel (state : Nat) : built.1.reduceChannel? state =
    (valuesAt .reduceChannels [state] calls).getLast?
  production (number : Nat) : built.1.production? number = (productionsOf calls)[number]?
  numbers : built.2 = List.range (productionsOf calls).length
  descriptions_eq : built.1.descriptions = descriptions
  endOfStream_eq : built.1.endOfStream = endOfStream

/-- Two tables that give the same answer to every query, and gave the same numbers to productions. -/
structure Alike (built built' : Table × List Nat) : Prop where
  shifts (state terminal : Nat) : built.1.shifts state terminal = built'.1.shifts state terminal
  reduces (state terminal : Nat) : built.1.reduces state terminal = built'.1.reduces state terminal
  goto (state nonterminal : Nat) : built.1.goto? state nonterminal = built'.1.goto? state nonterminal
  shiftChannel (state : Nat) : built.1.shiftChannel? state = built'.1.shiftChannel? state
  reduceChannel (state : Nat) : built.1.reduceChannel? state = built'.1.reduceChannel? state
  production (number : Nat) : built.1.production? number = built'.1.production? number
  numbers : built.2 = built'.2
  terminalCount : built.1.terminalCount = built'.1.terminalCount
  endOfStream : built.1.endOfStream = built'.1.endOfStream
  describe (terminal : Nat) : built.1.describe terminal = built'.1.describe terminal

section Build

variable {descriptions : List String} {endOfStream : Nat} {calls calls' before behind : List Call}
  {a b call : Call} {store : Store} {key : List Nat} {built built' : Table × List Nat}

private theorem valuesAt_concat :
    valuesAt store key (calls ++ [call]) = valuesAt store key calls ++ (call.value? store key).toList := by
  rw [valuesAt, List.filterMap_append]
  cases found : call.value? store key <;> simp [valuesAt, found]

private theorem productionsOf_concat :
    productionsOf (calls ++ [call]) = productionsOf calls ++ call.production?.toList := by
  rw [productionsOf, List.filterMap_append]
  cases found : call.production? <;> simp [productionsOf, found]

private theorem BuiltFrom.productions_eq (made : BuiltFrom descriptions endOfStream calls built) :
    built.1.productions = productionsOf calls := List.ext_getElem? made.production

private theorem BuiltFrom.make (made : BuiltFrom descriptions endOfStream calls built) (call : Call) :
    BuiltFrom descriptions endOfStream (calls ++ [call])
      ((call.make built.1).1, built.2 ++ (call.make built.1).2.toList) where
  shifts state terminal := by
    rw [shifts_make, made.shifts, valuesAt_concat, eraseDups_append_toList]
  reduces state terminal := by
    rw [reduces_make, made.reduces, valuesAt_concat, eraseDups_append_toList]
  goto state nonterminal := by
    rw [goto?_make, made.goto, valuesAt_concat, getLast?_append_toList]
  shiftChannel state := by
    rw [shiftChannel?_make, made.shiftChannel, valuesAt_concat, getLast?_append_toList]
  reduceChannel state := by
    rw [reduceChannel?_make, made.reduceChannel, valuesAt_concat, getLast?_append_toList]
  production number := by
    rw [production?, productions_make, made.productions_eq, productionsOf_concat]
  numbers := by
    rw [number_make, made.numbers, made.productions_eq, productionsOf_concat]
    cases call.production? <;> simp [List.range_succ]
  descriptions_eq := (rest_make built.1 call).1.trans made.descriptions_eq
  endOfStream_eq := (rest_make built.1 call).2.trans made.endOfStream_eq

theorem builtFrom_build (descriptions : List String) (endOfStream : Nat) (calls : List Call) :
    BuiltFrom descriptions endOfStream calls (build descriptions endOfStream calls) := by
  induction calls using List.reverseRecOn with
  | nil => constructor <;> intros <;> rfl
  | append_singleton calls call ih =>
    have step : build descriptions endOfStream (calls ++ [call]) =
        ((call.make (build descriptions endOfStream calls).1).1,
          (build descriptions endOfStream calls).2 ++
            (call.make (build descriptions endOfStream calls).1).2.toList) := by
      rw [build, List.foldl_append]
      rfl
    exact step ▸ ih.make call

private theorem BuiltFrom.alike (made : BuiltFrom descriptions endOfStream calls built)
    (other : BuiltFrom descriptions endOfStream calls' built')
    (values : ∀ store key, valuesAt store key calls = valuesAt store key calls')
    (productions : productionsOf calls = productionsOf calls') : Alike built built' where
  shifts state terminal := by rw [made.shifts, other.shifts, values]
  reduces state terminal := by rw [made.reduces, other.reduces, values]
  goto state nonterminal := by rw [made.goto, other.goto, values]
  shiftChannel state := by rw [made.shiftChannel, other.shiftChannel, values]
  reduceChannel state := by rw [made.reduceChannel, other.reduceChannel, values]
  production number := by rw [made.production, other.production, productions]
  numbers := by rw [made.numbers, other.numbers, productions]
  terminalCount := by rw [terminalCount, terminalCount, made.descriptions_eq, other.descriptions_eq]
  endOfStream := by rw [made.endOfStream_eq, other.endOfStream_eq]
  describe terminal := by rw [describe, describe, made.descriptions_eq, other.descriptions_eq]

private theorem filterMap_exchange {A B : Type} (f : A → Option B) (before behind : List A) {a b : A}
    (only : f a = none ∨ f b = none) :
    (before ++ a :: b :: behind).filterMap f = (before ++ b :: a :: behind).filterMap f := by
  rcases only with none | none
  · simp [none, List.filterMap_cons]
  · simp [none, List.filterMap_cons]

private theorem Call.Independent.value? (independent : a.Independent b) (store : Store) (key : List Nat) :
    a.value? store key = none ∨ b.value? store key = none := by
  unfold Call.Independent at independent
  unfold Call.value?
  cases first : a.entry? with
  | none => exact .inl rfl
  | some x =>
    cases second : b.entry? with
    | none => exact .inr rfl
    | some y =>
      rw [first, second] at independent
      by_cases here : x.store = store ∧ x.key = key
      · obtain ⟨rfl, rfl⟩ := here
        refine .inr (if_neg ?_)
        rintro ⟨store, key⟩
        exact independent.elim (· store.symm) (· key.symm)
      · exact .inl (if_neg here)

private theorem Call.Independent.production? (independent : a.Independent b) :
    a.production? = none ∨ b.production? = none := by
  cases a <;> cases b <;> first | exact .inl rfl | exact .inr rfl | exact independent.elim

/-- After any calls to an empty table, a state and terminal shift and reduce to what was added for them,
each once and in the order in which it was first added; a goto and a channel are the last that was set
under their key, and productions have the numbers from zero on in their order. Two calls next to each
other may be exchanged if they go to different maps or keys, or if one of them is not about a production. -/
theorem build_exact (descriptions : List String) (endOfStream : Nat) (calls : List Call) :
    BuiltFrom descriptions endOfStream calls (build descriptions endOfStream calls) ∧
      ∀ before a b behind, calls = before ++ a :: b :: behind → a.Independent b →
        Alike (build descriptions endOfStream calls)
          (build descriptions endOfStream (before ++ b :: a :: behind)) := by
  refine ⟨builtFrom_build descriptions endOfStream calls, ?_⟩
  rintro before a b behind rfl independent
  exact (builtFrom_build ..).alike (builtFrom_build ..)
    (fun store key => filterMap_exchange _ before behind (independent.value? store key))
    (filterMap_exchange _ before behind independent.production?)

theorem build_exact_exchanged :
    Call.Independent (.shift 0 0 3) (.goto 0 0 2) ∧
      (build ["a", "end"] 1 [.goto 0 0 1, .shift 0 0 4, .shift 0 0 3, .goto 0 0 2, .shift 0 0 4]).1.shifts
        0 0 = [4, 3] ∧
      Alike (build ["a", "end"] 1 [.goto 0 0 1, .shift 0 0 4, .shift 0 0 3, .goto 0 0 2, .shift 0 0 4])
        (build ["a", "end"] 1 [.goto 0 0 1, .shift 0 0 4, .goto 0 0 2, .shift 0 0 3, .shift 0 0 4]) := by
  have independent : Call.Independent (.shift 0 0 3) (.goto 0 0 2) :=
    .inl (by decide : Store.shifts ≠ Store.gotos)
  obtain ⟨made, exchange⟩ := build_exact ["a", "end"] 1
    [.goto 0 0 1, .shift 0 0 4, .shift 0 0 3, .goto 0 0 2, .shift 0 0 4]
  exact ⟨independent, (made.shifts 0 0).trans (by decide),
    exchange [.goto 0 0 1, .shift 0 0 4] _ _ [.shift 0 0 4] rfl independent⟩

end Build

end Table

end GeneralizedLR
