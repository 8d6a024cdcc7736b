import GeneralizedLR.Proofs.Engine.Abandoned
import GeneralizedLR.Proofs.Engine.Halting
import Mathlib.Data.Finset.Card

/-!
Reductions of single values. A reduction of two values or more makes a stack shorter, and one of a
single value only puts another state on the state that it uncovers. If the latter never go round, the
length of a stack together with the place of its top state makes a weight that every reduction lowers.
So every pass and every insertion ends, and a token before the end of the stream is taken in.
-/

set_option autoImplicit false
set_option relaxedAutoImplicit false

namespace GeneralizedLR

open Relation (TransGen)

section Rank

/-- Over an uncovered state, a production of a single value leads from one state to another; it is
listed for the terminal that the first one sees. -/
def Table.Renames (t : Table) (sees : Nat → Nat) (uncovered state target : Nat) : Prop :=
  ∃ number ∈ t.reduces state (sees state), ∃ rule, t.production? number = some rule ∧
    rule.arity = 1 ∧ rule.isStart = false ∧ t.goto? uncovered rule.nonterminal = some target

def Table.Straight (t : Table) (sees : Nat → Nat) : Prop :=
  ∀ uncovered state, ¬ TransGen (t.Renames sees uncovered) state state

variable {t : Table} {sees : Nat → Nat} {uncovered state target : Nat}

private def Table.landings (t : Table) : Finset Nat := (t.gotoEntries.map (·.target)).toFinset

private theorem Table.mem_landings_of_goto {nonterminal : Nat}
    (found : t.goto? uncovered nonterminal = some target) : target ∈ t.landings := by
  obtain ⟨entry, first, rfl⟩ := Option.map_eq_some_iff.mp found
  exact List.mem_toFinset.mpr (List.mem_map_of_mem (List.mem_of_find?_eq_some first))

private noncomputable def Table.rank (t : Table) (sees : Nat → Nat) (uncovered state : Nat) : Nat := by
  classical
  exact (t.landings.filter fun target => TransGen (t.Renames sees uncovered) state target).card

private theorem Table.rank_le (t : Table) (sees : Nat → Nat) (uncovered state : Nat) :
    t.rank sees uncovered state ≤ t.landings.card := by
  classical
  exact Finset.card_filter_le ..

private theorem Table.rank_lt (straight : t.Straight sees)
    (renames : t.Renames sees uncovered state target) :
    t.rank sees uncovered target < t.rank sees uncovered state := by
  classical
  have listed : target ∈ t.landings := by
    obtain ⟨_, _, _, _, _, _, found⟩ := renames
    exact Table.mem_landings_of_goto found
  refine Finset.card_lt_card (Finset.ssubset_iff_subset_ne.mpr ⟨fun other member => ?_, fun same => ?_⟩)
  · rw [Finset.mem_filter] at member ⊢
    exact ⟨member.1, .head renames member.2⟩
  · have next := Finset.mem_filter.mpr ⟨listed, TransGen.single renames⟩
    rw [← same, Finset.mem_filter] at next
    exact straight uncovered target next.2

private noncomputable def Table.place (t : Table) (sees : Nat → Nat) : List Nat → Nat
  | top :: uncovered :: _ => t.rank sees uncovered top
  | _ => 0

private theorem Table.place_le (t : Table) (sees : Nat → Nat) (stack : List Nat) :
    t.place sees stack ≤ t.landings.card := by
  rcases stack with - | ⟨top, - | ⟨uncovered, base⟩⟩
  · exact Nat.zero_le _
  · exact Nat.zero_le _
  · exact t.rank_le ..

private noncomputable def Table.weight (t : Table) (sees : Nat → Nat) (stack : List Nat) : Nat :=
  (t.landings.card + 1) * stack.length + t.place sees stack

private theorem Table.weight_lt (filled : ∀ rule ∈ t.productions, 1 ≤ rule.arity)
    (straight : t.Straight sees) {number : Nat} {rule : Production} {below taken base : List Nat}
    (entry : number ∈ t.reduces state (sees state)) (listed : t.production? number = some rule)
    (split : state :: below = taken ++ uncovered :: base) (arity : taken.length = rule.arity)
    (goes : rule.isStart = false) (found : t.goto? uncovered rule.nonterminal = some target) :
    t.weight sees (target :: uncovered :: base) < t.weight sees (state :: below) := by
  have positive := filled rule (List.mem_of_getElem? listed)
  by_cases single : rule.arity = 1
  · obtain ⟨top, rfl⟩ := List.length_eq_one_iff.mp (arity.trans single)
    obtain ⟨rfl, rfl⟩ := List.cons.inj split
    exact Nat.add_lt_add_left
      (Table.rank_lt straight ⟨number, entry, rule, listed, single, goes, found⟩) _
  · have lengths : (target :: uncovered :: base).length + 1 ≤ (state :: below).length := by
      rw [split, List.length_append]
      simp only [List.length_cons]
      omega
    have place := t.place_le sees (target :: uncovered :: base)
    calc t.weight sees (target :: uncovered :: base)
      _ < (t.landings.card + 1) * ((target :: uncovered :: base).length + 1) := by
        rw [Table.weight, Nat.mul_succ]
        omega
      _ ≤ (t.landings.card + 1) * (state :: below).length := Nat.mul_le_mul_left _ lengths
      _ ≤ t.weight sees (state :: below) := Nat.le_add_right ..

end Rank

section Settling

variable {K V : Type} [Token K] {p : Parser K V} {token : K}

def Table.sight (t : Table) (token : K) (state : Nat) : Nat :=
  Token.classify (t.reduceChannel? state) token

/-- Every production takes a value, and reductions of single values do not go round, neither on the
token nor ahead of a terminal that a repair inserts. -/
structure Table.Settles (t : Table) (token : K) : Prop where
  filled : ∀ rule ∈ t.productions, 1 ≤ rule.arity
  passing : t.Straight (t.sight token)
  inserting : ∀ terminal ∈ t.insertable, t.Straight fun _ => terminal

private theorem Table.Settles.balances {t : Table} (settles : t.Settles token) :
    t.Balances token (t.weight (t.sight token)) fun terminal => t.weight fun _ => terminal where
  pass := by
    rintro _ _ ⟨⟨entry, listed, split, arity, -⟩, goes, found⟩
    exact Table.weight_lt settles.filled settles.passing entry listed split arity goes found
  insert := by
    rintro terminal insertable _ _ ⟨entry, listed, split, arity, goes, found⟩
    exact Table.weight_lt settles.filled (settles.inserting terminal insertable) entry listed split
      arity goes found

end Settling

end GeneralizedLR
