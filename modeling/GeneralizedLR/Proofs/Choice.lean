import GeneralizedLR.Choice
import Mathlib.Data.List.MinMax
import Mathlib.Data.Prod.Lex
import Mathlib.Tactic.SplitIfs

/-!
What a choice between outcomes keeps. Outcomes are ranked by whether they failed and then by how
many errors they have; the choice keeps the one that ranks lower and, of equals, the first. So the
outcome that is left over from a list of them is the first one of the lowest rank, and two lists
may be decided each by itself before their winners meet. However a sequence of outcomes is bracketed
into choices between two, the same outcome is left over.
-/

set_option autoImplicit false
set_option relaxedAutoImplicit false

namespace GeneralizedLR

namespace Outcome

universe u

variable {K R A : Type} {first second outcome : Outcome K R} {outcomes others : List (Outcome K R)}

/-- The rank of an outcome: a success below a failure, and then by the number of errors. -/
def rank (o : Outcome K R) : Nat ×ₗ Nat :=
  toLex (if o.isSuccess then 0 else 1, o.errors.length)

theorem best_eq (first second : Outcome K R) :
    best first second = if second.rank < first.rank then second else first := by
  unfold best rank
  cases first.isSuccess <;> cases second.isSuccess <;> simp [Prod.Lex.toLex_lt_toLex]

/-- An outcome that is the first one of the lowest rank in a list of outcomes. -/
def Wins (outcomes : List (Outcome K R)) (winner : Outcome K R) : Prop :=
  ∃ before after, outcomes = before ++ winner :: after ∧
    (∀ o ∈ before, winner.rank < o.rank) ∧ ∀ o ∈ after, winner.rank ≤ o.rank

theorem wins_singleton (o : Outcome K R) : Wins [o] o :=
  ⟨[], [], rfl, by simp, by simp⟩

theorem Wins.rank_le (wins : Wins outcomes outcome) : ∀ o ∈ outcomes, outcome.rank ≤ o.rank := by
  obtain ⟨before, after, rfl, below, least⟩ := wins
  intro o member
  rcases List.mem_append.mp member with front | back
  · exact (below o front).le
  · rcases List.mem_cons.mp back with rfl | behind
    · exact le_rfl
    · exact least o behind

theorem Wins.append (left : Wins outcomes first) (right : Wins others second) :
    Wins (outcomes ++ others) (best first second) := by
  have bound := right.rank_le
  have leftmost := left.rank_le
  obtain ⟨before, after, rfl, below, least⟩ := left
  obtain ⟨passed, ahead, rfl, above, lowest⟩ := right
  rw [best_eq]
  split_ifs with lower
  · refine ⟨before ++ first :: after ++ passed, ahead, by simp, fun o member => ?_, lowest⟩
    rcases List.mem_append.mp member with front | back
    · exact lower.trans_le (leftmost o front)
    · exact above o back
  · refine ⟨before, after ++ (passed ++ second :: ahead), by simp, below, fun o member => ?_⟩
    rcases List.mem_append.mp member with front | back
    · exact least o front
    · exact (not_lt.mp lower).trans (bound o back)

/-- If each member of a list stands for the winner of a list of its own, the winner among the
members is the winner of all those lists together. -/
theorem Wins.flatMap {B : Type u} {members : List B} {winner : B → Outcome K R}
    {contest : B → List (Outcome K R)} (wins : Wins (members.map winner) outcome)
    (each : ∀ b ∈ members, Wins (contest b) (winner b)) :
    Wins (members.flatMap contest) outcome := by
  obtain ⟨before, after, split, below, least⟩ := wins
  obtain ⟨passed, rest, rfl, rfl, tail⟩ := List.map_eq_append_iff.mp split
  obtain ⟨chosen, ahead, rfl, rfl, rfl⟩ := List.map_eq_cons_iff.mp tail
  obtain ⟨front, back, parts, ahead_below, behind_least⟩ := each chosen (by simp)
  refine ⟨passed.flatMap contest ++ front, back ++ ahead.flatMap contest, by simp [parts],
    fun o member => ?_, fun o member => ?_⟩
  · rcases List.mem_append.mp member with other | same
    · obtain ⟨b, b_mem, o_mem⟩ := List.mem_flatMap.mp other
      exact (below _ (List.mem_map_of_mem b_mem)).trans_le
        ((each b (by simp [b_mem])).rank_le o o_mem)
    · exact ahead_below o same
  · rcases List.mem_append.mp member with same | other
    · exact behind_least o same
    · obtain ⟨b, b_mem, o_mem⟩ := List.mem_flatMap.mp other
      exact (least _ (List.mem_map_of_mem b_mem)).trans
        ((each b (by simp [b_mem])).rank_le o o_mem)

theorem wins_map_const {B : Type u} {members : List B} (o : Outcome K R) (occupied : members ≠ []) :
    Wins (members.map fun _ => o) o := by
  obtain ⟨member, rest, rfl⟩ := List.exists_cons_of_ne_nil occupied
  exact ⟨[], rest.map fun _ => o, rfl, by simp, by simp⟩

section Bracketing

def eligible (outcomes : List (Outcome K R)) : List (Outcome K R) :=
  let successes := outcomes.filter isSuccess
  if successes.isEmpty then outcomes else successes

/-- Of the outcomes that are eligible, the first one with the fewest errors. -/
def preferred? (outcomes : List (Outcome K R)) : Option (Outcome K R) :=
  (eligible outcomes).argmin (·.errors.length)

theorem rank_lt_iff (alike : first.isSuccess = second.isSuccess) :
    first.rank < second.rank ↔ first.errors.length < second.errors.length := by
  simp [rank, Prod.Lex.toLex_lt_toLex, alike]

theorem rank_le_iff (alike : first.isSuccess = second.isSuccess) :
    first.rank ≤ second.rank ↔ first.errors.length ≤ second.errors.length := by
  rw [← not_lt, ← not_lt, rank_lt_iff alike.symm]

theorem isSuccess_of_rank_le (lower : first.rank ≤ second.rank) (succeeds : second.isSuccess = true) :
    first.isSuccess = true := by
  by_contra fails
  rw [Bool.not_eq_true] at fails
  simp [rank, Prod.Lex.toLex_le_toLex, fails, succeeds] at lower

private theorem argmin_eq_some {B : Type} (f : B → Nat) {before after : List B} {b : B}
    (below : ∀ other ∈ before, f b < f other) (least : ∀ other ∈ after, f b ≤ f other) :
    (before ++ b :: after).argmin f = some b := by
  induction before with
  | nil =>
    rw [List.nil_append, List.argmin_cons]
    cases found : after.argmin f with
    | none => rfl
    | some other => exact if_neg (not_lt.mpr (least other (List.argmin_mem found)))
  | cons other before ih =>
    rw [List.cons_append, List.argmin_cons, ih fun o member => below o (List.mem_cons_of_mem other member)]
    exact if_pos (below other List.mem_cons_self)

theorem Wins.preferred?_eq (wins : Wins outcomes outcome) : preferred? outcomes = some outcome := by
  have bound := wins.rank_le
  obtain ⟨before, after, rfl, below, least⟩ := wins
  unfold preferred? eligible
  cases succeeds : outcome.isSuccess with
  | true =>
    have alike {o : Outcome K R} {others : List (Outcome K R)} (member : o ∈ others.filter isSuccess) :
        outcome.isSuccess = o.isSuccess := succeeds.trans (List.mem_filter.mp member).2.symm
    have split : (before ++ outcome :: after).filter isSuccess =
        before.filter isSuccess ++ outcome :: after.filter isSuccess := by
      rw [List.filter_append, List.filter_cons_of_pos succeeds]
    rw [split, if_neg (by simp)]
    refine argmin_eq_some _ (fun o member => ?_) fun o member => ?_
    · exact (rank_lt_iff (alike member)).mp (below o (List.mem_of_mem_filter member))
    · exact (rank_le_iff (alike member)).mp (least o (List.mem_of_mem_filter member))
  | false =>
    have fails : ∀ o ∈ before ++ outcome :: after, o.isSuccess = false := by
      intro o member
      by_contra success
      rw [isSuccess_of_rank_le (bound o member) (by simpa using success)] at succeeds
      cases succeeds
    have none_succeeds : (before ++ outcome :: after).filter isSuccess = [] :=
      List.filter_eq_nil_iff.mpr fun o member => by simp [fails o member]
    rw [none_succeeds, if_pos (by rfl)]
    refine argmin_eq_some _ (fun o member => ?_) fun o member => ?_
    · exact (rank_lt_iff (succeeds.trans (fails o (by simp [member])).symm)).mp (below o member)
    · exact (rank_le_iff (succeeds.trans (fails o (by simp [member])).symm)).mp (least o member)

theorem exists_wins (occupied : outcomes ≠ []) : ∃ winner, Wins outcomes winner := by
  induction outcomes with
  | nil => exact absurd rfl occupied
  | cons o rest ih =>
    by_cases last : rest = []
    · exact ⟨o, last ▸ wins_singleton o⟩
    · obtain ⟨winner, wins⟩ := ih last
      exact ⟨o.best winner, (wins_singleton o).append wins⟩

/-- A sequence of outcomes, bracketed into choices between two. -/
inductive Bracketing (K R : Type) where
  | single (outcome : Outcome K R)
  | pair (first second : Bracketing K R)

namespace Bracketing

def sequence : Bracketing K R → List (Outcome K R)
  | single outcome => [outcome]
  | pair first second => first.sequence ++ second.sequence

/-- Decide the first half, then the second half, and then choose between the two. -/
def settle : Bracketing K R → StateM Nat (Outcome K R)
  | single outcome => pure outcome
  | pair first second => do
    let left ← first.settle
    let right ← second.settle
    left.choose right

theorem length_sequence_pos (b : Bracketing K R) : 0 < b.sequence.length := by
  induction b with
  | single => exact Nat.zero_lt_one
  | pair first second left _ =>
    rw [sequence, List.length_append]
    exact Nat.add_pos_left left _

theorem wins_settle (b : Bracketing K R) : ∃ winner, Wins b.sequence winner ∧
    ∀ choices, b.settle.run choices = (winner, choices + (b.sequence.length - 1)) := by
  induction b with
  | single outcome => exact ⟨outcome, wins_singleton outcome, fun _ => rfl⟩
  | pair first second left right =>
    obtain ⟨l, wins, run⟩ := left
    obtain ⟨r, wins', run'⟩ := right
    refine ⟨l.best r, wins.append wins', fun choices => ?_⟩
    have occupied := first.length_sequence_pos
    have occupied' := second.length_sequence_pos
    have chosen : (pair first second).settle.run choices =
        (Outcome.best l r, choices + (first.sequence.length - 1) + (second.sequence.length - 1) + 1) := by
      rw [settle, StateT.run_bind, run]
      simp only [StateT.run_bind, run']
      rfl
    rw [chosen, sequence, List.length_append]
    congr 1
    omega

/-- One outcome of a sequence is left over however the sequence is bracketed, and it takes one choice
less than there are outcomes: of the successes, or of all outcomes if none is one, it is the first with
the fewest errors. -/
theorem settle_eq_preferred {outcomes : List (Outcome K R)} (occupied : outcomes ≠ []) :
    ∃ winner, preferred? outcomes = some winner ∧
      ∀ b : Bracketing K R, b.sequence = outcomes →
        ∀ choices, b.settle.run choices = (winner, choices + (outcomes.length - 1)) := by
  obtain ⟨winner, wins⟩ := exists_wins occupied
  refine ⟨winner, wins.preferred?_eq, ?_⟩
  rintro b rfl choices
  obtain ⟨other, wins', run⟩ := b.wins_settle
  obtain rfl : other = winner := Option.some.inj (wins'.preferred?_eq.symm.trans wins.preferred?_eq)
  exact run choices

theorem settle_eq_preferred_three :
    let here : Cursor Nat := .ofList []
    let flaw : ErrorRecord := ⟨some .missing, none, none⟩
    let lost : Outcome Nat Nat := { value := none, cursor := here, errors := [flaw] }
    let early : Outcome Nat Nat := { value := some 1, cursor := here, errors := [flaw, flaw] }
    let late : Outcome Nat Nat := { value := some 2, cursor := here, errors := [flaw, flaw] }
    [lost, early, late] ≠ [] ∧ preferred? [lost, early, late] = some early ∧
      (pair (pair (single lost) (single early)) (single late)).settle.run 0 = (early, 2) ∧
      (pair (single lost) (pair (single early) (single late))).settle.run 0 = (early, 2) := by
  intro here flaw lost early late
  have occupied : [lost, early, late] ≠ [] := List.cons_ne_nil _ _
  have first : preferred? [lost, early, late] = some early := rfl
  obtain ⟨winner, preferred, settled⟩ := settle_eq_preferred occupied
  obtain rfl : early = winner := Option.some.inj (first.symm.trans preferred)
  exact ⟨occupied, first, settled _ rfl 0, settled _ rfl 0⟩

end Bracketing

end Bracketing

end Outcome

end GeneralizedLR
