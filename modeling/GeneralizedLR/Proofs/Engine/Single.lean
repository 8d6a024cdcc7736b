import GeneralizedLR.Proofs.Engine.Run

/-!
Runs without a choice. As long as a stack has just one move, a branch that is alone stays alone, makes
no repair and is never forked, and its stack goes where the moves lead.
-/

set_option autoImplicit false
set_option relaxedAutoImplicit false

namespace GeneralizedLR

variable {K V : Type} [Token K]

/-- Before a token, a stack is reduced to another one and has no other move on the way. -/
inductive Parser.Settles (p : Parser K V) (token : K) :
    List (Frame K V) → List (Frame K V) → Prop
  | refl (frames : List (Frame K V)) : Parser.Settles p token frames frames
  | step {frames frames' frames'' : List (Frame K V)} :
      p.movesOn token frames = .ok [(.waiting, frames')] → Parser.Settles p token frames' frames'' →
        Parser.Settles p token frames frames''

/-- A stack takes in tokens and has no choice on the way. -/
inductive Parser.Feeds (p : Parser K V) : List K → List (Frame K V) → List (Frame K V) → Prop
  | nil (frames : List (Frame K V)) : Parser.Feeds p [] frames frames
  | cons {token : K} {rest : List K} {frames ready shifted last : List (Frame K V)} :
      p.Settles token frames ready → p.movesOn token ready = .ok [(.shifted, shifted)] →
        Parser.Feeds p rest shifted last → Parser.Feeds p (token :: rest) frames last

/-- A stack takes in tokens and is then reduced before the next one, without a choice. -/
def Parser.Reads (p : Parser K V) (tokens : List K) (next : K) (stack stack' : List (Frame K V)) :
    Prop :=
  ∃ frames, p.Feeds tokens stack frames ∧ p.Settles next frames stack'

/-- There is one branch, without a repair, and there was never a second one. -/
structure Branching.Alone (s : Branching K V) (frames : List (Frame K V)) : Prop where
  live : ∃ serial, s.live = [{ frames, serial }]
  idle : s.Idle
  accepted : s.accepted = []
  forks : s.stats.forks = 0

omit [Token K] in
theorem Branching.alone_start : (Branching.start : Branching K V).Alone [] :=
  ⟨⟨0, rfl⟩, Branching.idle_start, rfl, rfl⟩

namespace Branching.Alone

variable {p : Parser K V} {token : K} {s after : Branching K V}
  {frames ready frames' : List (Frame K V)}

private theorem exists_rest {b : Branch K V} {move : Move K V} (live : s.live = [b])
    (single : p.movesOn token b.frames = .ok [move]) {fuel : Nat}
    (run : s.pass p token fuel = .ok after) :
    ∃ rounds, let stepped := ({ s with live := [] }.take b [move]).conclude b 1
      Branching.pass p token rounds { stepped with live := stepped.waiting, waiting := [] } =
        .ok after := by
  have member : b ∈ s.live := live ▸ List.mem_singleton_self b
  obtain ⟨rounds, stepped, -, round, rest⟩ := exists_round_of_pass run member
  rw [live] at round
  simp only [List.foldlM_cons, List.foldlM_nil, Branching.step, single] at round
  cases round
  exact ⟨rounds, rest⟩

omit [Token K] in
private theorem held_single (alone : s.Alone frames) (b : Branch K V) (fate : Fate)
    (frames' : List (Frame K V)) (other : Fate) :
    (({ s with live := [] }.take b [(fate, frames')]).conclude b 1).held other =
      if fate = other then [{ b with frames := frames', serial := s.serial + 1 }] else [] := by
  have none : { s with live := [] }.held other = [] := by
    cases other with
    | shifted => exact alone.idle.shifted
    | waiting => exact alone.idle.waiting
    | accepted => exact alone.accepted
  rw [held_take_conclude, none, List.nil_append]
  simp only [Branch.fork, Fate.select_cons, Fate.select_nil]

/-- A pass follows the moves up to the first that is no reduction, or that ends the parse. -/
theorem pass (alone : s.Alone frames) (settles : p.Settles token frames ready) {fate : Fate}
    (last : p.movesOn token ready = .ok [(fate, frames')]) (turns : fate ≠ .waiting) {fuel : Nat}
    (run : s.pass p token fuel = .ok after) :
    (∃ serial, after.held fate = [{ frames := frames', serial }]) ∧
      (∀ other, other ≠ fate → after.held other = []) ∧ after.stranded = [] ∧
        after.stats.forks = 0 := by
  induction settles generalizing s fuel with
  | refl frames =>
    obtain ⟨serial, live⟩ := alone.live
    have held := alone.held_single { frames, serial } fate frames'
    have waiting := (held .waiting).trans (if_neg turns)
    obtain ⟨rounds, rest⟩ := exists_rest live last run
    dsimp only at rest
    rw [pass_nil waiting] at rest
    cases rest
    refine ⟨⟨s.serial + 1, ?_⟩, fun other different => ?_, alone.idle.stranded, alone.forks⟩
    · cases fate with
      | waiting => exact absurd rfl turns
      | shifted => exact held .shifted
      | accepted => exact held .accepted
    · cases other with
      | waiting => rfl
      | shifted => exact (held .shifted).trans (if_neg different.symm)
      | accepted => exact (held .accepted).trans (if_neg different.symm)
  | @step frames middle _ move _ ih =>
    obtain ⟨serial, live⟩ := alone.live
    have held := alone.held_single { frames, serial } .waiting middle
    obtain ⟨rounds, rest⟩ := exists_rest live move run
    refine ih ?_ last rest
    exact {
      live := ⟨s.serial + 1, held .waiting⟩
      idle := ⟨rfl, held .shifted, alone.idle.stranded⟩
      accepted := held .accepted
      forks := alone.forks }

private theorem advance (alone : s.Alone frames) (settles : p.Settles token frames ready)
    {fate : Fate} (last : p.movesOn token ready = .ok [(fate, frames')]) (turns : fate ≠ .waiting)
    {fuel rounds : Nat} (run : s.advance Branch.merge fuel p token rounds = .ok after) :
    (∃ serial, after.held fate = [{ frames := frames', serial }]) ∧
      (∀ other, other ≠ fate → after.held other = []) ∧ after.stranded = [] ∧
        after.stats.forks = 0 := by
  cases rounds with
  | zero => cases run
  | succ rounds =>
    obtain ⟨passed, first, -⟩ := exists_of_bind_eq_ok run
    obtain ⟨⟨serial, held⟩, rest⟩ := alone.pass settles last turns first
    have settled : passed.shifted ≠ [] ∨ s.accepted.length < passed.accepted.length ∨
        passed.stranded = [] := .inr (.inr rest.2.1)
    rw [Branching.advance_of_settled Branch.merge first settled rounds] at run
    cases run
    exact ⟨⟨serial, held⟩, rest⟩

omit [Token K] in
private theorem begun (alone : s.Alone frames) :
    { s with stats := { s.stats with tokens := s.stats.tokens + 1 } }.Alone frames :=
  ⟨alone.live, ⟨alone.idle.waiting, alone.idle.shifted, alone.idle.stranded⟩, alone.accepted,
    alone.forks⟩

theorem input (alone : s.Alone frames) (settles : p.Settles token frames ready)
    (shift : p.movesOn token ready = .ok [(.shifted, frames')]) {fuel : Nat}
    (run : s.input Branch.merge fuel p token = .ok after) : after.Alone frames' := by
  obtain ⟨advanced, moved, settled⟩ := exists_of_bind_eq_ok run
  have idle := alone.idle.input run
  cases settled
  obtain ⟨⟨serial, shifted⟩, others, -, forks⟩ :=
    alone.begun.advance settles shift Fate.noConfusion moved
  refine ⟨⟨serial, ?_⟩, idle, ?_, forks⟩
  · change survivors _ _ advanced.shifted = _
    rw [show advanced.shifted = _ from shifted, survivors_singleton]
  · exact survivors_eq_nil_iff.mpr (others .accepted Fate.noConfusion)

theorem finish (alone : s.Alone frames) (settles : p.Settles token frames ready)
    (accept : p.movesOn token ready = .ok [(.accepted, frames')]) {fuel : Nat}
    (run : s.input Branch.merge fuel p token = .ok after) :
    after.live = [] ∧ (∃ serial, after.accepted = [{ frames := frames', serial }]) ∧
      after.stats.forks = 0 := by
  obtain ⟨advanced, moved, settled⟩ := exists_of_bind_eq_ok run
  cases settled
  obtain ⟨⟨serial, accepted⟩, others, -, forks⟩ :=
    alone.begun.advance settles accept Fate.noConfusion moved
  refine ⟨?_, ⟨serial, ?_⟩, forks⟩
  · exact survivors_eq_nil_iff.mpr (others .shifted Fate.noConfusion)
  · change survivors _ _ advanced.accepted = _
    rw [show advanced.accepted = _ from accepted, survivors_singleton]

theorem parse (alone : s.Alone frames) {tokens : List K} (feeds : p.Feeds tokens frames frames')
    {fuel : Nat} (run : Branching.parse Branch.merge fuel p tokens s = .ok after) :
    after.Alone frames' := by
  induction feeds generalizing s with
  | nil =>
    cases run
    exact alone
  | cons settles shift _ ih =>
    obtain ⟨next, taken, rest⟩ := exists_of_bind_eq_ok run
    exact ih (alone.input settles shift taken) rest

end Branching.Alone

end GeneralizedLR
