import GeneralizedLR.Proofs.Engine.Stability

/-!
An engine that has finished. With no head live a call neither passes nor repairs, but it merges the
accepted heads once more and sweeps the arena. The accepted heads stand on different stacks, and every
call, also one that failed, leaves only nodes below the heads that stay; so there is nothing to merge
and nothing to sweep.
-/

set_option autoImplicit false
set_option relaxedAutoImplicit false

namespace GeneralizedLR

variable {K V : Type}

/-- No head has a turn, and the accepted heads and the arena are as a call leaves them. -/
structure Engine.Rests (e : Engine K V) : Prop where
  heads : e.heads = []
  waiting : e.waiting = []
  shifted : e.shifted = []
  stranded : e.stranded = []
  linked : e.arena.Linked
  filled : ∀ head ∈ e.accepted, (e.arena.node? head.top).isSome
  distinct : (e.accepted.map fun head => e.arena.path head.top).Nodup
  swept : e.arena.sweep (e.accepted.map (·.top)) = (e.arena, 0)

namespace Engine.Rests

variable {e : Engine K V}

theorem settle (rests : e.Rests) (journal : List (Event K)) (stats : Stats) :
    Engine.settle Merged.ofHeads { e with journal, stats } =
      { e with
        journal := .settled 0 e.accepted.length e.arena.size 0 :: journal
        stats } := by
  obtain ⟨heads, waiting, shifted, stranded, linked, filled, distinct, swept⟩ := rests
  have accepted := Merged.ofHeads_of_nodup linked filled distinct
  have none : Merged.ofHeads e.arena [] = { heads := [] } := rfl
  cases e
  subst heads waiting shifted stranded
  simp only [Engine.settle, accepted, List.reverse_nil, none, Engine.recordMerges, List.foldl_nil,
    List.length_nil, Nat.add_zero, Engine.roots, List.nil_append, swept, Engine.record]

variable [Token K]

theorem advance (rests : e.Rests) (merge : Arena K V → List Head → Merged) (fuel rounds : Nat)
    (p : Parser K V) (token : K) :
    e.begun.advance merge fuel p token (rounds + 1) = .ok (e.begun.record (.deadEnd token)) := by
  have still : e.begun.pass p token fuel = .ok e.begun := by
    cases fuel <;> simp [Engine.pass, Engine.begun, rests.heads]
  rw [Engine.advance, still]
  simp [bind, Except.bind, pure, Except.pure, Engine.begun, rests.shifted, rests.stranded]

end Engine.Rests

variable [Token K] {p : Parser K V} {past : List K} {e : Engine K V}

theorem Engine.Reached.rests (reached : Engine.Reached p past e) (none : e.heads = []) : e.Rests := by
  obtain ⟨s, found, shows⟩ := reached.shows
  have waiting := shows.waiting
  have shifted := shows.shifted
  have stranded := shows.stranded
  rw [found.idle.waiting, List.forall₂_nil_right_iff, List.reverse_eq_nil_iff] at waiting
  rw [found.idle.shifted, List.forall₂_nil_right_iff, List.reverse_eq_nil_iff] at shifted
  rw [found.idle.stranded, List.forall₂_nil_right_iff, List.reverse_eq_nil_iff] at stranded
  have holds : ∀ head ∈ e.accepted, ∃ frames, e.arena.Holds head.top frames := fun head listed =>
    shows.exists_holds (List.mem_append_right _ listed)
  have filled : ∀ head ∈ e.accepted, ∃ node, e.arena.node? head.top = some node := by
    intro head listed
    obtain ⟨frames, held⟩ := holds head listed
    exact held.node?.imp fun _ => And.left
  refine ⟨none, waiting, shifted, stranded, shows.sound.linked, fun head listed => ?_,
    reached.settled.distinct, ?_⟩
  · exact Option.isSome_iff_exists.mpr (filled head listed)
  · refine shows.sound.bounded.sweep_eq_self (fun root member => ?_) fun id node slot => ?_
    · obtain ⟨head, listed, rfl⟩ := List.mem_map.mp member
      obtain ⟨node, slot⟩ := filled head listed
      exact Arena.lt_size_of_node? slot
    · obtain ⟨head, listed, member⟩ := reached.mem_chain_of_node? slot
      rw [none, List.nil_append] at listed
      obtain ⟨frames, held⟩ := holds head listed
      exact ⟨head.top, List.mem_map_of_mem listed, (held.mem_chain_iff id).mp member⟩

/-- An engine without a live head stays as it is. Whatever token comes in, the call returns, even with
the least fuel, and it leaves the heads, the nodes and the counts as they were, except that the token
is counted. -/
theorem Engine.Reached.remains_finished (reached : Engine.Reached p past e) (none : e.heads = [])
    (fuel : Nat) (token : K) :
    e.input (fuel + 1) p token = .ok { e with
      stats := { e.stats with tokens := e.stats.tokens + 1 }
      journal := [.settled 0 e.accepted.length e.arena.size 0, .deadEnd token] } := by
  have rests := reached.rests none
  have advanced := rests.advance Merged.ofHeads (fuel + 1) fuel p token
  rw [Engine.begun] at advanced
  simp only [Engine.input, Engine.inputWith, advanced]
  exact congrArg Except.ok (rests.settle _ _)

theorem Engine.Reached.remains_finished_gotoless : ∃ e,
    Engine.Reached Word.gotoless [Word.a, Word.a, Word.a] e ∧ e.heads = [] ∧
      e.accepted.length = 1 ∧ ∃ after, e.input 1 Word.gotoless Word.a = .ok after ∧
        after.accepted = e.accepted ∧ after.arena = e.arena := by
  obtain ⟨before, run⟩ : ∃ before,
      Engine.parse 9 Word.gotoless [Word.a, Word.a] .start = .ok before := exists_of_isOk rfl
  obtain ⟨cause, e, failed, none, accepted⟩ : ∃ cause e,
      before.input 9 Word.gotoless Word.a = .error (.fault cause e) ∧ e.heads = [] ∧
        e.accepted.length = 1 := by
    cases run
    exact ⟨_, _, rfl, rfl, rfl⟩
  have reached := (Engine.Reached.start.parse run).fault failed
  exact ⟨e, reached, none, accepted, _, reached.remains_finished none 0 Word.a, rfl, rfl⟩

end GeneralizedLR
