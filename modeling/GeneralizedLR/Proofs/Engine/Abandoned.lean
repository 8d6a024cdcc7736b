import GeneralizedLR.Proofs.Engine.Handles
import GeneralizedLR.Word

/-!
What a call that fails leaves behind. The fault may come after heads were accepted, in a later round
of repairs or ahead of an insertion; all that was done up to there only added to the accepted heads
and to the arena. So the accepted heads of before are still in front, on the chains that they had.
-/

set_option autoImplicit false
set_option relaxedAutoImplicit false

namespace GeneralizedLR

variable {K V : Type}

theorem Engine.result_congr {e after : Engine K V} (accepted : after.accepted = e.accepted)
    (nodes : ∀ head ∈ e.accepted, after.arena.node? head.top = e.arena.node? head.top)
    (index : Nat) : after.result index = e.result index := by
  unfold Engine.result
  rw [accepted]
  cases listed : e.accepted[index]? with
  | none => rfl
  | some head => simp only [nodes head (List.mem_of_getElem? listed)]

variable [Token K] {p : Parser K V} {past : List K} {e after : Engine K V}

/-- A call that fails leaves no head live and nothing half done. The accepted heads and the nodes on
their chains are those of before, so every result is, and no other slot is filled. -/
theorem Engine.Reached.abandons (reached : Engine.Reached p past e) {fuel : Nat} {token : K}
    {cause : Fault} (run : e.input fuel p token = .error (.fault cause after)) :
    (after.heads = [] ∧ after.waiting = [] ∧ after.shifted = [] ∧ after.stranded = []) ∧
    after.accepted = e.accepted ∧
    (∀ head ∈ e.accepted, after.arena.chain head.top = e.arena.chain head.top) ∧
    (∀ index, after.result index = e.result index ∧
      ∀ codes, after.diagnostics codes index = e.diagnostics codes index) ∧
    ∀ id, (∃ node, after.arena.node? id = some node) ↔
      ∃ head ∈ e.accepted, id ∈ (e.arena.chain head.top).map (·.1) := by
  obtain ⟨s, -, shows⟩ := reached.shows
  obtain ⟨stopped, moved, left⟩ := Engine.exists_of_inputWith_eq_fault run
  have extended : e.begun.Extends stopped := by
    have advanced := shows.begun.advance faithful_ofHeads fuel p token fuel
    rw [moved] at advanced
    generalize Branching.advance Branch.merge fuel p token fuel _ = result at advanced
    cases advanced with
    | fault extended => exact extended
  have grows : e.arena.Grows stopped.arena := extended.grows
  have accepted : after.accepted = e.accepted := by
    rw [left]
    exact (List.prefix_iff_eq_take.mp extended.accepted).symm
  have swept : after.arena = (stopped.arena.sweep (e.accepted.map (·.top))).1 := by
    rw [← accepted, left]
    rfl
  have holds : ∀ root ∈ e.accepted.map (·.top), ∃ frames, e.arena.Holds root frames := by
    intro root member
    obtain ⟨head, listed, rfl⟩ := List.mem_map.mp member
    exact shows.exists_holds (List.mem_append_right _ listed)
  have kept : ∀ head ∈ e.accepted, after.arena.chain head.top = e.arena.chain head.top ∧
      after.arena.node? head.top = e.arena.node? head.top := by
    intro head listed
    rw [swept]
    exact extended.sound.sweep_chain_eq grows holds (List.mem_map_of_mem listed)
  have results := Engine.result_congr accepted fun head listed => (kept head listed).2
  refine ⟨by simp [left, Engine.abandon], accepted, fun head listed => (kept head listed).1,
    fun index => ⟨results index, fun codes => ?_⟩, fun id => ?_⟩
  · simp only [Engine.diagnostics, results, accepted]
  · rw [swept, extended.sound.sweep_filled_iff fun root member =>
      (holds root member).imp fun _ held => held.mono grows]
    constructor
    · rintro ⟨root, member, listed'⟩
      obtain ⟨head, listed, rfl⟩ := List.mem_map.mp member
      obtain ⟨frames, held⟩ := holds _ member
      exact ⟨head, listed, held.chain_eq grows ▸ listed'⟩
    · rintro ⟨head, listed, listed'⟩
      have member : head.top ∈ e.accepted.map (·.top) := List.mem_map_of_mem listed
      obtain ⟨frames, held⟩ := holds _ member
      exact ⟨_, member, (held.chain_eq grows).symm ▸ listed'⟩

/-- Every word ends a parse here, and after two of them there is also a production without a goto. -/
def Word.gotoless : Parser Word String where
  table :=
    { descriptions := ["a", "end"]
      endOfStream := 1
      productions := [⟨0, 1, true⟩, ⟨0, 1, false⟩]
      shiftEntries := [⟨0, 0, 1⟩, ⟨1, 0, 2⟩]
      reduceEntries := [⟨1, 0, 0⟩, ⟨2, 0, 0⟩, ⟨2, 0, 1⟩] }
  reducer := fun _ => Word.joined

def Word.a : Word := { terminal := 0, text := "a" }

theorem Engine.Reached.abandons_gotoless : ∃ e cause after,
    Engine.Reached Word.gotoless [Word.a, Word.a] e ∧
      e.input 9 Word.gotoless Word.a = .error (.fault cause after) ∧
        e.result 0 = .ok "a" ∧ after.result 0 = e.result 0 := by
  obtain ⟨e, run, result⟩ : ∃ e, Engine.parse 9 Word.gotoless [Word.a, Word.a] .start = .ok e ∧
      e.result 0 = .ok "a" := ⟨_, rfl, rfl⟩
  have reached := Engine.Reached.start.parse run
  obtain ⟨cause, after, failed⟩ : ∃ cause after,
      e.input 9 Word.gotoless Word.a = .error (.fault cause after) := by
    cases run
    exact ⟨_, _, rfl⟩
  exact ⟨e, cause, after, reached, failed, result, (reached.abandons failed).2.2.2.1 0 |>.1⟩

end GeneralizedLR
