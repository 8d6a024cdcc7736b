import GeneralizedLR.Arithmetic.Evaluate
import GeneralizedLR.Proofs.Automaton
import GeneralizedLR.Proofs.Engine.Growth
import GeneralizedLR.Proofs.Engine.Run

/-!
Without repairs the engine is the automaton of its table. A branch that made no repair has a stack
that the automaton reaches, and every stack that the automaton reaches belongs to such a branch: a
pass follows all reductions, and a merge prefers the branch with fewer repairs.
-/

set_option autoImplicit false
set_option relaxedAutoImplicit false

namespace GeneralizedLR

open Relation (ReflTransGen)

variable {K V : Type} [Token K]

/-- A branch has as many records as repairs, and if it has none then its stack is one of the given
ones. -/
structure Branch.Follows (allowed : List Nat → Prop) (b : Branch K V) : Prop where
  records : b.errors.length = b.level
  reached : b.level = 0 → allowed (Frame.states b.frames)

def Table.Faces (t : Table) (past : List K) (token : K) (ready : List Nat) : Prop :=
  ∃ stack, t.Reaches past stack ∧ ReflTransGen (t.Reduces token) stack ready

omit [Token K] in
private theorem Branch.follows_repaired {allowed : List Nat → Prop} {b : Branch K V}
    (records : b.errors.length = b.level) (record : ErrorRecord) (frames : List (Frame K V))
    (serial : Nat) :
    ({ b with frames, serial }.repaired record).Follows allowed :=
  ⟨by simp [Branch.repaired, records], fun none => by cases none⟩

private theorem Parser.contract_follows (p : Parser K V) (past : List K) (token : K) :
    Branching.Contract p token (Branch.Follows (p.table.Faces past token))
      (fun _ b => b.errors.length = b.level) (Branch.Follows (p.table.Faces past token))
      (Branch.Follows (p.table.Reaches (past ++ [token])))
      (Branch.Follows fun _ => p.table.Accepts (past ++ [token])) where
  shift := by
    rintro b serial follows target entry
    refine ⟨follows.records, fun none => ?_⟩
    obtain ⟨stack, reached, chain⟩ := follows.reached none
    exact reached.consume chain (Parser.shifts_states_iff.mpr ⟨target, entry, rfl⟩)
  reduce := by
    rintro b serial frames follows production entry reduced
    refine ⟨follows.records, fun none => ?_⟩
    obtain ⟨stack, reached, chain⟩ := follows.reached none
    exact ⟨stack, reached, chain.tail
      (Parser.reduces_states_iff.mpr ⟨production, entry, frames, reduced, rfl⟩)⟩
  accept := by
    rintro b serial frames follows production entry reduced
    refine ⟨follows.records, fun none => ?_⟩
    obtain ⟨stack, reached, chain⟩ := follows.reached none
    exact Table.accepts_concat_iff.mpr (.inr ⟨stack, _, reached, chain,
      Parser.ends_states_iff.mpr ⟨production, entry, frames, reduced⟩⟩)
  delete := by
    rintro b serial follows -
    exact Branch.follows_repaired follows.records _ b.frames serial
  queue := fun _ follows _ _ => follows.records
  prepare := fun _ _ _ _ _ records _ _ _ => records
  insert := fun _ _ b _ records _ _ => Branch.follows_repaired records _ _ _

/-- A branch without repairs has a stack that the automaton reaches, and it is accepted only where
the automaton can end. -/
theorem Branching.Reached.follows {p : Parser K V} {past : List K} {s : Branching K V}
    (reached : Branching.Reached p past s) :
    (∀ b ∈ s.live, b.Follows (p.table.Reaches past)) ∧
      ∀ b ∈ s.accepted, b.Follows fun _ => p.table.Accepts past := by
  refine reached.invariant (fun past => Branch.Follows (p.table.Reaches past))
    (fun past => Branch.Follows fun _ => p.table.Accepts past)
    ⟨rfl, fun _ => .start⟩ (fun past token b follows => ⟨follows.records, fun none => ?_⟩)
    p.contract_follows (fun past token b follows => ⟨follows.records, fun none => ?_⟩)
  · exact (follows.reached none).append [token]
  · exact ⟨_, follows.reached none, .refl⟩

/-- A pass follows every chain of reductions, and shifts and accepts at its end. -/
theorem Branching.pass_complete {p : Parser K V} {token : K} {fuel : Nat} {s after : Branching K V}
    (run : s.pass p token fuel = .ok after) {b : Branch K V} (member : b ∈ s.live)
    {ready : List Nat} (chain : ReflTransGen (p.table.Reduces token) (Frame.states b.frames) ready) :
    (∀ stack, p.table.Shifts token ready stack →
      ∃ b' ∈ after.shifted, Frame.states b'.frames = stack ∧ b'.level = b.level) ∧
    (p.table.Ends token ready → ∃ b' ∈ after.accepted, b'.level = b.level) := by
  induction fuel generalizing s b with
  | zero =>
    obtain ⟨_, _, none, -⟩ := Branching.exists_round_of_pass run member
    cases none
  | succ fuel ih =>
    obtain ⟨_, s', same, stepped, rest⟩ := Branching.exists_round_of_pass run member
    cases same
    obtain ⟨x, y, -, stepped, behind⟩ := Branching.exists_step_of_foldlM member stepped
    obtain ⟨moves, made, rfl⟩ := Branching.step_eq_ok.mp stepped
    have grown := (Branching.pass_grows rest).1
    have found := fun fate frames (listed : (fate, frames) ∈ moves) =>
      Branching.exists_mem_held_take_conclude x b moves.length listed
    rcases chain.cases_head with rfl | ⟨middle, first, chain⟩
    · refine ⟨fun stack shifts => ?_, fun ends => ?_⟩
      · obtain ⟨target, entry, rfl⟩ := Parser.shifts_states_iff.mp shifts
        obtain ⟨number, member⟩ := found .shifted _
          ((Parser.mem_moves_shifted made).mpr ⟨target, entry, rfl⟩)
        exact ⟨_, grown.shifted.subset (behind.shifted.subset member), rfl, rfl⟩
      · obtain ⟨production, entry, frames, reduced⟩ := Parser.ends_states_iff.mp ends
        obtain ⟨number, member⟩ := found .accepted frames
          ((Parser.mem_moves_of_ne_shifted made Fate.noConfusion).mpr ⟨production, entry, reduced⟩)
        exact ⟨_, grown.accepted.subset (behind.accepted.subset member), rfl⟩
    · obtain ⟨production, entry, frames, reduced, rfl⟩ := Parser.reduces_states_iff.mp first
      obtain ⟨number, member⟩ := found .waiting frames
        ((Parser.mem_moves_of_ne_shifted made Fate.noConfusion).mpr ⟨production, entry, reduced⟩)
      exact ih (b := { b with frames, serial := number }) rest (behind.waiting.subset member) chain

/-- Every stack that the automaton reaches belongs to a live branch without repairs, and if it can
end then a branch without repairs is accepted. -/
theorem Branching.parse_complete {p : Parser K V} {fuel : Nat} {tokens : List K}
    {s : Branching K V} (run : Branching.parse Branch.merge fuel p tokens .start = .ok s) :
    (∀ stack, p.table.Reaches tokens stack →
      ∃ b ∈ s.live, b.level = 0 ∧ Frame.states b.frames = stack) ∧
    (p.table.Accepts tokens → ∃ b ∈ s.accepted, b.level = 0) := by
  -- Both halves are shown together, token by token: what is accepted at a token comes from a stack
  -- that was live before it.
  induction tokens using List.reverseRecOn generalizing s with
  | nil =>
    cases run
    refine ⟨fun stack reached => ?_, fun accepts => ?_⟩
    · generalize none : ([] : List K) = past at reached
      cases reached with
      | start => exact ⟨{}, List.mem_singleton_self _, rfl, rfl⟩
      | consume => simp at none
    · obtain ⟨past, token, future, _, _, split, -⟩ := accepts
      simp at split
  | append_singleton past token ih =>
    rw [Branching.parse_append] at run
    obtain ⟨before, earlier, last⟩ := exists_of_bind_eq_ok run
    obtain ⟨after, last, done⟩ := exists_of_bind_eq_ok last
    cases done
    obtain ⟨lives, accepts⟩ := ih earlier
    obtain ⟨advanced, moved, settled⟩ := exists_of_bind_eq_ok last
    cases settled
    obtain ⟨passed, first, grown⟩ := Branching.advance_keeps moved
    refine ⟨fun stack reached => ?_, fun accepted => ?_⟩
    · generalize all : past ++ [token] = tokens at reached
      cases reached with
      | start => simp at all
      | @consume past' token' stack ready _ reached chain shifts =>
        obtain ⟨rfl, same⟩ := List.append_inj' all rfl
        cases same
        obtain ⟨b, member, clean, rfl⟩ := lives stack reached
        obtain ⟨b', shifted, states, level⟩ := (Branching.pass_complete first member chain).1 _ shifts
        obtain ⟨kept, survives, states', level'⟩ :=
          Branch.exists_mem_merge (grown.shifted.subset shifted)
        exact ⟨kept, survives, by omega, states'.trans states⟩
    · have found : ∃ b ∈ advanced.accepted, b.level = 0 := by
        rcases Table.accepts_concat_iff.mp accepted with accepted | ⟨stack, ready, reached, chain, ends⟩
        · obtain ⟨b, member, clean⟩ := accepts accepted
          have kept := (Branching.pass_grows first).1.accepted.trans grown.accepted
          exact ⟨b, kept.subset member, clean⟩
        · obtain ⟨b, member, clean, rfl⟩ := lives stack reached
          obtain ⟨b', accepted, level⟩ := (Branching.pass_complete first member chain).2 ends
          exact ⟨b', grown.accepted.subset accepted, level.trans clean⟩
      obtain ⟨b, member, clean⟩ := found
      obtain ⟨kept, survives, -, level⟩ := Branch.exists_mem_merge member
      exact ⟨kept, survives, by omega⟩

/-- If no token ends in a fault, the live heads without repairs have the paths that the automaton
reaches, and a head without errors is accepted where the automaton can end. -/
theorem Engine.parse_exact {p : Parser K V} {fuel : Nat} {tokens : List K} {e : Engine K V}
    (run : Engine.parse fuel p tokens .start = .ok e) :
    (∀ path, (∃ head ∈ e.heads, head.level = 0 ∧ e.arena.path head.top = path) ↔
      p.table.Reaches tokens path.reverse) ∧
    ((∃ head ∈ e.accepted, head.errors = []) ↔ p.table.Accepts tokens) := by
  obtain ⟨s, parsed, shows⟩ := Engine.exists_parse_of_parse run
  obtain ⟨lives, accepts⟩ := (Branching.Reached.start.parse parsed).follows
  obtain ⟨alive, accepted⟩ := Branching.parse_complete parsed
  rw [List.nil_append] at lives accepts
  refine ⟨fun path => ⟨?_, fun reached => ?_⟩, ?_, fun ends => ?_⟩
  · rintro ⟨head, listed, clean, rfl⟩
    obtain ⟨b, member, shown⟩ := exists_of_forall₂_left shows.live listed
    rw [shown.holds.path, Frame.path_eq_reverse, List.reverse_reverse]
    exact (lives b member).reached (shown.level ▸ clean)
  · obtain ⟨b, member, clean, states⟩ := alive _ reached
    obtain ⟨head, listed, shown⟩ := exists_of_forall₂_right shows.live member
    refine ⟨head, listed, shown.level.trans clean, ?_⟩
    rw [shown.holds.path, Frame.path_eq_reverse, states, List.reverse_reverse]
  · rintro ⟨head, listed, clean⟩
    obtain ⟨b, member, shown⟩ := exists_of_forall₂_left shows.accepted listed
    have none : b.level = 0 := by rw [← (accepts b member).records, ← shown.errors, clean]; rfl
    exact (accepts b member).reached none
  · obtain ⟨b, member, clean⟩ := accepted ends
    obtain ⟨head, listed, shown⟩ := exists_of_forall₂_right shows.accepted member
    refine ⟨head, listed, ?_⟩
    rw [shown.errors, ← List.length_eq_zero_iff, (accepts b member).records, clean]

def Arithmetic.onePlusTwo : List Arithmetic.Lexeme :=
  [{ terminal := .number, payload := .number 1 }, { terminal := .plus },
   { terminal := .number, payload := .number 2 }, { terminal := .endOfInput }]

theorem Engine.parse_exact_onePlusTwo : ∃ e,
    Engine.parse 9 (Arithmetic.parser .ambiguous) Arithmetic.onePlusTwo .start = .ok e ∧
      (∃ head ∈ e.accepted, head.errors = []) ∧
      (Arithmetic.table .ambiguous).Accepts Arithmetic.onePlusTwo ∧
      e.heads = [] ∧ ∀ path, ¬ (Arithmetic.table .ambiguous).Reaches Arithmetic.onePlusTwo path := by
  obtain ⟨e, run, heads, errors⟩ : ∃ e, Engine.parse 9 (Arithmetic.parser .ambiguous)
      Arithmetic.onePlusTwo .start = .ok e ∧ e.heads = [] ∧ e.accepted.map (·.errors) = [[]] :=
    ⟨_, rfl, rfl, rfl⟩
  obtain ⟨lives, accepts⟩ := Engine.parse_exact run
  obtain ⟨head, accepted, clean⟩ := List.map_eq_singleton_iff.mp errors
  have found : ∃ head ∈ e.accepted, head.errors = [] := ⟨head, by simp [accepted], clean⟩
  refine ⟨e, run, found, accepts.mp found, heads, fun path reached => ?_⟩
  obtain ⟨other, listed, -⟩ := (lives path.reverse).mpr (path.reverse_reverse.symm ▸ reached)
  rw [heads] at listed
  cases listed

end GeneralizedLR
