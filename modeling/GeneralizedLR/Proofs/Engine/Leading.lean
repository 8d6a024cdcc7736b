import GeneralizedLR.Proofs.Engine.Reading

/-!
The branch in front. If every reduction shortens a stack by the same amount, then of all branches that
come to the same stack, the one that started with the shortest one is there first. So it is older
than the others, and a merge keeps it.
-/

set_option autoImplicit false
set_option relaxedAutoImplicit false

namespace GeneralizedLR

open Relation (ReflTransGen)

variable {K V : Type}

section Definitions

/-- If the branch made no repair, then its stack extends beyond the limit. -/
def Branch.Trails (extent : List Nat → Nat) (limit : Nat) (b : Branch K V) : Prop :=
  b.level = 0 → limit < extent (Frame.states b.frames)

def Branch.Misses (goal : List Nat) (b : Branch K V) : Prop :=
  b.level = 0 → Frame.states b.frames ≠ goal

/-- Of the branches with its path, the branch is the one to keep. -/
structure Branch.First (c : Branch K V) (branches : List (Branch K V)) : Prop where
  member : c ∈ branches
  others : ∀ b ∈ branches, b = c ∨ (Frame.states b.frames = Frame.states c.frames → c.rank < b.rank)

/-- One branch has the given stack and no repair, and all others trail behind it. -/
def Branch.Leads (extent : List Nat → Nat) (frames : List (Frame K V))
    (branches : List (Branch K V)) : Prop :=
  ∃ before serial behind, branches = before ++ { frames, serial } :: behind ∧
    ∀ b ∈ before ++ behind, b.Trails extent (extent (Frame.states frames))

variable [Token K]

/-- Before the token, every reduction shortens a stack by the same amount. -/
structure Table.Paced (t : Table) (token : K) (extent : List Nat → Nat) (pace : Nat) : Prop where
  positive : 0 < pace
  reduces : ∀ stack stack', t.Reduces token stack stack' → extent stack = extent stack' + pace

/-- Before the token, moves with the given fate lead to the goal only from stacks within the limit. -/
def Parser.Arrives (p : Parser K V) (token : K) (fate : Fate) (goal : List Nat)
    (extent : List Nat → Nat) (limit : Nat) : Prop :=
  ∀ frames made frames', p.movesOn token frames = .ok made → (fate, frames') ∈ made →
    Frame.states frames' = goal → extent (Frame.states frames) ≤ limit

/-- The branch made no repair, and before the token it comes to an end only within the limit. -/
structure Branch.Stops (p : Parser K V) (token : K) (extent : List Nat → Nat) (limit : Nat)
    (b : Branch K V) : Prop where
  clean : b.level = 0
  within : ∀ frames, ReflTransGen (p.table.Reduces token) (Frame.states b.frames)
    (Frame.states frames) → p.targets token frames = [] → p.rules token frames = [] →
      extent (Frame.states frames) ≤ limit

end Definitions

theorem Branch.First.exists_merge {c : Branch K V} {branches : List (Branch K V)}
    (first : c.First branches) :
    ∃ before behind, (Branch.merge branches).1 = before ++ c :: behind ∧
      ∀ b ∈ before ++ behind, Frame.states b.frames ≠ Frame.states c.frames := by
  obtain ⟨kept, survives, paths, ranks⟩ := exists_survivor_le Branch.path Branch.rank first.member
  have states : Frame.states kept.frames = Frame.states c.frames := by
    simpa [Branch.path, Frame.path_eq_reverse] using paths
  have same : kept = c := by
    rcases first.others kept (mem_of_mem_survivors survives) with same | better
    · exact same
    · exact absurd ranks (not_le.mpr (better states))
  subst same
  obtain ⟨before, behind, split⟩ := List.append_of_mem survives
  refine ⟨before, behind, split, fun b member equal => ?_⟩
  have distinct := nodup_map_key_survivors Branch.path Branch.rank branches
  rw [split, List.map_append, List.map_cons, List.nodup_middle, List.nodup_cons, ← List.map_append]
    at distinct
  refine distinct.1 (List.mem_map.mpr ⟨b, member, ?_⟩)
  rw [Branch.path, Branch.path, Frame.path_eq_reverse, Frame.path_eq_reverse, equal]

theorem Branch.Trails.mono {extent : List Nat → Nat} {limit near : Nat} {b : Branch K V}
    (trails : b.Trails extent limit) (le : near ≤ limit) : b.Trails extent near :=
  fun clean => le.trans_lt (trails clean)

theorem Table.Paced.reduct [Token K] {p : Parser K V} {token : K} {extent : List Nat → Nat}
    {pace production : Nat} (paced : p.table.Paced token extent pace)
    {frames frames' : List (Frame K V)} (entry : production ∈ p.rules token frames)
    (reduced : p.reduct token frames production = .ok (.waiting, frames')) :
    extent (Frame.states frames) = extent (Frame.states frames') + pace :=
  paced.reduces _ _ (Parser.reduces_states_iff.mpr ⟨production, entry, frames', reduced, rfl⟩)

theorem Parser.Hastens.extent_le [Token K] {p : Parser K V} {token : K} {extent : List Nat → Nat}
    {pace : Nat} {frames ready : List (Frame K V)} (hastens : p.Hastens token frames ready)
    (paced : p.table.Paced token extent pace) :
    extent (Frame.states ready) ≤ extent (Frame.states frames) := by
  induction hastens with
  | refl => exact le_rfl
  | step single reduced _ ih =>
    have shorter := paced.reduct (single ▸ List.mem_singleton_self _) reduced
    omega

namespace Branching

variable [Token K] {p : Parser K V} {token : K} {extent : List Nat → Nat}
  {pace limit far : Nat} {goal : List Nat} {fate : Fate} {s after : Branching K V} {b c : Branch K V}

private theorem exists_waiting_of_step (paced : p.table.Paced token extent pace)
    (trails : b.Trails extent (limit + pace)) (run : s.step p token b = .ok after) :
    ∃ more, after.waiting = s.waiting ++ more ∧ ∀ w ∈ more, w.Trails extent limit := by
  obtain ⟨made, found, rfl⟩ := step_eq_ok.mp run
  refine ⟨_, held_take_conclude s b made made.length .waiting, fun w forked clean => ?_⟩
  obtain ⟨frames, number, move, rfl⟩ := Branch.exists_move_of_mem_fork forked
  obtain ⟨production, entry, reduced⟩ :=
    (Parser.mem_moves_of_ne_shifted found Fate.noConfusion).mp move
  have shorter := paced.reduct entry reduced
  have beyond := trails clean
  change limit < extent (Frame.states frames)
  omega

private theorem misses_of_step (arrives : p.Arrives token fate goal extent limit)
    (trails : b.Trails extent limit) (missed : ∀ x ∈ s.held fate, x.Misses goal)
    (run : s.step p token b = .ok after) : ∀ x ∈ after.held fate, x.Misses goal := by
  obtain ⟨made, found, rfl⟩ := step_eq_ok.mp run
  intro x member clean there
  rcases mem_held_take_conclude fate member with old | ⟨frames, number, move, rfl⟩
  · exact missed x old clean there
  · have within := arrives b.frames made frames found move there
    have beyond := trails clean
    omega

private theorem first_of_step (first : c.First (s.held fate)) (clean : c.level = 0)
    (old : c.serial ≤ s.serial) (run : s.step p token b = .ok after) :
    c.First (after.held fate) ∧ c.serial ≤ after.serial := by
  obtain ⟨made, -, rfl⟩ := step_eq_ok.mp run
  have serial : ((s.take b made).conclude b made.length).serial = s.serial + made.length := by
    unfold Branching.conclude
    split <;> rfl
  refine ⟨⟨?_, fun x member => ?_⟩, by omega⟩
  · rw [held_take_conclude]
    exact List.mem_append_left _ first.member
  · rw [held_take_conclude] at member
    rcases List.mem_append.mp member with known | forked
    · exact first.others x known
    · have younger := Branch.serial_lt_of_mem_fork forked
      refine .inr fun _ => Prod.Lex.toLex_lt_toLex.mpr ?_
      rcases Nat.eq_zero_or_pos x.level with none | some
      · exact .inr ⟨clean.trans none.symm, by omega⟩
      · exact .inl (by omega)

private theorem first_of_foldlM {branches : List (Branch K V)} (first : c.First (s.held fate))
    (clean : c.level = 0) (old : c.serial ≤ s.serial)
    (run : branches.foldlM (Branching.step p token) s = .ok after) :
    c.First (after.held fate) ∧ c.serial ≤ after.serial :=
  foldlM_keeps (fun x : Branching K V => c.First (x.held fate) ∧ c.serial ≤ x.serial)
    (fun _ _ _ _ held one => first_of_step held.1 clean held.2 one) ⟨first, old⟩ run

omit [Token K] in
private theorem held_cleared (s : Branching K V) (fate : Fate) :
    ({ s with live := [] } : Branching K V).held fate = s.held fate := by
  cases fate <;> rfl

omit [Token K] in
private theorem held_turned (s : Branching K V) (turns : fate ≠ .waiting) :
    ({ s with live := s.waiting, waiting := [] } : Branching K V).held fate = s.held fate := by
  cases fate with
  | waiting => exact absurd rfl turns
  | shifted => rfl
  | accepted => rfl

private theorem first_of_pass {fuel : Nat} (first : c.First (s.held fate)) (clean : c.level = 0)
    (old : c.serial ≤ s.serial) (turns : fate ≠ .waiting) (run : s.pass p token fuel = .ok after) :
    c.First (after.held fate) := by
  induction fuel generalizing s with
  | zero =>
    unfold Branching.pass at run
    split at run
    · cases run
      exact first
    · cases run
  | succ fuel ih =>
    unfold Branching.pass at run
    split at run
    · cases run
      exact first
    · obtain ⟨s', stepped, rest⟩ := exists_of_bind_eq_ok run
      have cleared : c.First (({ s with live := [] } : Branching K V).held fate) := by
        rw [held_cleared]
        exact first
      have kept := first_of_foldlM cleared clean old stepped
      have turned : c.First
          (({ s' with live := s'.waiting, waiting := [] } : Branching K V).held fate) := by
        rw [held_turned s' turns]
        exact kept.1
      exact ih turned kept.2 rest

private theorem waiting_of_step {frames frames' : List (Frame K V)} {production serial : Nat}
    (single : p.rules token frames = [production])
    (reduced : p.reduct token frames production = .ok (.waiting, frames'))
    (run : s.step p token { frames, serial } = .ok after) :
    ∃ number, after.waiting = s.waiting ++ [{ frames := frames', serial := number }] := by
  obtain ⟨made, found, rfl⟩ := step_eq_ok.mp run
  have moves : made = (p.targets token frames).map
      (fun target => (.shifted, ⟨target, .lexeme token⟩ :: frames)) ++ [(.waiting, frames')] := by
    simp only [Parser.movesOn, Parser.moves, single, List.mapM_cons, List.mapM_nil, reduced] at found
    cases found
    rfl
  have none : Fate.waiting.select (Branch.fork ({ frames, serial } : Branch K V) s.serial
      ((p.targets token frames).map fun target => (.shifted, ⟨target, .lexeme token⟩ :: frames))) =
        [] := by
    refine List.eq_nil_iff_forall_not_mem.mpr fun x forked => ?_
    obtain ⟨_, _, move, -⟩ := Branch.exists_move_of_mem_fork forked
    simp at move
  have held := held_take_conclude s { frames, serial } made made.length .waiting
  rw [moves, Branch.fork_append, Fate.select_append, none, ← moves] at held
  exact ⟨_, held⟩

private theorem held_of_step {frames frames' : List (Frame K V)} {serial : Nat}
    (last : p.movesOn token frames = .ok [(fate, frames')])
    (run : s.step p token { frames, serial } = .ok after) :
    after.held fate = s.held fate ++ [{ frames := frames', serial := s.serial + 1 }] ∧
      after.serial = s.serial + 1 := by
  obtain ⟨made, found, rfl⟩ := step_eq_ok.mp run
  cases last.symm.trans found
  refine ⟨?_, rfl⟩
  rw [held_take_conclude]
  simp only [Branch.fork, Fate.select_cons, Fate.select_nil, if_pos]

private theorem exists_waiting_of_foldlM {branches : List (Branch K V)}
    (paced : p.table.Paced token extent pace)
    (trails : ∀ b ∈ branches, b.Trails extent (limit + pace))
    (run : branches.foldlM (Branching.step p token) s = .ok after) :
    ∃ more, after.waiting = s.waiting ++ more ∧ ∀ w ∈ more, w.Trails extent limit := by
  refine foldlM_keeps (fun x : Branching K V =>
    ∃ more, x.waiting = s.waiting ++ more ∧ ∀ w ∈ more, w.Trails extent limit)
    (fun x b y member held one => ?_) ⟨[], by simp, by simp⟩ run
  obtain ⟨more, eq, behind⟩ := held
  obtain ⟨more', eq', behind'⟩ := exists_waiting_of_step paced (trails b member) one
  refine ⟨more ++ more', by rw [eq', eq, List.append_assoc], fun w listed => ?_⟩
  exact (List.mem_append.mp listed).elim (behind w) (behind' w)

private theorem misses_of_foldlM {branches : List (Branch K V)}
    (arrives : p.Arrives token fate goal extent limit)
    (trails : ∀ b ∈ branches, b.Trails extent limit) (missed : ∀ x ∈ s.held fate, x.Misses goal)
    (run : branches.foldlM (Branching.step p token) s = .ok after) :
    ∀ x ∈ after.held fate, x.Misses goal :=
  foldlM_keeps (fun x : Branching K V => ∀ b ∈ x.held fate, b.Misses goal)
    (fun _ b _ member held one => misses_of_step arrives (trails b member) held one) missed run

private theorem exists_round_of_leads {frames : List (Frame K V)} {fuel : Nat}
    (leads : Branch.Leads extent frames s.live) (run : s.pass p token fuel = .ok after) :
    ∃ (before behind : List (Branch K V)) (serial rounds : Nat) (x y z : Branching K V),
      s.live = before ++ { frames, serial } :: behind ∧
        (∀ b ∈ before ++ behind, b.Trails extent (extent (Frame.states frames))) ∧
        before.foldlM (Branching.step p token) { s with live := [] } = .ok x ∧
          x.step p token { frames, serial } = .ok y ∧
            behind.foldlM (Branching.step p token) y = .ok z ∧
              Branching.pass p token rounds { z with live := z.waiting, waiting := [] } =
                .ok after := by
  obtain ⟨before, serial, behind, live, trails⟩ := leads
  obtain ⟨rounds, z, -, round, rest⟩ := exists_round_of_pass run
    (b := { frames, serial }) (by simp [live])
  rw [live, List.foldlM_append] at round
  obtain ⟨x, first, round⟩ := exists_of_bind_eq_ok round
  obtain ⟨y, front, last⟩ := exists_of_bind_eq_ok round
  exact ⟨before, behind, serial, rounds, x, y, z, live, trails, first, front, last, rest⟩

private theorem leads_of_round (paced : p.table.Paced token extent pace)
    {frames middle : List (Frame K V)} {production serial : Nat}
    (single : p.rules token frames = [production])
    (reduced : p.reduct token frames production = .ok (.waiting, middle))
    {before behind : List (Branch K V)} {x y z : Branching K V}
    (trails : ∀ b ∈ before ++ behind, b.Trails extent (extent (Frame.states frames)))
    (waiting : s.waiting = [])
    (first : before.foldlM (Branching.step p token) { s with live := [] } = .ok x)
    (front : x.step p token { frames, serial } = .ok y)
    (back : behind.foldlM (Branching.step p token) y = .ok z) :
    Branch.Leads extent middle z.waiting := by
  have shorter := paced.reduct (single ▸ List.mem_singleton_self _) reduced
  rw [shorter] at trails
  obtain ⟨left, eq₁, trails₁⟩ := exists_waiting_of_foldlM paced
    (fun b member => trails b (List.mem_append_left _ member)) first
  obtain ⟨number, eq₂⟩ := waiting_of_step single reduced front
  obtain ⟨right, eq₃, trails₃⟩ := exists_waiting_of_foldlM paced
    (fun b member => trails b (List.mem_append_right _ member)) back
  refine ⟨left, number, right, by simp [eq₃, eq₂, eq₁, waiting], fun b member => ?_⟩
  exact (List.mem_append.mp member).elim (trails₁ b) (trails₃ b)

theorem exists_first_of_pass {frames ready frames' : List (Frame K V)}
    (hastens : p.Hastens token frames ready) (paced : p.table.Paced token extent pace)
    (last : p.movesOn token ready = .ok [(fate, frames')]) (turns : fate ≠ .waiting)
    (arrives : p.Arrives token fate (Frame.states frames') extent (extent (Frame.states ready)))
    (leads : Branch.Leads extent frames s.live) (waiting : s.waiting = [])
    (missed : ∀ x ∈ s.held fate, x.Misses (Frame.states frames')) {fuel : Nat}
    (run : s.pass p token fuel = .ok after) :
    ∃ serial, ({ frames := frames', serial } : Branch K V).First (after.held fate) := by
  induction hastens generalizing s fuel with
  | refl ready =>
    obtain ⟨before, behind, serial, rounds, x, y, z, -, trails, first, front, back, rest⟩ :=
      exists_round_of_leads leads run
    have missed' := misses_of_foldlM arrives (fun b member => trails b (List.mem_append_left _ member))
      (held_cleared s fate ▸ missed) first
    obtain ⟨held, serials⟩ := held_of_step last front
    have leader : ({ frames := frames', serial := x.serial + 1 } : Branch K V).First (y.held fate) := by
      rw [held]
      refine ⟨by simp, fun b member => ?_⟩
      rcases List.mem_append.mp member with old | new
      · refine .inr fun there => Prod.Lex.toLex_lt_toLex.mpr (.inl ?_)
        exact Nat.pos_of_ne_zero fun clean => missed' b old clean there
      · exact .inl (List.mem_singleton.mp new)
    obtain ⟨kept, old⟩ := first_of_foldlM leader rfl (Nat.le_of_eq serials.symm) back
    rw [← held_turned z turns] at kept
    exact ⟨x.serial + 1, first_of_pass kept rfl old turns rest⟩
  | @step frames middle ready production single reduced hastens ih =>
    obtain ⟨before, behind, serial, rounds, x, y, z, -, trails, first, front, back, rest⟩ :=
      exists_round_of_leads leads run
    have shorter := paced.reduct (single ▸ List.mem_singleton_self _) reduced
    have near := hastens.extent_le paced
    have positive := paced.positive
    have ahead : extent (Frame.states ready) < extent (Frame.states frames) := by omega
    have early : ∀ b ∈ before ++ behind, b.Trails extent (extent (Frame.states ready)) :=
      fun b member => (trails b member).mono ahead.le
    have missed₁ := misses_of_foldlM arrives (fun b member => early b (List.mem_append_left _ member))
      (held_cleared s fate ▸ missed) first
    have missed₂ := misses_of_step arrives (fun _ => ahead) missed₁ front
    have missed₃ := misses_of_foldlM arrives
      (fun b member => early b (List.mem_append_right _ member)) missed₂ back
    have leads' := leads_of_round paced single reduced trails waiting first front back
    rw [← held_turned z turns] at missed₃
    exact ih last arrives leads' rfl missed₃ rest

private theorem stranded_of_step (stops : b.Stops p token extent limit)
    (trails : b.Trails extent limit) (waits : ∀ w ∈ s.waiting, w.Stops p token extent limit)
    (run : s.step p token b = .ok after) :
    after.stranded = s.stranded ∧ ∀ w ∈ after.waiting, w.Stops p token extent limit := by
  obtain ⟨made, found, rfl⟩ := step_eq_ok.mp run
  refine ⟨?_, fun w member => ?_⟩
  · have some : made.length ≠ 0 := by
      intro none
      have count := Parser.length_moves found
      have within := stops.within b.frames .refl (List.length_eq_zero_iff.mp (by omega))
        (List.length_eq_zero_iff.mp (by omega))
      have beyond := trails stops.clean
      omega
    rw [conclude_stranded, if_neg some, List.append_nil]
    rfl
  · rcases mem_held_take_conclude .waiting member with old | ⟨frames, number, move, rfl⟩
    · exact waits w old
    · obtain ⟨production, entry, reduced⟩ :=
        (Parser.mem_moves_of_ne_shifted found Fate.noConfusion).mp move
      exact ⟨stops.clean, fun last chain => stops.within last (.head
        (Parser.reduces_states_iff.mpr ⟨production, entry, frames, reduced, rfl⟩) chain)⟩

private theorem stranded_of_foldlM {branches : List (Branch K V)}
    (stops : ∀ b ∈ branches, b.Stops p token extent limit)
    (trails : ∀ b ∈ branches, b.Trails extent limit)
    (waits : ∀ w ∈ s.waiting, w.Stops p token extent limit)
    (run : branches.foldlM (Branching.step p token) s = .ok after) :
    after.stranded = s.stranded ∧ ∀ w ∈ after.waiting, w.Stops p token extent limit := by
  refine foldlM_keeps (fun x : Branching K V =>
    x.stranded = s.stranded ∧ ∀ w ∈ x.waiting, w.Stops p token extent limit)
    (fun x b y member held one => ?_) ⟨rfl, waits⟩ run
  obtain ⟨same, waits'⟩ := stranded_of_step (stops b member) (trails b member) held.2 one
  exact ⟨same.trans held.1, waits'⟩

theorem exists_stranded_of_pass {frames ready : List (Frame K V)}
    (hastens : p.Hastens token frames ready) (paced : p.table.Paced token extent pace)
    (stuck : p.movesOn token ready = .ok []) (leads : Branch.Leads extent frames s.live)
    (stops : ∀ b ∈ s.live, b.Stops p token extent (extent (Frame.states ready)))
    (waiting : s.waiting = []) (none : s.stranded = []) {fuel : Nat}
    (run : s.pass p token fuel = .ok after) :
    ∃ serial rest, after.stranded = { frames := ready, serial } :: rest := by
  induction hastens generalizing s fuel with
  | refl ready =>
    obtain ⟨before, behind, serial, rounds, x, y, z, live, trails, first, front, back, rest⟩ :=
      exists_round_of_leads leads run
    obtain ⟨same, -⟩ := stranded_of_foldlM (fun b member => stops b (by simp [live, member]))
      (fun b member => trails b (List.mem_append_left _ member)) (by simp [waiting]) first
    have early : x.stranded = [] := same.trans none
    obtain ⟨made, found, rfl⟩ := step_eq_ok.mp front
    cases found.symm.trans stuck
    have kept := (foldlM_step_grows back).stranded.trans (pass_grows rest).2
    rw [conclude_stranded, take_nil, early, List.length_nil, if_pos rfl, List.nil_append] at kept
    obtain ⟨more, same⟩ := kept
    exact ⟨serial, more, same.symm⟩
  | @step frames middle ready production single reduced hastens ih =>
    obtain ⟨before, behind, serial, rounds, x, y, z, live, trails, first, front, back, rest⟩ :=
      exists_round_of_leads leads run
    have shorter := paced.reduct (single ▸ List.mem_singleton_self _) reduced
    have near := hastens.extent_le paced
    have positive := paced.positive
    have ahead : extent (Frame.states ready) < extent (Frame.states frames) := by omega
    have early : ∀ b ∈ before ++ behind, b.Trails extent (extent (Frame.states ready)) :=
      fun b member => (trails b member).mono ahead.le
    obtain ⟨same₁, waits₁⟩ := stranded_of_foldlM (fun b member => stops b (by simp [live, member]))
      (fun b member => early b (List.mem_append_left _ member)) (by simp [waiting]) first
    obtain ⟨same₂, waits₂⟩ := stranded_of_step (stops _ (by simp [live])) (fun _ => ahead) waits₁ front
    obtain ⟨same₃, waits₃⟩ := stranded_of_foldlM (fun b member => stops b (by simp [live, member]))
      (fun b member => early b (List.mem_append_right _ member)) waits₂ back
    have leads' := leads_of_round paced single reduced trails waiting first front back
    have none' : z.stranded = [] := ((same₃.trans same₂).trans same₁).trans none
    exact ih (s := { z with live := z.waiting, waiting := [] }) stuck leads' waits₃ rfl none' rest

private theorem exists_merge_of_advance {frames ready frames' : List (Frame K V)}
    (hastens : p.Hastens token frames ready) (paced : p.table.Paced token extent pace)
    (last : p.movesOn token ready = .ok [(fate, frames')]) (turns : fate ≠ .waiting)
    (arrives : p.Arrives token fate (Frame.states frames') extent (extent (Frame.states ready)))
    (leads : Branch.Leads extent frames s.live) (waiting : s.waiting = []) (none : s.held fate = [])
    {fuel rounds : Nat} (run : s.advance Branch.merge fuel p token rounds = .ok after) :
    ∃ before serial behind, (Branch.merge (after.held fate)).1 =
        before ++ ({ frames := frames', serial } : Branch K V) :: behind ∧
      ∀ b ∈ before ++ behind, Frame.states b.frames ≠ Frame.states frames' := by
  cases rounds with
  | zero => cases run
  | succ rounds =>
    obtain ⟨passed, pass, -⟩ := exists_of_bind_eq_ok run
    obtain ⟨serial, first⟩ := exists_first_of_pass hastens paced last turns arrives leads waiting
      (by simp [none]) pass
    have settled : passed.shifted ≠ [] ∨ s.accepted.length < passed.accepted.length ∨
        passed.stranded = [] := by
      cases fate with
      | waiting => exact absurd rfl turns
      | shifted => exact .inl (List.ne_nil_of_mem first.member)
      | accepted =>
        have some : 0 < passed.accepted.length := List.length_pos_of_mem first.member
        exact .inr (.inl (by rw [show s.accepted = [] from none]; exact some))
    rw [Branching.advance_of_settled Branch.merge pass settled rounds] at run
    cases run
    obtain ⟨before, behind, kept, others⟩ := first.exists_merge
    exact ⟨before, serial, behind, kept, others⟩

theorem Idle.exists_live {frames ready frames' : List (Frame K V)} (idle : s.Idle)
    (hastens : p.Hastens token frames ready) (paced : p.table.Paced token extent pace)
    (last : p.movesOn token ready = .ok [(.shifted, frames')])
    (leads : Branch.Leads extent frames s.live) {fuel : Nat}
    (run : s.input Branch.merge fuel p token = .ok after) :
    ∃ before serial behind,
      after.live = before ++ ({ frames := frames', serial } : Branch K V) :: behind ∧
        ∀ b ∈ before ++ behind, Frame.states b.frames ≠ Frame.states frames' := by
  obtain ⟨advanced, moved, settled⟩ := exists_of_bind_eq_ok run
  cases settled
  have arrives : p.Arrives token .shifted (Frame.states frames') extent
      (extent (Frame.states ready)) := by
    obtain ⟨target, -, rfl⟩ := (Parser.mem_moves_shifted last).mp (List.mem_singleton_self _)
    intro other made other' found move there
    obtain ⟨target', -, rfl⟩ := (Parser.mem_moves_shifted found).mp move
    have same : Frame.states other = Frame.states ready := (List.cons.inj there).2
    exact (congrArg extent same).le
  refine exists_merge_of_advance hastens paced last Fate.noConfusion arrives ?_ ?_ ?_ moved
  · exact leads
  · exact idle.waiting
  · exact idle.shifted

theorem Idle.exists_accepted {frames ready frames' : List (Frame K V)} (idle : s.Idle)
    (hastens : p.Hastens token frames ready) (paced : p.table.Paced token extent pace)
    (last : p.movesOn token ready = .ok [(.accepted, frames')])
    (arrives : p.Arrives token .accepted (Frame.states frames') extent
      (extent (Frame.states ready)))
    (leads : Branch.Leads extent frames s.live) (none : s.accepted = []) {fuel : Nat}
    (run : s.input Branch.merge fuel p token = .ok after) :
    ∃ serial, ({ frames := frames', serial } : Branch K V) ∈ after.accepted := by
  obtain ⟨advanced, moved, settled⟩ := exists_of_bind_eq_ok run
  cases settled
  have merged : ∃ before serial behind, (Branch.merge (advanced.held .accepted)).1 =
        before ++ ({ frames := frames', serial } : Branch K V) :: behind ∧
      ∀ b ∈ before ++ behind, Frame.states b.frames ≠ Frame.states frames' := by
    refine exists_merge_of_advance hastens paced last Fate.noConfusion arrives ?_ ?_ ?_ moved
    · exact leads
    · exact idle.waiting
    · exact none
  obtain ⟨before, serial, behind, kept, -⟩ := merged
  refine ⟨serial, ?_⟩
  change _ ∈ (Branch.merge (advanced.held .accepted)).1
  rw [kept]
  simp

end Branching

end GeneralizedLR
