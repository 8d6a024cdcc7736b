import GeneralizedLR.Proofs.Engine.Blame
import GeneralizedLR.Proofs.Engine.Completion
import GeneralizedLR.Proofs.Engine.Echo
import GeneralizedLR.Proofs.Engine.Leading

/-!
The token that a deletion drops. Where no live stack is reduced before it, the stacks behind it are
those before it, in their old order and in front of those with an insertion. Where all of them are
reduced to one stack, it is the one that the branch in front comes to.
-/

set_option autoImplicit false
set_option relaxedAutoImplicit false

namespace GeneralizedLR

open Relation (ReflTransGen)

variable {K V : Type} [Token K] {p : Parser K V} {token : K}

/-- Before the token the stacks are all reduced to one and the same. It has no action for the token, and
no insertion makes it go on. -/
structure Table.Collapses (t : Table) (token : K) (begun : List Nat → Prop) (last : List Nat) :
    Prop where
  still : ∀ stack, begun stack → ¬ t.Proceeds token stack
  same : ∀ stack stuck, begun stack → ReflTransGen (t.Reduces token) stack stuck →
    t.Strands token stuck → stuck = last
  strands : t.Strands token last
  barren : ∀ terminal ∈ t.insertable, ∀ ready after, ReflTransGen (t.Prepares terminal) last ready →
    t.Inserts terminal ready after → ¬ t.Proceeds token after

namespace Branching

variable {s u after passed : Branching K V} {fuel fuel' : Nat}

theorem exists_pass_of_input (run : s.input Branch.merge fuel p token = .ok after) :
    ∃ stats passed, Branching.pass p token fuel { s with stats } = .ok passed ∧
      (((passed.shifted ≠ [] ∨ s.accepted.length < passed.accepted.length ∨ passed.stranded = []) ∧
          after = passed.settle Branch.merge) ∨
        ((passed.shifted = [] ∧ passed.accepted.length ≤ s.accepted.length ∧ passed.stranded ≠ []) ∧
          ∃ recovered rounds advanced,
            passed.recover Branch.merge fuel p token = .ok recovered ∧
              recovered.advance Branch.merge fuel p token rounds = .ok advanced ∧
                after = advanced.settle Branch.merge)) := by
  obtain ⟨advanced, moved, settled⟩ := exists_of_bind_eq_ok run
  cases settled
  cases fuel with
  | zero => cases moved
  | succ fuel =>
    obtain ⟨passed, first, -⟩ := exists_of_bind_eq_ok moved
    refine ⟨_, passed, first, ?_⟩
    by_cases settled : passed.shifted ≠ [] ∨ s.accepted.length < passed.accepted.length ∨
        passed.stranded = []
    · rw [advance_of_settled Branch.merge first settled] at moved
      cases moved
      exact .inl ⟨settled, rfl⟩
    · have stuck : passed.shifted = [] ∧ passed.accepted.length ≤ s.accepted.length ∧
          passed.stranded ≠ [] := by
        simpa [not_or] using settled
      rw [advance_eq_recover Branch.merge first stuck.1 stuck.2.1 stuck.2.2] at moved
      obtain ⟨recovered, again, rest⟩ := exists_of_bind_eq_ok moved
      exact .inr ⟨stuck, recovered, fuel, advanced, again, rest, rfl⟩

private theorem exists_pass_of_advance {rounds : Nat}
    (run : s.advance Branch.merge fuel p token rounds = .ok after) :
    ∃ passed, s.pass p token fuel = .ok passed ∧ (passed.shifted ≠ [] → passed = after) := by
  obtain ⟨passed, first, -⟩ := advance_keeps run
  refine ⟨passed, first, fun kept => ?_⟩
  cases rounds with
  | zero => cases run
  | succ rounds =>
    rw [advance_of_settled Branch.merge first (.inl kept)] at run
    exact Except.ok.inj run

section Delete

private theorem foldlM_step_stuck {branches : List (Branch K V)}
    (stuck : ∀ b ∈ branches, p.targets token b.frames = [] ∧ p.rules token b.frames = [])
    (run : branches.foldlM (Branching.step p token) s = .ok after) :
    (after.shifted = s.shifted ∧ after.waiting = s.waiting ∧ after.accepted = s.accepted) ∧
      after.stranded = s.stranded ++ branches := by
  induction branches generalizing s with
  | nil =>
    cases run
    simp
  | cons b branches ih =>
    rw [List.foldlM_cons] at run
    obtain ⟨stepped, one, rest⟩ := exists_of_bind_eq_ok run
    obtain ⟨made, found, rfl⟩ := step_eq_ok.mp one
    obtain ⟨targets, rules⟩ := stuck b (List.mem_cons_self ..)
    have none : made = [] := by
      have count := Parser.length_moves found
      rw [targets, rules] at count
      exact List.length_eq_zero_iff.mp count
    subst none
    obtain ⟨kept, stranded⟩ := ih (fun b' member => stuck b' (List.mem_cons_of_mem _ member)) rest
    rw [Branching.take_nil] at kept stranded
    refine ⟨kept, ?_⟩
    rw [stranded, conclude_stranded, List.append_assoc]
    rfl

private theorem pass_stuck (idle : s.Idle)
    (stuck : ∀ b ∈ s.live, p.targets token b.frames = [] ∧ p.rules token b.frames = [])
    (run : s.pass p token fuel = .ok after) :
    after.shifted = [] ∧ after.accepted = s.accepted ∧ after.stranded = s.live := by
  obtain ⟨rounds, stepped, round, rest⟩ := exists_turn_of_pass run idle.waiting
  obtain ⟨⟨shifted, waiting, accepted⟩, stranded⟩ := foldlM_step_stuck stuck round
  have none : stepped.waiting = [] := waiting.trans idle.waiting
  rw [Branching.pass_nil none] at rest
  cases rest
  refine ⟨shifted.trans idle.shifted, accepted, ?_⟩
  rw [show ({ stepped with live := stepped.waiting, waiting := [] } : Branching K V).stranded =
    stepped.stranded from rfl, stranded, idle.stranded, List.nil_append]

private theorem foldlM_repair_shifted {branches : List (Branch K V)} {level : Nat}
    (goes : Token.isEnd token = false) (same : ∀ b ∈ branches, b.level = level)
    (aged : Branch.Aged (level + 1) s.serial s.shifted)
    (run : branches.foldlM (repair fuel p token) s = .ok after) :
    after.shifted.map Branch.sketch = s.shifted.map Branch.sketch ++
        branches.map (fun b => (b.frames, b.errors ++ [unexpected token])) ∧
      Branch.Aged (level + 1) after.serial after.shifted ∧ after.accepted = s.accepted := by
  induction branches generalizing s with
  | nil =>
    cases run
    simp [aged]
  | cons b branches ih =>
    rw [List.foldlM_cons] at run
    obtain ⟨repaired, one, rest⟩ := exists_of_bind_eq_ok run
    obtain ⟨shifted, accepted, older⟩ := repair_shifted goes one
    have aged' : Branch.Aged (level + 1) repaired.serial repaired.shifted := by
      rw [shifted]
      refine aged.append ((Nat.le_succ _).trans older) ⟨List.pairwise_singleton _ _, ?_, ?_⟩ ?_
      · intro b' member
        obtain rfl := List.mem_singleton.mp member
        exact congrArg (· + 1) (same b (List.mem_cons_self ..))
      · intro b' member
        obtain rfl := List.mem_singleton.mp member
        exact older
      · intro b' member
        obtain rfl := List.mem_singleton.mp member
        exact Nat.lt_succ_self _
    obtain ⟨sketches, ages, kept⟩ :=
      ih (fun b' member => same b' (List.mem_cons_of_mem _ member)) aged' rest
    refine ⟨?_, ages, kept.trans accepted⟩
    rw [sketches, shifted, List.map_append, List.append_assoc]
    rfl

private theorem contract_insert (p : Parser K V) (token : K) :
    Contract p token (fun b => b.errors = [] ∧ b.level = 0) (fun _ b => b.errors = [] ∧ b.level = 0)
      (fun b => (∃ terminal, b.errors = [missing p token terminal]) ∧ b.level = 1)
      (fun _ => True) (fun _ => True) where
  shift _ _ _ _ _ := trivial
  reduce _ _ _ clean _ _ _ := clean
  accept _ _ _ _ _ _ _ := trivial
  delete _ _ _ _ := trivial
  queue _ clean _ _ := clean
  prepare _ _ _ _ _ clean _ _ _ := clean
  insert terminal _ b _ clean _ _ :=
    ⟨⟨terminal, by simp [Branch.repaired, clean.1]⟩, congrArg (· + 1) clean.2⟩

private theorem recover_drops (goes : Token.isEnd token = false) (empty : s.live = [])
    (waiting : s.waiting = []) (shifted : s.shifted = []) (accepted : s.accepted = [])
    (clean : ∀ b ∈ s.stranded, b.errors = [] ∧ b.level = 0)
    (run : s.recover Branch.merge fuel p token = .ok after) :
    after.shifted.map Branch.sketch = s.stranded.map (fun b => (b.frames, [unexpected token])) ∧
      after.accepted = [] ∧ after.Ages 1 ∧ ∀ b ∈ after.live, b.errors ≠ [unexpected token] := by
  have inserted := ((contract_insert p token).recover selects_merge
    ⟨by simp [empty], by simp [waiting], fun _ _ => trivial, clean, fun _ _ => trivial⟩ waiting run).alive
  obtain ⟨dropped, repaired, done⟩ := exists_of_bind_eq_ok run
  cases done
  obtain ⟨sketches, aged, accepted'⟩ := foldlM_repair_shifted (s := { s with stranded := [] }) goes
    (fun b member => (clean b member).2) (by simpa [shifted] using .nil) repaired
  have none : dropped.accepted = [] := accepted'.trans accepted
  refine ⟨?_, none, ⟨fun b member => (inserted b member).2, fun fate => ?_⟩, fun b member => ?_⟩
  · rw [sketches, shifted, List.map_nil, List.nil_append]
    exact List.map_congr_left fun b member => by rw [(clean b member).1, List.nil_append]
  · cases fate with
    | shifted => exact aged
    | waiting => exact .nil
    | accepted => simpa [held, none] using .nil
  · obtain ⟨⟨terminal, same⟩, -⟩ := inserted b member
    simp [same, missing, unexpected]

theorem Idle.input_drops (idle : s.Idle) (quiet : s.accepted = [])
    (clean : ∀ b ∈ s.live, b.errors = [] ∧ b.level = 0) (alive : s.live ≠ [])
    (stuck : ∀ b ∈ s.live, p.targets token b.frames = [] ∧ p.rules token b.frames = [])
    (goes : Token.isEnd token = false) (run : s.input Branch.merge fuel p token = .ok after) :
    Echo [unexpected token] (s.live.map Branch.sketch) (after.live.map Branch.sketch) ∧
      ∀ b ∈ after.live, b.level = 1 := by
  obtain ⟨stats, passed, first, settled⟩ := exists_pass_of_input run
  have idle' : ({ s with stats } : Branching K V).Idle := { idle with }
  obtain ⟨shifted, accepted, stranded⟩ := pass_stuck idle' stuck first
  replace stranded : passed.stranded = s.live := stranded
  replace accepted : passed.accepted = [] := accepted.trans quiet
  obtain ⟨empty, waiting⟩ := pass_eq_ok first idle.waiting
  rcases settled with ⟨settled, -⟩ | ⟨-, recovered, rounds, advanced, again, rest, rfl⟩
  · simp [shifted, accepted, stranded, alive] at settled
  obtain ⟨sketches, none, ages, inserted⟩ :=
    recover_drops goes empty waiting shifted accepted (stranded ▸ clean) again
  rw [stranded] at sketches
  have same : (recovered.shifted.map Branch.sketch).map (·.1) =
      (s.live.map Branch.sketch).map (·.1) := by
    rw [sketches, List.map_map, List.map_map]
    rfl
  have echoes : Echoes [unexpected token] { s with live := [], shifted := s.live, accepted := [] }
      recovered :=
    ⟨.of_nil fun y member => by
      obtain ⟨b, lives, rfl⟩ := List.mem_map.mp member
      exact inserted b lives, .of_map_eq same, by rw [none]; exact .of_nil fun _ => (nomatch ·)⟩
  obtain ⟨last, rerun, settled⟩ := exists_pass_of_advance rest
  have kept : last.shifted ≠ [] := by
    intro gone
    have none := List.prefix_nil.mp (gone ▸ (pass_grows rerun).1.shifted)
    rw [none] at same
    exact alive (by simpa using same.symm)
  obtain rfl := settled kept
  have passed' := echoes.pass idle.waiting (recover_keeps again).2.1
    (Branching.pass_nil rfl fuel) rerun
  have aged := (ages.pass rerun).held .shifted
  exact ⟨passed'.shifted.merge_right aged, fun b member =>
    aged.level b (mem_of_mem_survivors member)⟩

section Collapse

variable {extent : List Nat → Nat} {pace : Nat} {last : List Nat}

private theorem movesOn_of_strands {frames : List (Frame K V)}
    (strands : p.table.Strands token (Frame.states frames)) : p.movesOn token frames = .ok [] := by
  obtain ⟨targets, rules⟩ := Parser.strands_states_iff.mp strands
  rw [Parser.movesOn, targets, rules]
  rfl

private theorem turns_collapsing {begun : List Nat → Prop}
    (collapses : p.table.Collapses token begun last) :
    Turns p token
      (fun b => (b.errors = [] ∧ b.level = 0) ∧
        ∃ stack, begun stack ∧ ReflTransGen (p.table.Reduces token) stack (Frame.states b.frames))
      (fun _ => True)
      (fun b => (b.errors = [] ∧ b.level = 0) ∧ Frame.states b.frames = last) (fun _ => True) where
  shift _ _ _ _ _ := trivial
  reduce := by
    rintro b serial frames ⟨clean, stack, listed, chain⟩ production entry reduced
    exact ⟨clean, stack, listed, chain.tail
      (Parser.reduces_states_iff.mpr ⟨production, entry, frames, reduced, rfl⟩)⟩
  accept _ _ _ _ _ _ _ := trivial
  strand := by
    rintro b ⟨clean, stack, listed, chain⟩ targets rules
    exact ⟨clean, collapses.same stack _ listed chain
      (Parser.strands_states_iff.mpr ⟨targets, rules⟩)⟩

private theorem contract_collapsed {begun : List Nat → Prop}
    (collapses : p.table.Collapses token begun last) :
    Contract p token (fun b => Frame.states b.frames = last)
      (fun terminal b => ReflTransGen (p.table.Prepares terminal) last (Frame.states b.frames))
      (fun b => ¬ p.table.Proceeds token (Frame.states b.frames)) (fun _ => True) (fun _ => True) where
  shift _ _ _ _ _ := trivial
  reduce := by
    rintro b serial frames there production entry -
    have strands := collapses.strands
    rw [← there] at strands
    simp [(Parser.strands_states_iff.mp strands).2] at entry
  accept _ _ _ _ _ _ _ := trivial
  delete _ _ _ _ := trivial
  queue _ there _ _ := there ▸ .refl
  prepare := by
    rintro terminal - b serial frames chain production entry reduced
    exact chain.tail
      ((Parser.prepares_states_iff token).mpr ⟨production, entry, frames, reduced, rfl⟩)
  insert := by
    rintro terminal insertable b serial chain target entry
    exact collapses.barren terminal insertable _ _ chain
      (Parser.inserts_states_iff.mpr ⟨target, entry, rfl⟩)

omit [Token K] in
private theorem merge_eq_singleton {b : Branch K V} {rest : List (Branch K V)} {level serial : Nat}
    (aged : Branch.Aged level serial (b :: rest))
    (same : ∀ b' ∈ rest, Frame.states b'.frames = Frame.states b.frames) :
    (Branch.merge (b :: rest)).1 = [b] := by
  have paths : ∀ b' ∈ b :: rest, b'.path = b.path := by
    intro b' member
    rcases List.mem_cons.mp member with rfl | member
    · rfl
    · rw [Branch.path, Branch.path, Frame.path_eq_reverse, Frame.path_eq_reverse, same b' member]
  obtain ⟨kept, -, single⟩ :=
    exists_survivors_eq_singleton Branch.rank paths (List.cons_ne_nil b rest)
  obtain ⟨before, behind, split, none⟩ : ∃ before behind,
      survivors Branch.path Branch.rank ([] ++ b :: rest) = before ++ b :: behind ∧
        ∀ b' ∈ before, b' ∈ ([] : List (Branch K V)) :=
    exists_survivors_of_split aged.ranks (by simp)
  obtain rfl := List.eq_nil_iff_forall_not_mem.mpr fun b' member => List.not_mem_nil (none b' member)
  rw [List.nil_append, single] at split
  obtain ⟨rfl, -⟩ := List.cons.inj split
  exact single

omit [Token K] in
private theorem merge_dropped {branches dropped : List (Branch K V)} {ready : List (Frame K V)}
    {record : ErrorRecord} {first serial : Nat} {others : List (Branch K V)}
    (split : branches = { frames := ready, serial } :: others)
    (same : ∀ b ∈ branches, Frame.states b.frames = Frame.states ready)
    (sketches : dropped.map Branch.sketch = branches.map fun b => (b.frames, [record]))
    (aged : Branch.Aged 1 first dropped) : ∃ serial, (Branch.merge dropped).1 =
      [{ frames := ready, errors := [record], level := 1, serial }] := by
  subst split
  obtain ⟨b, rest, rfl, head, tail⟩ := List.map_eq_cons_iff.mp sketches
  obtain ⟨frames, errors⟩ := Prod.mk.inj head
  have alike : ∀ b' ∈ rest, Frame.states b'.frames = Frame.states b.frames := by
    intro b' member
    obtain ⟨other, listed, sketch⟩ := List.mem_map.mp (tail ▸ List.mem_map_of_mem member)
    rw [← show other.frames = b'.frames from (Prod.mk.inj sketch).1, frames]
    exact same other (List.mem_cons_of_mem _ listed)
  refine ⟨b.serial, ?_⟩
  rw [merge_eq_singleton aged alike]
  obtain ⟨stack, records, level, serial⟩ := b
  obtain rfl : stack = ready := frames
  obtain rfl : records = [record] := errors
  obtain rfl : level = 1 := aged.level _ (List.mem_cons_self ..)
  rfl

/-- Where all live stacks collapse, a dropped token leaves the one that the branch in front comes to. -/
theorem Idle.input_collapses {begun : List Nat → Prop} {frames ready : List (Frame K V)}
    (collapses : p.table.Collapses token begun (Frame.states ready)) (idle : s.Idle)
    (quiet : s.accepted = []) (clean : ∀ b ∈ s.live, b.errors = [] ∧ b.level = 0)
    (there : ∀ b ∈ s.live, begun (Frame.states b.frames))
    (leads : Branch.Leads extent frames s.live) (paced : p.table.Paced token extent pace)
    (hastens : p.Hastens token frames ready)
    (goes : Token.isEnd token = false) (run : s.input Branch.merge fuel p token = .ok after) :
    (∃ serial, after.live =
      [{ frames := ready, errors := [unexpected token], level := 1, serial }]) ∧ after.accepted = [] := by
  obtain ⟨stats, passed, first, settled⟩ := exists_pass_of_input run
  obtain ⟨shifted, accepted⟩ := pass_still first idle.waiting
    fun b member => collapses.still _ (there b member)
  replace shifted : passed.shifted = [] := shifted.trans idle.shifted
  replace accepted : passed.accepted = [] := accepted.trans quiet
  obtain ⟨empty, waiting⟩ := pass_eq_ok first idle.waiting
  have sorted := (turns_collapsing collapses).pass (idle.sorted
    (fun b member => ⟨clean b member, _, there b member, .refl⟩) (fun _ _ => trivial) stats) first
  obtain ⟨serial, others, stranded⟩ := exists_stranded_of_pass (s := { s with stats }) hastens paced
    (movesOn_of_strands collapses.strands) leads (fun b member => ⟨(clean b member).2, fun frames chain
      targets rules => (congrArg extent (collapses.same _ _ (there b member) chain
        (Parser.strands_states_iff.mpr ⟨targets, rules⟩))).le⟩) idle.waiting idle.stranded first
  rcases settled with ⟨settled, -⟩ | ⟨-, recovered, rounds, advanced, again, rest, rfl⟩
  · simp [shifted, accepted, quiet, stranded] at settled
  obtain ⟨sketches, none, ages, -⟩ := recover_drops goes empty waiting shifted accepted
    (fun b member => (sorted.stuck b member).1) again
  have lives := ((contract_collapsed collapses).recover selects_merge
    ⟨by simp [empty], by simp [waiting], fun _ _ => trivial, fun b member => (sorted.stuck b member).2,
      fun _ _ => trivial⟩ waiting again).alive
  obtain ⟨final, rerun, settled⟩ := exists_pass_of_advance rest
  obtain ⟨same, same'⟩ := pass_still rerun (recover_keeps again).2.1 lives
  have filled : final.shifted ≠ [] := by
    intro none
    rw [← same, none, stranded] at sketches
    cases sketches
  obtain rfl := settled filled
  obtain ⟨serial', merged⟩ := merge_dropped stranded (fun b member => (sorted.stuck b member).2) sketches
    (ages.held .shifted)
  refine ⟨⟨serial', ?_⟩, survivors_eq_nil_iff.mpr (same'.trans none)⟩
  rw [← same] at merged
  exact merged

end Collapse

end Delete

end Branching

end GeneralizedLR
