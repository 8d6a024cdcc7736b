import GeneralizedLR.Proofs.Engine.Dropping

/-!
Runs behind a dropped token. A run that goes on from the stacks before the token echoes one that never
came to it. So a branch that is accepted with the deletion for its only repair has the stack of a branch
that is accepted without a repair.
-/

set_option autoImplicit false
set_option relaxedAutoImplicit false

namespace GeneralizedLR

variable {K V : Type} [Token K] {p : Parser K V} {token : K}

namespace Branching

variable {s u after : Branching K V} {fuel : Nat}

section Pursuit

variable {record : ErrorRecord} {u after' : Branching K V} {tokens : List K}

omit [Token K] in
theorem Idle.ages {level : Nat} (idle : s.Idle) (none : s.accepted = [])
    (same : ∀ b ∈ s.live, b.level = level) (stats : Stats) : Ages level { s with stats } := by
  refine ⟨same, fun fate => ?_⟩
  cases fate with
  | shifted => simpa [held, idle.shifted] using .nil
  | waiting => simpa [held, idle.waiting] using .nil
  | accepted => simpa [held, none] using .nil

private def Straying (t : Table) (token : K) (record : ErrorRecord) (b : Branch K V) : Prop :=
  b.errors ≠ [] ∧ (b.errors = [record] → t.Strands token (Frame.states b.frames))

/-- No branch has the record and nothing else, and none will. -/
structure Strays (record : ErrorRecord) (s : Branching K V) : Prop where
  live : ∀ b ∈ s.live, b.errors ≠ [] ∧ b.errors ≠ [record]
  accepted : ∀ b ∈ s.accepted, b.errors ≠ [record]

omit [Token K] in
private theorem repaired_errors_ne {b : Branch K V} (dirty : b.errors ≠ []) (more : ErrorRecord) :
    (b.repaired more).errors ≠ [] ∧ (b.repaired more).errors ≠ [record] := by
  refine ⟨List.append_ne_nil_of_right_ne_nil _ (List.cons_ne_nil _ _), fun same => dirty ?_⟩
  exact (List.append_inj' (same.trans (List.nil_append _).symm) rfl).1

private theorem contract_straying (p : Parser K V) (token : K) (record : ErrorRecord) :
    Contract p token (Straying p.table token record) (fun _ b => b.errors ≠ [])
      (Straying p.table token record) (fun b => b.errors ≠ [] ∧ b.errors ≠ [record])
      (fun b => b.errors ≠ [record]) where
  shift := by
    rintro b serial ⟨dirty, stuck⟩ target entry
    refine ⟨dirty, fun same => ?_⟩
    simp [(Parser.strands_states_iff.mp (stuck same)).1] at entry
  reduce := by
    rintro b serial frames ⟨dirty, stuck⟩ production entry -
    refine ⟨dirty, fun same => ?_⟩
    simp [(Parser.strands_states_iff.mp (stuck same)).2] at entry
  accept := by
    rintro b serial frames ⟨-, stuck⟩ production entry - same
    simp [(Parser.strands_states_iff.mp (stuck same)).2] at entry
  delete _ _ straying _ := repaired_errors_ne straying.1 _
  queue _ straying _ _ := straying.1
  prepare _ _ _ _ _ dirty _ _ _ := dirty
  insert terminal _ b _ dirty _ _ :=
    have more := repaired_errors_ne (b := b) dirty (missing p token terminal)
    ⟨more.1, fun same => absurd same more.2⟩

theorem Strays.input (strays : s.Strays record) (idle : s.Idle)
    (run : s.input Branch.merge fuel p token = .ok after) : after.Strays record := by
  have kept := (contract_straying p token record).input selects_merge idle
    (fun b member => ⟨(strays.live b member).1, fun same => absurd same (strays.live b member).2⟩)
    strays.accepted run
  exact ⟨kept.1, kept.2⟩

private theorem strays_of_stuck (idle : s.Idle) (dirty : ∀ b ∈ s.live, b.errors ≠ [])
    {stats : Stats} {passed recovered : Branching K V} {rounds : Nat}
    (first : pass p token fuel { s with stats } = .ok passed)
    (shifted : passed.shifted = []) (accepted : passed.accepted = [])
    (again : passed.recover Branch.merge fuel p token = .ok recovered)
    (rest : recovered.advance Branch.merge fuel p token rounds = .ok after) :
    (after.settle Branch.merge).Strays record := by
  have turns : Turns p token (fun b => b.errors ≠ []) (fun _ => True)
      (Straying p.table token record) (fun _ => True) :=
    { shift := fun _ _ _ _ _ => trivial
      reduce := fun _ _ _ dirty _ _ _ => dirty
      accept := fun _ _ _ _ _ _ _ => trivial
      strand := fun b dirty targets rules =>
        ⟨dirty, fun _ => Parser.strands_states_iff.mpr ⟨targets, rules⟩⟩ }
  have sorted := turns.pass (idle.sorted dirty (fun _ _ => trivial) stats) first
  obtain ⟨empty, waiting⟩ := pass_eq_ok first idle.waiting
  have contract := contract_straying p token record
  have meets := contract.recover selects_merge
    { alive := by simp [empty]
      waits := by simp [waiting]
      gone := by simp [shifted]
      stuck := sorted.stuck
      done := by simp [accepted] } waiting again
  have met := contract.advance selects_merge meets (recover_keeps again).2.1 rest
  exact ⟨fun b member => met.gone b (mem_of_mem_survivors member),
    fun b member => met.done b (mem_of_mem_survivors member)⟩

/-- The second run dropped a token with the record, and otherwise it echoes the first one, which has
repaired nothing. -/
structure Pursues (p : Parser K V) (record : ErrorRecord) (u s : Branching K V) : Prop where
  first : u.Idle
  second : ∃ past, Branching.Reached p past s
  live : Echo [record] (u.live.map Branch.sketch) (s.live.map Branch.sketch)
  accepted : Echo [record] (u.accepted.map Branch.sketch) (s.accepted.map Branch.sketch)
  clean : ∀ b ∈ u.live ++ u.accepted, b.level = 0
  once : ∀ b ∈ s.live, b.level = 1

/-- At every token the second run goes on behind the first one, or it makes another repair. -/
theorem Pursues.input (pursues : u.Pursues p record s) (quiet : s.accepted = []) {fuel' : Nat}
    (run : u.input Branch.merge fuel p token = .ok after)
    (run' : s.input Branch.merge fuel' p token = .ok after') :
    after.Pursues p record after' ∨ after'.Strays record := by
  have idle := pursues.first
  obtain ⟨past', reached'⟩ := pursues.second
  have next' := reached'.input run'
  have quiet' : u.accepted = [] := by
    refine List.eq_nil_iff_forall_not_mem.mpr fun b member => ?_
    obtain ⟨_, listed, -⟩ := pursues.accepted.covered _ (List.mem_map_of_mem member)
    simp [quiet] at listed
  obtain ⟨stats, passed, first, settled⟩ := exists_pass_of_input run
  obtain ⟨stats', passed', first', settled'⟩ := exists_pass_of_input run'
  have ages := (idle.ages quiet'
    (fun b member => pursues.clean b (List.mem_append_left _ member)) stats).pass first
  have ages' := (reached'.idle.ages quiet pursues.once stats').pass first'
  have begun : Echoes [record] { u with stats } { s with stats := stats' } := by
    refine ⟨pursues.live, ?_, pursues.accepted⟩
    rw [idle.shifted, reached'.idle.shifted]
    exact .of_nil fun _ => (nomatch ·)
  have echoes := begun.pass idle.waiting reached'.idle.waiting first first'
  have dirty : ∀ b ∈ s.live, b.errors ≠ [] := by
    intro b member none
    have records := (reached'.follows.1 b member).records
    rw [none, pursues.once b member] at records
    cases records
  rcases settled' with ⟨goes, rfl⟩ | ⟨⟨shifted, accepted, -⟩, recovered, rounds, _, again, rest, rfl⟩
  · have shown : ∀ b ∈ (Branch.merge passed'.shifted).1, b.level = 1 := fun b member =>
      (ages'.held .shifted).level b (mem_of_mem_survivors member)
    rcases settled with ⟨-, rfl⟩ | ⟨⟨shifted, accepted, -⟩, _, _, _, -, -, rfl⟩
    · have live := echoes.shifted.merge (ages.held .shifted) (ages'.held .shifted)
      have done := echoes.accepted.merge (ages.held .accepted) (ages'.held .accepted)
      refine .inl ⟨idle.input run, ⟨_, next'⟩, live, done, fun b member => ?_, shown⟩
      rcases List.mem_append.mp member with member | member
      · exact (ages.held .shifted).level b (mem_of_mem_survivors member)
      · exact (ages.held .accepted).level b (mem_of_mem_survivors member)
    · -- Without a like in the first run, what goes on has made another repair than this one.
      have none : passed.accepted = [] := by simpa [quiet'] using accepted
      refine .inr ⟨fun b member => ⟨fun clean => ?_, ?_⟩, fun b member => ?_⟩
      · have records := (next'.follows.1 b member).records
        rw [clean, shown b member] at records
        cases records
      · exact echoes.shifted.errors_ne (by simp [shifted]) b (mem_of_mem_survivors member)
      · exact echoes.accepted.errors_ne (by simp [none]) b (mem_of_mem_survivors member)
  · have none : passed'.accepted = [] := by simpa [quiet] using accepted
    exact .inr (strays_of_stuck reached'.idle dirty first' shifted none again rest)

theorem accepted_eq_nil_of_input (none : after.accepted = [])
    (run : s.input Branch.merge fuel p token = .ok after) : s.accepted = [] := by
  obtain ⟨advanced, moved, settled⟩ := exists_of_bind_eq_ok run
  cases settled
  obtain ⟨passed, first, kept⟩ := advance_keeps moved
  have empty : advanced.accepted = [] := survivors_eq_nil_iff.mp none
  exact List.prefix_nil.mp (empty ▸ ((pass_grows first).1.accepted.trans kept.accepted))

theorem accepted_eq_nil_of_parse (none : after.accepted = [])
    (run : Branching.parse Branch.merge fuel p tokens s = .ok after) : s.accepted = [] := by
  induction tokens generalizing s with
  | nil =>
    cases run
    exact none
  | cons token tokens ih =>
    obtain ⟨next, taken, rest⟩ := exists_of_bind_eq_ok run
    exact accepted_eq_nil_of_input (ih rest) taken

theorem Strays.parse (strays : s.Strays record) (idle : s.Idle)
    (run : Branching.parse Branch.merge fuel p tokens s = .ok after) : after.Strays record := by
  induction tokens generalizing s with
  | nil =>
    cases run
    exact strays
  | cons token tokens ih =>
    obtain ⟨next, taken, rest⟩ := exists_of_bind_eq_ok run
    exact ih (strays.input idle taken) (idle.input taken) rest

theorem Pursues.parse (pursues : u.Pursues p record s) {fuel' : Nat}
    (run : Branching.parse Branch.merge fuel p tokens u = .ok after)
    (run' : Branching.parse Branch.merge fuel' p tokens s = .ok after') (quiet : after'.accepted = []) :
    after.Pursues p record after' ∨ after'.Strays record := by
  induction tokens generalizing u s with
  | nil =>
    cases run
    cases run'
    exact .inl pursues
  | cons token tokens ih =>
    obtain ⟨next, taken, rest⟩ := exists_of_bind_eq_ok run
    obtain ⟨next', taken', rest'⟩ := exists_of_bind_eq_ok run'
    obtain ⟨past', reached'⟩ := pursues.second
    have none : s.accepted = [] := accepted_eq_nil_of_parse quiet run'
    rcases pursues.input none taken taken' with pursues' | strays
    · exact ih pursues' rest rest'
    · exact .inr (strays.parse (reached'.idle.input taken') rest')

/-- A branch that the second run accepts with no other record has the stack of one that the first run
accepts without a repair. -/
theorem Pursues.exists_accepted (pursues : u.Pursues p record s) {behind : List K} {last : K}
    {middle : Branching K V} {fuel' : Nat}
    (run : Branching.parse Branch.merge fuel p (behind ++ [last]) u = .ok after)
    (run' : Branching.parse Branch.merge fuel' p behind s = .ok middle) (quiet : middle.accepted = [])
    (taken : middle.input Branch.merge fuel' p last = .ok after') {b : Branch K V}
    (member : b ∈ after'.accepted) (only : b.errors = [record]) :
    ∃ b' ∈ after.accepted, b'.frames = b.frames ∧ b'.level = 0 := by
  rw [parse_append] at run
  obtain ⟨between, rest, final⟩ := exists_of_bind_eq_ok run
  obtain ⟨_, taken', done⟩ := exists_of_bind_eq_ok final
  cases done
  obtain ⟨past, reached⟩ := pursues.second
  have ends : after.Pursues p record after' ∨ after'.Strays record := by
    rcases pursues.parse rest run' quiet with pursues | strays
    · exact pursues.input quiet taken' taken
    · exact .inr (strays.input (reached.parse run').idle taken)
  rcases ends with pursues | strays
  · obtain ⟨left, right, split⟩ := List.append_of_mem member
    obtain ⟨left', x, right', found, frames, -⟩ := pursues.accepted.like (left.map Branch.sketch)
      b.sketch (right.map Branch.sketch) (by simp [split]) only
    obtain ⟨b', accepted, rfl⟩ := List.mem_map.mp
      (found ▸ List.mem_append_right left' (List.mem_cons_self ..))
    exact ⟨b', accepted, frames, pursues.clean b' (List.mem_append_right _ accepted)⟩
  · exact absurd only (strays.accepted b member)

theorem clean_of_reaches {past : List K} {stack : List Nat}
    (reached : p.table.Reaches past stack)
    (run : Branching.parse Branch.merge fuel p past .start = .ok s) :
    s.live ≠ [] ∧ ∀ b ∈ s.live, b.errors = [] ∧ b.level = 0 ∧
      p.table.Reaches past (Frame.states b.frames) := by
  obtain ⟨b, member, -⟩ := (parse_complete run).1 stack reached
  refine ⟨List.ne_nil_of_mem member, fun b member => ?_⟩
  have records := ((Reached.start.parse run).follows.1 b member).records
  rcases (parse_accounted run).1 b member with ⟨clean, there⟩ | ⟨_, _, _, _, _, rfl, stops, -⟩
  · rw [clean] at records
    exact ⟨clean, records.symm, there⟩
  · exact absurd reached.admits stops.stuck

/-- The branch is accepted behind the last one of some tokens, and its only repair dropped one of them. -/
structure Drops (p : Parser K V) (fuel : Nat) (before : List K) (token : K) (behind : List K) (last : K)
    (b : Branch K V) : Prop where
  stops : p.table.StopsAt before token
  goes : Token.isEnd token = false
  run : ∃ middle after, Branching.parse Branch.merge fuel p (before ++ token :: behind) .start =
    .ok middle ∧ middle.accepted = [] ∧ middle.input Branch.merge fuel p last = .ok after ∧
      b ∈ after.accepted
  only : b.errors = [unexpected token]

namespace Drops

variable {before behind : List K} {last : K} {b : Branch K V}

private theorem exists_turn (drops : Drops p fuel before token behind last b) :
    ∃ begun next, Branching.parse Branch.merge fuel p before .start = .ok begun ∧
      begun.input Branch.merge fuel p token = .ok next ∧ Branching.Reached p before begun ∧
      begun.accepted = [] ∧ next.accepted = [] ∧ begun.live ≠ [] ∧
      (∀ b ∈ begun.live, b.errors = [] ∧ b.level = 0 ∧
        p.table.Reaches before (Frame.states b.frames)) ∧
      ∀ other, Pursues p (unexpected token) other next → ∀ fuel' u,
        Branching.parse Branch.merge fuel' p (behind ++ [last]) other = .ok u →
          ∃ b' ∈ u.accepted, b'.frames = b.frames ∧ b'.level = 0 := by
  obtain ⟨middle, after, run, quiet, taken, member⟩ := drops.run
  rw [parse_append] at run
  obtain ⟨begun, first, rest⟩ := exists_of_bind_eq_ok run
  obtain ⟨next, dropped, rest⟩ := exists_of_bind_eq_ok rest
  have reached : Branching.Reached p before begun := by simpa using Reached.start.parse first
  obtain ⟨stack, there⟩ := drops.stops.reaches
  obtain ⟨alive, clean⟩ := clean_of_reaches there first
  have quiet' : next.accepted = [] := accepted_eq_nil_of_parse quiet rest
  exact ⟨begun, next, first, dropped, reached, accepted_eq_nil_of_input quiet' dropped, quiet', alive,
    clean, fun other pursues fuel' u run' =>
      pursues.exists_accepted run' rest quiet taken member drops.only⟩

/-- Let no stack have an action for the token. Then a branch with the same stack is accepted without a
repair if the token is left out. -/
theorem exists_of_strands (drops : Drops p fuel before token behind last b)
    (stuck : ∀ stack, p.table.Reaches before stack → p.table.Strands token stack)
    (run : Branching.parse Branch.merge fuel p (before ++ (behind ++ [last])) .start = .ok u) :
    ∃ b' ∈ u.accepted, b'.frames = b.frames ∧ b'.level = 0 := by
  obtain ⟨begun, next, first, dropped, reached, none, quiet, alive, clean, follow⟩ := drops.exists_turn
  rw [parse_append] at run
  obtain ⟨_, same, rest⟩ := exists_of_bind_eq_ok run
  cases first.symm.trans same
  obtain ⟨echo, once⟩ := reached.idle.input_drops none
    (fun b member => ⟨(clean b member).1, (clean b member).2.1⟩) alive
    (fun b member => Parser.strands_states_iff.mp (stuck _ (clean b member).2.2)) drops.goes dropped
  have pursues : begun.Pursues p (unexpected token) next :=
    { first := reached.idle
      second := ⟨_, reached.input dropped⟩
      live := echo
      accepted := by
        rw [none, quiet]
        exact .of_nil fun _ => (nomatch ·)
      clean := fun b member => by
        rw [none, List.append_nil] at member
        exact (clean b member).2.1
      once := once }
  exact follow begun pursues fuel u rest

/-- Let all stacks collapse before the token. Then a branch with the same stack is accepted without a
repair if the rest is read from where the branch in front came to. -/
theorem exists_of_collapses {extent : List Nat → Nat} {pace : Nat} {frames ready : List (Frame K V)}
    (drops : Drops p fuel before token behind last b)
    (leads : ∀ begun, Branching.parse Branch.merge fuel p before .start = .ok begun →
      Branch.Leads extent frames begun.live)
    (paced : p.table.Paced token extent pace) (hastens : p.Hastens token frames ready)
    (collapses : p.table.Collapses token (p.table.Reaches before) (Frame.states ready)) :
    ∃ begun : Branching K V, begun.Idle ∧ (∃ serial, begun.live = [{ frames := ready, serial }]) ∧
      begun.accepted = [] ∧ ∀ fuel' u,
        Branching.parse Branch.merge fuel' p (behind ++ [last]) begun = .ok u →
          ∃ b' ∈ u.accepted, b'.frames = b.frames ∧ b'.level = 0 := by
  obtain ⟨begun, next, first, dropped, reached, none, quiet, -, clean, follow⟩ := drops.exists_turn
  obtain ⟨⟨serial, live⟩, -⟩ := reached.idle.input_collapses collapses none
    (fun b member => ⟨(clean b member).1, (clean b member).2.1⟩) (fun b member => (clean b member).2.2)
    (leads begun first) paced hastens drops.goes dropped
  have idle := reached.idle.input dropped
  have pursues : Pursues p (unexpected token) { next with live := [{ frames := ready, serial }] } next :=
    { first := { idle with }
      second := ⟨_, reached.input dropped⟩
      live := .of_map_eq (by rw [live]; rfl)
      accepted := by
        rw [quiet]
        exact .of_nil fun _ => (nomatch ·)
      clean := fun b member => by
        rw [quiet, List.append_nil] at member
        rw [List.mem_singleton.mp member]
      once := fun b member => by
        rw [live] at member
        rw [List.mem_singleton.mp member] }
  exact ⟨_, pursues.first, ⟨serial, rfl⟩, quiet, follow _ pursues⟩

end Drops

end Pursuit

end Branching

end GeneralizedLR
