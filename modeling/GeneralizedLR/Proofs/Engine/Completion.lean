import GeneralizedLR.Proofs.Engine.Blame
import GeneralizedLR.Proofs.Engine.Total

/-!
What a loop of passes and repairs has brought in when it ends. At the end of the stream terminals can
only be inserted, and this goes on until some stack shifts the token or ends before it. That every
state shifts a terminal makes sure that a recovery finds one, but not that the insertions lead
anywhere.
-/

set_option autoImplicit false
set_option relaxedAutoImplicit false

namespace GeneralizedLR

open Relation (ReflTransGen)

variable {K V : Type} [Token K] {p : Parser K V} {token : K}

section Automaton

inductive Table.Strands (t : Table) (token : K) : List Nat → Prop
  | intro {state : Nat} {below : List Nat} :
      t.shifts state (Token.classify (t.shiftChannel? state) token) = [] →
        t.reduces state (Token.classify (t.reduceChannel? state) token) = [] →
          Table.Strands t token (state :: below)

def Table.Proceeds (t : Table) (token : K) (stack : List Nat) : Prop :=
  ∃ ready, ReflTransGen (t.Reduces token) stack ready ∧
    ((∃ after, t.Shifts token ready after) ∨ t.Ends token ready)

/-- One repair by an insertion: the stack is reduced until it is stranded, then reduced ahead of a
terminal, and the terminal is shifted. -/
inductive Table.Mends (t : Table) (token : K) : List Nat → List Nat → Prop
  | intro {stack stuck ready after : List Nat} {terminal : Nat} :
      ReflTransGen (t.Reduces token) stack stuck → t.Strands token stuck →
        terminal ∈ t.insertable → ReflTransGen (t.Prepares terminal) stuck ready →
          t.Inserts terminal ready after → Table.Mends t token stack after

def Table.Completes (t : Table) (token : K) (stack : List Nat) : Prop :=
  ∃ last, ReflTransGen (t.Mends token) stack last ∧ t.Proceeds token last

def Table.Occurs (t : Table) (state : Nat) : Prop :=
  state = 0 ∨ ∃ entry ∈ t.shiftEntries ++ t.gotoEntries, entry.target = state

def Table.GoesOn (t : Table) : Prop :=
  ∀ state, t.Occurs state → ∃ terminal ∈ t.insertable, t.shifts state terminal ≠ []

theorem Table.goesOn_iff {t : Table} : t.GoesOn ↔
    ∀ state ∈ 0 :: (t.shiftEntries ++ t.gotoEntries).map (·.target),
      ∃ terminal ∈ t.insertable, t.shifts state terminal ≠ [] := by
  have occurs (state : Nat) : t.Occurs state ↔
      state ∈ 0 :: (t.shiftEntries ++ t.gotoEntries).map (·.target) := by
    rw [Table.Occurs, List.mem_cons, List.mem_map]
  exact forall_congr' fun state => by rw [occurs]

instance : DecidablePred Table.GoesOn := fun _ => decidable_of_iff' _ Table.goesOn_iff

theorem Parser.strands_states_iff {frames : List (Frame K V)} :
    p.table.Strands token (Frame.states frames) ↔
      p.targets token frames = [] ∧ p.rules token frames = [] := by
  obtain ⟨below, top⟩ := Frame.exists_states_eq_cons frames
  rw [top]
  exact ⟨fun ⟨shifts, reduces⟩ => ⟨shifts, reduces⟩, fun ⟨shifts, reduces⟩ => ⟨shifts, reduces⟩⟩

end Automaton

namespace Branching

variable {s after passed : Branching K V} {b : Branch K V} {fuel : Nat}

theorem pass_strands (run : s.pass p token fuel = .ok after) (member : b ∈ s.live) {stuck : List Nat}
    (chain : ReflTransGen (p.table.Reduces token) (Frame.states b.frames) stuck)
    (strands : p.table.Strands token stuck) :
    ∃ b' ∈ after.stranded, Frame.states b'.frames = stuck := by
  induction fuel generalizing s b with
  | zero =>
    obtain ⟨_, _, none, -⟩ := exists_round_of_pass run member
    cases none
  | succ fuel ih =>
    obtain ⟨_, s', same, stepped, rest⟩ := exists_round_of_pass run member
    cases same
    obtain ⟨x, y, -, stepped, behind⟩ := exists_step_of_foldlM member stepped
    obtain ⟨moves, made, rfl⟩ := step_eq_ok.mp stepped
    rcases chain.cases_head with rfl | ⟨middle, first, chain⟩
    · obtain ⟨shifts, reduces⟩ := Parser.strands_states_iff.mp strands
      have none : moves.length = 0 := by
        rw [Parser.length_moves made, shifts, reduces]
        rfl
      refine ⟨b, (pass_grows rest).2.subset (behind.stranded.subset ?_), rfl⟩
      rw [conclude_stranded, if_pos none]
      simp
    · obtain ⟨production, entry, frames, reduced, rfl⟩ := Parser.reduces_states_iff.mp first
      obtain ⟨number, member⟩ := exists_mem_held_take_conclude x b moves.length
        ((Parser.mem_moves_of_ne_shifted made Fate.noConfusion).mpr ⟨production, entry, reduced⟩)
      exact ih (b := { b with frames, serial := number }) rest (behind.waiting.subset member) chain

private theorem step_still (run : s.step p token b = .ok after)
    (still : ¬ p.table.Proceeds token (Frame.states b.frames)) :
    after.shifted = s.shifted ∧ after.accepted = s.accepted ∧
      ∀ b' ∈ after.waiting, b' ∈ s.waiting ∨ ¬ p.table.Proceeds token (Frame.states b'.frames) := by
  obtain ⟨moves, made, rfl⟩ := step_eq_ok.mp run
  have none (fate : Fate) (never : ∀ frames, (fate, frames) ∉ moves) :
      ((s.take b moves).conclude b moves.length).held fate = s.held fate := by
    have empty : fate.select (b.fork s.serial moves) = [] := by
      refine List.eq_nil_iff_forall_not_mem.mpr fun b' member => ?_
      obtain ⟨frames, number, move, -⟩ := Branch.exists_move_of_mem_fork member
      exact never frames move
    rw [held_take_conclude, empty, List.append_nil]
  refine ⟨none .shifted fun frames move => still ?_, none .accepted fun frames move => still ?_,
    fun b' member => ?_⟩
  · obtain ⟨target, entry, rfl⟩ := (Parser.mem_moves_shifted made).mp move
    exact ⟨_, .refl, .inl ⟨_, Parser.shifts_states_iff.mpr ⟨target, entry, rfl⟩⟩⟩
  · obtain ⟨production, entry, reduced⟩ :=
      (Parser.mem_moves_of_ne_shifted made Fate.noConfusion).mp move
    exact ⟨_, .refl, .inr (Parser.ends_states_iff.mpr ⟨production, entry, frames, reduced⟩)⟩
  · refine (mem_held_take_conclude .waiting member).imp_right ?_
    rintro ⟨frames, number, move, rfl⟩ ⟨ready, chain, goes⟩
    obtain ⟨production, entry, reduced⟩ :=
      (Parser.mem_moves_of_ne_shifted made Fate.noConfusion).mp move
    exact still ⟨ready, .head
      (Parser.reduces_states_iff.mpr ⟨production, entry, frames, reduced, rfl⟩) chain, goes⟩

theorem pass_still (run : s.pass p token fuel = .ok after) (waiting : s.waiting = [])
    (still : ∀ b ∈ s.live, ¬ p.table.Proceeds token (Frame.states b.frames)) :
    after.shifted = s.shifted ∧ after.accepted = s.accepted := by
  induction fuel generalizing s with
  | zero =>
    unfold Branching.pass at run
    split at run
    · cases run
      exact ⟨rfl, rfl⟩
    · cases run
  | succ fuel ih =>
    unfold Branching.pass at run
    split at run
    · cases run
      exact ⟨rfl, rfl⟩
    · obtain ⟨s', stepped, rest⟩ := exists_of_bind_eq_ok run
      obtain ⟨shifted, accepted, waits⟩ : s'.shifted = s.shifted ∧ s'.accepted = s.accepted ∧
          ∀ b ∈ s'.waiting, ¬ p.table.Proceeds token (Frame.states b.frames) := by
        refine foldlM_keeps (fun x : Branching K V => x.shifted = s.shifted ∧
          x.accepted = s.accepted ∧ ∀ b ∈ x.waiting, ¬ p.table.Proceeds token (Frame.states b.frames))
          (x := { s with live := [] }) (fun x b y member held one => ?_)
          ⟨rfl, rfl, by simp [waiting]⟩ stepped
        obtain ⟨shifted, accepted, waits⟩ := step_still one (still b member)
        exact ⟨shifted.trans held.1, accepted.trans held.2.1, fun b' member' =>
          (waits b' member').elim (held.2.2 b') id⟩
      obtain ⟨shifted', accepted'⟩ := ih rest rfl waits
      exact ⟨shifted'.trans shifted, accepted'.trans accepted⟩

private def Sited (t : Table) (stack : List Nat) : Prop := ∀ state ∈ stack, t.Occurs state

private theorem sited_start (t : Table) : Sited t [0] := by
  intro state member
  exact .inl (List.mem_singleton.mp member)

private theorem Sited.goto {t : Table} {state nonterminal target : Nat} {base taken : List Nat}
    (sited : Sited t (taken ++ state :: base)) (found : t.goto? state nonterminal = some target) :
    Sited t (target :: state :: base) := by
  intro other member
  rcases List.mem_cons.mp member with rfl | member
  · obtain ⟨entry, first, rfl⟩ := Option.map_eq_some_iff.mp found
    exact .inr ⟨entry, List.mem_append_right _ (List.mem_of_find?_eq_some first), rfl⟩
  · exact sited other (List.mem_append_right _ member)

private theorem Sited.shift {t : Table} {state terminal target : Nat} {stack : List Nat}
    (sited : Sited t stack) (entry : target ∈ t.shifts state terminal) : Sited t (target :: stack) := by
  intro other member
  rcases List.mem_cons.mp member with rfl | member
  · obtain ⟨found, listed, rfl⟩ := List.mem_map.mp entry
    exact .inr ⟨found, List.mem_append_left _ (List.mem_filter.mp listed).1, rfl⟩
  · exact sited other member

omit [Token K] in
private theorem Sited.reduct {frames frames' : List (Frame K V)} {production : Nat}
    (sited : Sited p.table (Frame.states frames))
    (reduced : p.reduct token frames production = .ok (.waiting, frames')) :
    Sited p.table (Frame.states frames') := by
  obtain ⟨rule, target, -, enough, -, found, rfl⟩ := Parser.reduct_waiting_iff.mp reduced
  obtain ⟨taken, -, split, -⟩ := Frame.states_eq_append_iff.mpr ⟨enough, rfl⟩
  obtain ⟨below, top⟩ := Frame.exists_states_eq_cons (frames.drop rule.arity)
  rw [split, top] at sited
  rw [Frame.states_cons, top]
  exact sited.goto found

private theorem contract_sited (p : Parser K V) (token : K) :
    Contract p token (fun b => Sited p.table (Frame.states b.frames))
      (fun _ b => Sited p.table (Frame.states b.frames))
      (fun b => Sited p.table (Frame.states b.frames))
      (fun b => Sited p.table (Frame.states b.frames)) (fun _ => True) where
  shift _ _ sited _ entry := sited.shift entry
  reduce _ _ _ sited _ _ reduced := sited.reduct reduced
  accept _ _ _ _ _ _ _ := trivial
  delete _ _ sited _ := sited
  queue _ sited _ _ := sited
  prepare _ _ _ _ _ sited _ _ reduced := sited.reduct reduced
  insert _ _ _ _ sited _ entry := sited.shift entry

section Outcome

variable {rounds : Nat}

private def AllSited (p : Parser K V) (s : Branching K V) : Prop :=
  s.Meets (fun b => Sited p.table (Frame.states b.frames))
    (fun b => Sited p.table (Frame.states b.frames))
    (fun b => Sited p.table (Frame.states b.frames)) (fun _ => True)

private theorem exists_insertion (goes : p.table.GoesOn) (sited : AllSited p s) (alive : s.live ≠ [])
    (run : s.pass p token fuel = .ok passed) (shifted : passed.shifted = [])
    (accepted : ¬ s.accepted.length < passed.accepted.length) :
    ∃ stuck ∈ passed.stranded, ∃ terminal ∈ p.table.insertable, ∃ stack,
      p.table.Inserts terminal (Frame.states stuck.frames) stack := by
  obtain ⟨b, member⟩ := List.exists_mem_of_ne_nil _ alive
  have closed (frames frames' : List (Frame K V)) (sited : Sited p.table (Frame.states frames)) :
      ∀ production ∈ p.rules token frames, p.reduct token frames production = .ok (.waiting, frames') →
        Sited p.table (Frame.states frames') := fun _ _ reduced => sited.reduct reduced
  rcases pass_outcome run member closed (sited.alive b member) with
    more | more | ⟨stuck, stranded, there, -⟩
  · exact absurd shifted more
  · exact absurd more accepted
  · obtain ⟨below, top⟩ := Frame.exists_states_eq_cons stuck.frames
    obtain ⟨terminal, insertable, some⟩ := goes (Frame.top stuck.frames) (there _ (by simp [top]))
    obtain ⟨target, entry⟩ := List.exists_mem_of_ne_nil _ some
    exact ⟨stuck, stranded, terminal, insertable, _,
      Parser.inserts_states_iff.mpr ⟨target, entry, rfl⟩⟩

private theorem advance_round (goes : p.table.GoesOn) (sited : AllSited p s) (waiting : s.waiting = [])
    (alive : s.live ≠ []) (run : s.advance Branch.merge fuel p token (rounds + 1) = .ok after) :
    ∃ passed, s.pass p token fuel = .ok passed ∧
      (((passed.shifted ≠ [] ∨ s.accepted.length < passed.accepted.length) ∧ passed = after) ∨
        ∃ recovered, passed.recover Branch.merge fuel p token = .ok recovered ∧
          (AllSited p recovered ∧ recovered.waiting = [] ∧ recovered.live ≠ []) ∧
            recovered.advance Branch.merge fuel p token rounds = .ok after) := by
  obtain ⟨passed, first, rest⟩ := exists_of_bind_eq_ok run
  refine ⟨passed, first, ?_⟩
  split at rest
  · next settled =>
    cases rest
    exact .inl ⟨by simpa using settled, rfl⟩
  · next unsettled =>
    obtain ⟨shifted, accepted⟩ : passed.shifted = [] ∧
        ¬ s.accepted.length < passed.accepted.length := by simpa using unsettled
    obtain ⟨stuck, stranded, terminal, insertable, stack, inserts⟩ :=
      exists_insertion goes sited alive first shifted accepted
    rw [if_neg (by simp [List.ne_nil_of_mem stranded])] at rest
    obtain ⟨recovered, again, rest⟩ := exists_of_bind_eq_ok rest
    have sited' : AllSited p recovered := (contract_sited p token).recover selects_merge
      ((contract_sited p token).pass sited first) (pass_eq_ok first waiting).2 again
    obtain ⟨kept, lives, -⟩ := recover_complete again stranded insertable .refl inserts
    exact .inr ⟨recovered, again,
      ⟨sited', (recover_keeps again).2.1, List.ne_nil_of_mem lives⟩, rest⟩

private theorem advance_brings (goes : p.table.GoesOn) (sited : AllSited p s) (waiting : s.waiting = [])
    (alive : s.live ≠ []) (run : s.advance Branch.merge fuel p token rounds = .ok after) :
    after.shifted ≠ [] ∨ s.accepted.length < after.accepted.length := by
  induction rounds generalizing s with
  | zero => cases run
  | succ rounds ih =>
    obtain ⟨passed, first, ⟨settled, rfl⟩ | ⟨recovered, again, ⟨sited', waiting', alive'⟩, rest⟩⟩ :=
      advance_round goes sited waiting alive run
    · exact settled
    · have grown := ((pass_grows first).1.accepted.trans (recover_keeps again).1.accepted).length_le
      exact (ih sited' waiting' alive' rest).imp_right grown.trans_lt

end Outcome

section Mending

variable {rounds : Nat}

private theorem turns_mending (p : Parser K V) (token : K) (begun : List Nat → Prop) :
    Turns p token
      (fun b => ∃ stack, begun stack ∧ ReflTransGen (p.table.Reduces token) stack (Frame.states b.frames))
      (fun _ => True)
      (fun b => (∃ stack, begun stack ∧
        ReflTransGen (p.table.Reduces token) stack (Frame.states b.frames)) ∧
          p.table.Strands token (Frame.states b.frames))
      (fun _ => True) where
  shift _ _ _ _ _ := trivial
  reduce := by
    rintro b serial frames ⟨stack, first, chain⟩ production entry reduced
    exact ⟨stack, first, chain.tail
      (Parser.reduces_states_iff.mpr ⟨production, entry, frames, reduced, rfl⟩)⟩
  accept _ _ _ _ _ _ _ := trivial
  strand b lives targets rules := ⟨lives, Parser.strands_states_iff.mpr ⟨targets, rules⟩⟩

private theorem contract_mending (p : Parser K V) (ends : Token.isEnd token = true)
    (begun : List Nat → Prop) :
    Contract p token
      (fun b => (∃ stack, begun stack ∧
        ReflTransGen (p.table.Reduces token) stack (Frame.states b.frames)) ∧
          p.table.Strands token (Frame.states b.frames))
      (fun terminal b => ∃ stack stuck, begun stack ∧ ReflTransGen (p.table.Reduces token) stack stuck ∧
        p.table.Strands token stuck ∧
          ReflTransGen (p.table.Prepares terminal) stuck (Frame.states b.frames))
      (fun b => ∃ stack, begun stack ∧ p.table.Mends token stack (Frame.states b.frames))
      (fun _ => False) (fun _ => True) where
  shift := by
    rintro b serial ⟨-, strands⟩ target entry
    simp [(Parser.strands_states_iff.mp strands).1] at entry
  reduce := by
    rintro b serial frames ⟨-, strands⟩ production entry
    simp [(Parser.strands_states_iff.mp strands).2] at entry
  accept _ _ _ _ _ _ _ := trivial
  delete := by
    rintro b serial - goes
    rw [ends] at goes
    cases goes
  queue := by
    rintro b ⟨⟨stack, first, chain⟩, strands⟩ terminal -
    exact ⟨stack, _, first, chain, strands, .refl⟩
  prepare := by
    rintro terminal - b serial frames ⟨stack, stuck, first, chain, strands, ready⟩ production entry
      reduced
    exact ⟨stack, stuck, first, chain, strands, ready.tail
      ((Parser.prepares_states_iff token).mpr ⟨production, entry, frames, reduced, rfl⟩)⟩
  insert := by
    rintro terminal insertable b serial ⟨stack, stuck, first, chain, strands, ready⟩ target entry
    exact ⟨stack, first, .intro chain strands insertable ready
      (Parser.inserts_states_iff.mpr ⟨target, entry, rfl⟩)⟩

private theorem recover_mends (ends : Token.isEnd token = true) (idle : s.Idle)
    (run : s.pass p token fuel = .ok passed) (none : passed.shifted = [])
    (again : passed.recover Branch.merge fuel p token = .ok after) :
    after.Idle ∧ ∀ b' ∈ after.live, ∃ b ∈ s.live,
      p.table.Mends token (Frame.states b.frames) (Frame.states b'.frames) := by
  have sorted := (turns_mending p token fun stack => ∃ b ∈ s.live, Frame.states b.frames = stack).pass
    (idle.sorted (fun b member => ⟨_, ⟨b, member, rfl⟩, .refl⟩) (fun _ _ => trivial) s.stats) run
  obtain ⟨empty, waiting⟩ := pass_eq_ok run idle.waiting
  have meets := (contract_mending p ends _).recover selects_merge
    { alive := by simp [empty]
      waits := by simp [waiting]
      gone := by simp [none]
      stuck := sorted.stuck
      done := sorted.done } waiting again
  obtain ⟨-, waiting', stranded'⟩ := recover_keeps again
  refine ⟨⟨waiting', List.eq_nil_iff_forall_not_mem.mpr meets.gone, stranded'⟩, fun b' lives => ?_⟩
  obtain ⟨_, ⟨b, member, rfl⟩, mends⟩ := meets.alive b' lives
  exact ⟨b, member, mends⟩

private theorem advance_completes (ends : Token.isEnd token = true) (goes : p.table.GoesOn)
    (sited : AllSited p s) (idle : s.Idle) (alive : s.live ≠ [])
    (run : s.advance Branch.merge fuel p token rounds = .ok after) :
    ∃ b ∈ s.live, p.table.Completes token (Frame.states b.frames) := by
  induction rounds generalizing s with
  | zero => cases run
  | succ rounds ih =>
    by_cases proceeds : ∃ b ∈ s.live, p.table.Proceeds token (Frame.states b.frames)
    · obtain ⟨b, member, proceeds⟩ := proceeds
      exact ⟨b, member, _, .refl, proceeds⟩
    obtain ⟨passed, first, settled⟩ := advance_round goes sited idle.waiting alive run
    obtain ⟨shifted, accepted⟩ := pass_still first idle.waiting fun b member holds =>
      proceeds ⟨b, member, holds⟩
    rw [idle.shifted] at shifted
    rcases settled with ⟨settled, -⟩ | ⟨recovered, again, ⟨sited', -, alive'⟩, rest⟩
    · simp [shifted, accepted] at settled
    · obtain ⟨idle', mends⟩ := recover_mends ends idle first shifted again
      obtain ⟨b', lives, last, chain, proceeds⟩ := ih sited' idle' alive' rest
      obtain ⟨b, member, mended⟩ := mends b' lives
      exact ⟨b, member, last, chain.head mended, proceeds⟩

end Mending

/-- If every state shifts a terminal, live branches shift a token or come to an end with it; at the end
of the stream they do so only if insertions complete one of them. -/
theorem Reached.advance_brings {past : List K} (found : Branching.Reached p past s)
    (goes : p.table.GoesOn) (alive : s.live ≠ []) {stats : Stats} {rounds : Nat}
    (run : { s with stats }.advance Branch.merge fuel p token rounds = .ok after) :
    (after.shifted ≠ [] ∨ s.accepted.length < after.accepted.length) ∧
      (Token.isEnd token = true → ∃ b ∈ s.live, p.table.Completes token (Frame.states b.frames)) := by
  have sited := (found.invariant (fun _ b => Sited p.table (Frame.states b.frames)) (fun _ _ => True)
    (sited_start p.table) (fun _ _ _ => id) (fun _ token => contract_sited p token)
    fun _ _ _ _ => trivial).1
  have all : AllSited p { s with stats } := found.idle.meets sited (fun _ _ => trivial) stats
  exact ⟨Branching.advance_brings (s := { s with stats }) goes all found.idle.waiting alive run,
    fun ends => advance_completes (s := { s with stats }) ends goes all { found.idle with } alive run⟩

end Branching

end GeneralizedLR
