import GeneralizedLR.Proofs.Automaton
import GeneralizedLR.Proofs.Engine.Run

/-!
The fuel of a branching. With more fuel a run does the same, unless it ran out. If every reduction
makes a stack lighter, a pass and a recovery have enough fuel as soon as it exceeds the weight of the
heaviest branch, whether they end well or in a fault. Reductions on a token and those ahead of an
insertion may be weighed differently.
-/

set_option autoImplicit false
set_option relaxedAutoImplicit false

namespace GeneralizedLR

variable {K V : Type} [Token K] {p : Parser K V} {token : K}

section More

namespace Branching

theorem pass_mono (s : Branching K V) {fuel more : Nat} (le : fuel ≤ more) :
    Approximates (s.pass p token fuel) (s.pass p token more) := by
  induction fuel generalizing s more with
  | zero =>
    by_cases none : s.live = []
    · rw [pass_nil none, pass_nil none]
      exact .same _
    · rw [Branching.pass, if_neg (by simp [none])]
      exact .exhausted _
  | succ fuel ih =>
    obtain ⟨more, rfl⟩ := Nat.exists_eq_add_of_le le
    rw [Nat.add_right_comm, Branching.pass, Branching.pass]
    split
    · exact .same _
    · exact (Approximates.same _).bind fun s' => ih _ (by omega)

theorem insertAll_mono {terminal : Nat} (x : Branching K V × List (Branch K V)) {fuel more : Nat}
    (le : fuel ≤ more) :
    Approximates (insertAll p token terminal fuel x) (insertAll p token terminal more x) := by
  induction fuel generalizing x more with
  | zero =>
    cases more <;> unfold Branching.insertAll <;> split
    · exact .same _
    · exact .exhausted _
    · exact .same _
    · exact .exhausted _
  | succ fuel ih =>
    obtain ⟨more, rfl⟩ := Nat.exists_eq_add_of_le le
    rw [Nat.add_right_comm, Branching.insertAll, Branching.insertAll]
    split
    · exact .same _
    · exact (Approximates.same _).bind fun next => ih _ (by omega)

theorem recover_mono (policy : List (Branch K V) → List (Branch K V) × Nat) (s : Branching K V)
    {fuel more : Nat} (le : fuel ≤ more) :
    Approximates (s.recover policy fuel p token) (s.recover policy more p token) :=
  (Approximates.foldlM (fun _ _ => Approximates.foldlM (fun _ _ => insertAll_mono _ le) _ _) _ _).bind
    fun _ => .same _

theorem advance_mono (policy : List (Branch K V) → List (Branch K V) × Nat) (s : Branching K V)
    {fuel more rounds again : Nat} (le : fuel ≤ more) (le' : rounds ≤ again) :
    Approximates (s.advance policy fuel p token rounds) (s.advance policy more p token again) := by
  induction rounds generalizing s again with
  | zero => exact .exhausted _
  | succ rounds ih =>
    obtain ⟨again, rfl⟩ := Nat.exists_eq_add_of_le le'
    rw [Nat.add_right_comm, Branching.advance, Branching.advance]
    refine (pass_mono s le).bind fun s' => ?_
    split
    · exact .same _
    · split
      · exact .same _
      · exact (recover_mono policy s' le).bind fun s'' => ih s'' (by omega)

theorem parse_mono (policy : List (Branch K V) → List (Branch K V) × Nat) (tokens : List K)
    (s : Branching K V) {fuel more : Nat} (le : fuel ≤ more) :
    Approximates (Branching.parse policy fuel p tokens s) (Branching.parse policy more p tokens s) := by
  induction tokens generalizing s with
  | nil => exact .same _
  | cons token rest ih =>
    exact ((advance_mono policy _ le le).bind fun _ => .same _).bind ih

theorem parse_eq_of_fuel {policy : List (Branch K V) → List (Branch K V) × Nat} {tokens : List K}
    {s after after' : Branching K V} {fuel fuel' : Nat}
    (run : Branching.parse policy fuel p tokens s = .ok after)
    (run' : Branching.parse policy fuel' p tokens s = .ok after') : after = after' := by
  have one := (parse_mono (p := p) policy tokens s (le_max_left fuel fuel')).eq (by simp [run])
  have other := (parse_mono (p := p) policy tokens s (le_max_right fuel fuel')).eq (by simp [run'])
  exact Except.ok.inj (run.symm.trans (one.symm.trans (other.trans run')))

end Branching

end More

section Weight

/-- A stack is reduced ahead of a terminal by a production that does not end the parse. -/
inductive Table.Prepares (t : Table) (terminal : Nat) : List Nat → List Nat → Prop
  | intro {number state uncovered target : Nat} {rule : Production} {below taken base : List Nat} :
      number ∈ t.reduces state terminal → t.production? number = some rule →
        state :: below = taken ++ uncovered :: base → taken.length = rule.arity →
          rule.isStart = false → t.goto? uncovered rule.nonterminal = some target →
            Table.Prepares t terminal (state :: below) (target :: uncovered :: base)

/-- A stack shifts a terminal that a repair inserts. -/
inductive Table.Inserts (t : Table) (terminal : Nat) : List Nat → List Nat → Prop
  | intro {state target : Nat} {below : List Nat} : target ∈ t.shifts state terminal →
      Table.Inserts t terminal (state :: below) (target :: state :: below)

omit [Token K] in
theorem Parser.prepares_states_iff {terminal : Nat} {frames : List (Frame K V)} {after : List Nat}
    (lookahead : K) : p.table.Prepares terminal (Frame.states frames) after ↔
      ∃ production ∈ p.table.reduces (Frame.top frames) terminal, ∃ frames',
        p.reduct lookahead frames production = .ok (.waiting, frames') ∧
          after = Frame.states frames' := by
  obtain ⟨below, top⟩ := Frame.exists_states_eq_cons frames
  constructor
  · intro prepares
    generalize stack : Frame.states frames = states at prepares
    obtain @⟨number, state, uncovered, target, rule, _, taken, base, entry, listed, split, arity, goes,
      found⟩ := prepares
    rw [top] at stack
    cases stack
    obtain ⟨enough, rest⟩ :=
      Frame.states_eq_append_iff.mp ⟨taken, arity, top.trans split, List.cons_ne_nil _ _⟩
    obtain ⟨below', top'⟩ := Frame.exists_states_eq_cons (frames.drop rule.arity)
    rw [top'] at rest
    cases rest
    refine ⟨number, entry, _,
      Parser.reduct_waiting_iff.mpr ⟨rule, target, listed, enough, goes, found, rfl⟩, ?_⟩
    rw [Frame.states_cons, top']
  · rintro ⟨number, entry, frames', reduced, rfl⟩
    obtain ⟨rule, target, listed, enough, goes, found, rfl⟩ := Parser.reduct_waiting_iff.mp reduced
    obtain ⟨taken, arity, split, -⟩ := Frame.states_eq_append_iff.mpr ⟨enough, rfl⟩
    obtain ⟨below', top'⟩ := Frame.exists_states_eq_cons (frames.drop rule.arity)
    rw [top'] at split
    rw [Frame.states_cons, top', top]
    exact .intro entry listed (top.symm.trans split) arity goes found

omit [Token K] in
theorem Parser.inserts_states_iff {terminal : Nat} {frames : List (Frame K V)} {after : List Nat} :
    p.table.Inserts terminal (Frame.states frames) after ↔
      ∃ target ∈ p.table.shifts (Frame.top frames) terminal, after = target :: Frame.states frames := by
  obtain ⟨below, top⟩ := Frame.exists_states_eq_cons frames
  rw [top]
  constructor
  · rintro ⟨entry⟩
    exact ⟨_, entry, rfl⟩
  · rintro ⟨target, entry, rfl⟩
    exact .intro entry

def Table.Lowers (t : Table) (weight : List Nat → Nat) : Prop :=
  ∀ terminal stack after, t.Prepares terminal stack after → weight after < weight stack

/-- Every reduction makes a stack lighter, with one weight for reductions on a token and one for each
terminal that a repair inserts. -/
structure Table.Balances (t : Table) (token : K) (passing : List Nat → Nat)
    (inserting : Nat → List Nat → Nat) : Prop where
  pass : ∀ stack after, t.Reduces token stack after → passing after < passing stack
  insert : ∀ terminal ∈ t.insertable, ∀ stack after, t.Prepares terminal stack after →
    inserting terminal after < inserting terminal stack

theorem Table.Lowers.balances {t : Table} {weight : List Nat → Nat} (lowers : t.Lowers weight)
    (token : K) : t.Balances token weight fun _ => weight where
  pass := by
    rintro _ _ ⟨⟨entry, listed, split, arity, -⟩, goes, found⟩
    exact lowers _ _ _ (.intro entry listed split arity goes found)
  insert terminal _ := lowers terminal

variable {s : Branching K V} {fuel : Nat}

namespace Branching

theorem returns_pass {weight : List Nat → Nat}
    (lighter : ∀ stack after, p.table.Reduces token stack after → weight after < weight stack)
    (waiting : s.waiting = []) (light : ∀ b ∈ s.live, weight (Frame.states b.frames) < fuel) :
    Returns (fun _ => True) (s.pass p token fuel) := by
  induction fuel generalizing s with
  | zero =>
    have none : s.live = [] :=
      List.eq_nil_iff_forall_not_mem.mpr fun b member => Nat.not_lt_zero _ (light b member)
    rw [pass_nil none]
    exact .ok trivial
  | succ fuel ih =>
    rw [Branching.pass]
    split
    · exact .ok trivial
    · refine (Returns.foldlM (P := fun x : Branching K V =>
        ∀ b ∈ x.waiting, weight (Frame.states b.frames) < fuel) (fun x b member waits => ?_)
        (by simp [waiting])).bind fun x waits => ih rfl waits
      unfold Branching.step
      split
      · exact .fault _
      · next moves made =>
        refine .ok fun b' member' => ?_
        rcases mem_held_take_conclude .waiting member' with old | ⟨frames, number, move, rfl⟩
        · exact waits b' old
        · obtain ⟨production, entry, reduced⟩ :=
            (Parser.mem_moves_of_ne_shifted made Fate.noConfusion).mp move
          have less := lighter _ _
            (Parser.reduces_states_iff.mpr ⟨production, entry, _, reduced, rfl⟩)
          have bound := light b member
          exact (by omega : weight (Frame.states frames) < fuel)

theorem returns_insertAll {terminal : Nat} {weight : List Nat → Nat}
    (lighter : ∀ stack after, p.table.Prepares terminal stack after → weight after < weight stack)
    {queue : List (Branch K V)} (light : ∀ b ∈ queue, weight (Frame.states b.frames) < fuel) :
    Returns (fun _ => True) (insertAll p token terminal fuel (s, queue)) := by
  induction fuel generalizing s queue with
  | zero =>
    have none : queue = [] :=
      List.eq_nil_iff_forall_not_mem.mpr fun b member => Nat.not_lt_zero _ (light b member)
    rw [Branching.insertAll, if_pos (by simp [none])]
    exact .ok trivial
  | succ fuel ih =>
    rw [Branching.insertAll]
    split
    · exact .ok trivial
    · refine (Returns.foldlM (P := fun x : Branching K V × List (Branch K V) =>
        ∀ b ∈ x.2, weight (Frame.states b.frames) < fuel) (fun x b member waits => ?_)
        (by simp)).bind fun x waits => ih waits
      unfold Branching.insertAt
      split
      split
      · exact .fault _
      · next moves made =>
        refine .ok fun b' member' => ?_
        rcases List.mem_append.mp member' with old | forked
        · exact waits b' old
        · obtain ⟨frames, number, move, rfl⟩ := Branch.exists_move_of_mem_fork forked
          obtain ⟨production, entry, reduced⟩ :=
            (Parser.mem_moves_of_ne_shifted made Fate.noConfusion).mp move
          have less := lighter _ _
            ((Parser.prepares_states_iff token).mpr ⟨production, entry, _, reduced, rfl⟩)
          have bound := light b member
          exact (by omega : weight (Frame.states frames) < fuel)

/-- A recovery needs no more rounds for each insertion than its heaviest branch has weight for it. -/
theorem returns_recover {weight : Nat → List Nat → Nat}
    (lighter : ∀ terminal ∈ p.table.insertable, ∀ stack after,
      p.table.Prepares terminal stack after → weight terminal after < weight terminal stack)
    (policy : List (Branch K V) → List (Branch K V) × Nat)
    (light : ∀ b ∈ s.stranded, ∀ terminal ∈ p.table.insertable,
      weight terminal (Frame.states b.frames) < fuel) :
    Returns (fun _ => True) (s.recover policy fuel p token) := by
  refine (Returns.foldlM (P := fun _ : Branching K V => True) (fun x b member _ => ?_)
    trivial).bind fun x _ => .ok trivial
  refine Returns.foldlM (fun y terminal insertable _ => ?_) trivial
  exact returns_insertAll (lighter terminal insertable)
    (by simpa using light b member terminal insertable)

end Branching

end Weight

end GeneralizedLR
