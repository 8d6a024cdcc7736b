import GeneralizedLR.Proofs.Engine.Handles
import GeneralizedLR.Proofs.Engine.Growth

/-!
How the statistics balance. Every push has a count of its own, and a sweep counts what it frees; so
the counts tell how many nodes there are, also after a fault. Every head came from a fork, a deletion
or an insertion and went on, was accepted, merged or stranded; after a fault the heads at hand are
given up without a count, so this holds as long as every call ends well.
-/

set_option autoImplicit false
set_option relaxedAutoImplicit false

namespace GeneralizedLR

variable {K V : Type}

section Leaves

variable {α β ι : Type} {P : α → Prop} {N : β → Prop} {Q : Engine K V → Prop}

/-- Whatever a run leaves behind has a property: its result, or the engine at a fault. -/
inductive Leaves (P : α → Prop) (Q : Engine K V → Prop) : Except (Halt K V) α → Prop
  | ok {x : α} : P x → Leaves P Q (.ok x)
  | fault {cause : Fault} {e : Engine K V} : Q e → Leaves P Q (.error (.fault cause e))
  | exhausted : Leaves P Q (.error .exhausted)

namespace Leaves

theorem bind {r : Except (Halt K V) α} (leaves : Leaves P Q r) {f : α → Except (Halt K V) β}
    (rest : ∀ x, P x → Leaves N Q (f x)) : Leaves N Q (r >>= f) := by
  cases leaves with
  | ok holds => exact rest _ holds
  | fault stop => exact .fault stop
  | exhausted => exact .exhausted

theorem foldlM {f : α → ι → Except (Halt K V) α} (step : ∀ x i, P x → Leaves P Q (f x i))
    (l : List ι) {x : α} (start : P x) : Leaves P Q (l.foldlM f x) := by
  induction l generalizing x with
  | nil => exact .ok start
  | cons i l ih =>
    rw [List.foldlM_cons]
    exact (step x i start).bind fun _ => ih

theorem of_eq_ok {r : Except (Halt K V) α} (leaves : Leaves P Q r) {x : α} (run : r = .ok x) :
    P x := by
  subst run
  cases leaves with
  | ok holds => exact holds

theorem of_eq_fault {r : Except (Halt K V) α} (leaves : Leaves P Q r) {cause : Fault}
    {e : Engine K V} (run : r = .error (.fault cause e)) : Q e := by
  subst run
  cases leaves with
  | fault stop => exact stop

end Leaves

end Leaves

section Nodes

def Stats.pushes (s : Stats) : Nat := 1 + s.shifts + s.reductions + s.insertions + s.closures

/-- Every node was counted when it was pushed, and so was every node that was reclaimed. -/
structure Engine.Counted (e : Engine K V) : Prop where
  tidy : e.arena.Tidy
  nodes : e.arena.size + e.stats.reclaimed = e.stats.pushes

namespace Engine

variable {e later : Engine K V}

theorem counted_start : (start : Engine K V).Counted where
  tidy := Arena.empty_tidy.push
  nodes := rfl

theorem Counted.keep (counted : e.Counted) (arena : later.arena = e.arena)
    (reclaimed : later.stats.reclaimed = e.stats.reclaimed)
    (pushes : later.stats.pushes = e.stats.pushes) : later.Counted where
  tidy := arena ▸ counted.tidy
  nodes := by rw [arena, reclaimed, pushes, counted.nodes]

theorem Counted.push (counted : e.Counted) {state : Nat} {value : Option (Content K V)}
    {below : Option NodeId} (arena : later.arena = (e.arena.push state value below).1)
    (reclaimed : later.stats.reclaimed = e.stats.reclaimed)
    (pushes : later.stats.pushes = e.stats.pushes + 1) : later.Counted where
  tidy := arena ▸ counted.tidy.push
  nodes := by
    rw [arena, counted.tidy.size_push, reclaimed, pushes, ← counted.nodes, Nat.add_right_comm]

theorem Counted.sweep (counted : e.Counted) {roots : List NodeId}
    (arena : later.arena = (e.arena.sweep roots).1)
    (reclaimed : later.stats.reclaimed = e.stats.reclaimed + (e.arena.sweep roots).2)
    (pushes : later.stats.pushes = e.stats.pushes) : later.Counted where
  tidy := arena ▸ counted.tidy.sweep roots
  nodes := by
    have freed := counted.tidy.size_sweep roots
    have nodes := counted.nodes
    rw [arena, reclaimed, pushes]
    omega

theorem Counted.shiftTo (counted : e.Counted) (token : K) (head : Head) (state target : Nat) :
    (e.shiftTo token head state target).Counted :=
  counted.push rfl rfl (by simp only [Engine.shiftTo, Stats.pushes]; omega)

theorem Counted.conclude (counted : e.Counted) (head : Head) (actions : Nat) :
    (e.conclude head actions).Counted := by
  unfold Engine.conclude
  split <;> exact counted.keep rfl rfl rfl

theorem Counted.reduceBy (counted : e.Counted) (p : Parser K V) (token : K) (head : Head)
    (state production : Nat) :
    Leaves Counted Counted (e.reduceBy p token head state production) := by
  unfold Engine.reduceBy
  dsimp only
  split
  · exact .fault (counted.keep rfl rfl rfl)
  · split
    · exact .ok (counted.push rfl rfl (by simp only [Stats.pushes]; omega))
    · exact .ok (counted.push rfl rfl (by simp only [Stats.pushes]; omega))

theorem Counted.prepareBy (counted : e.Counted) (p : Parser K V) (token : K) (head : Head)
    (queue : List Head) (production : Nat) :
    Leaves (·.1.Counted) Counted (Engine.prepareBy p token head (e, queue) production) := by
  unfold Engine.prepareBy
  dsimp only
  split
  · exact .fault (counted.keep rfl rfl rfl)
  · exact .ok (counted.push rfl rfl (by simp only [Stats.pushes]; omega))

theorem Counted.recordMerges (counted : e.Counted) (pairs : List (Head × Head)) :
    (e.recordMerges pairs).Counted := by
  obtain ⟨journal, eq⟩ := e.recordMerges_eq pairs
  rw [eq]
  exact counted.keep rfl rfl rfl

variable [Token K] {p : Parser K V} {token : K}

theorem Counted.stepHead (counted : e.Counted) (head : Head) :
    Leaves Counted Counted (e.stepHead p token head) := by
  unfold Engine.stepHead
  split
  · exact .fault counted
  · next state _ =>
    have shifted := List.foldlRecOn (motive := Counted)
      (p.table.shifts state (Token.classify (p.table.shiftChannel? state) token))
      (Engine.shiftTo token head state) counted fun _ held target _ => held.shiftTo ..
    refine (Leaves.foldlM (fun _ production held => held.reduceBy ..) _ shifted).bind
      fun _ held => ?_
    exact .ok (held.conclude ..)

theorem Counted.pass (counted : e.Counted) (fuel : Nat) :
    Leaves Counted Counted (e.pass p token fuel) := by
  induction fuel generalizing e with
  | zero =>
    unfold Engine.pass
    split
    · exact .ok counted
    · exact .exhausted
  | succ fuel ih =>
    unfold Engine.pass
    split
    · exact .ok counted
    · have cleared : { e with heads := [] }.Counted := counted.keep rfl rfl rfl
      refine (Leaves.foldlM (fun _ head held => held.stepHead head) _ cleared).bind fun _ held => ?_
      exact ih (held.keep rfl rfl rfl)

theorem Counted.deleteBefore (counted : e.Counted) (head : Head) :
    (e.deleteBefore token head).Counted :=
  counted.keep rfl rfl rfl

theorem Counted.insertTo (counted : e.Counted) (terminal : Nat) (head : Head)
    (state target : Nat) : (e.insertTo p token terminal head state target).Counted :=
  counted.push rfl rfl (by simp only [Engine.insertTo, Stats.pushes]; omega)

theorem Counted.insertAt (counted : e.Counted) (terminal : Nat) (queue : List Head) (head : Head) :
    Leaves (·.1.Counted) Counted (Engine.insertAt p token terminal (e, queue) head) := by
  unfold Engine.insertAt
  dsimp only
  split
  · exact .fault counted
  · next state _ =>
    have inserted := List.foldlRecOn (motive := Counted) (p.table.shifts state terminal)
      (Engine.insertTo p token terminal head state) counted fun _ held target _ => held.insertTo ..
    exact Leaves.foldlM (fun (x : Engine K V × List Head) production held =>
      Counted.prepareBy held p token head x.2 production) _ inserted

theorem Counted.insertAll (counted : e.Counted) (terminal fuel : Nat) (queue : List Head) :
    Leaves Counted Counted (Engine.insertAll p token terminal fuel (e, queue)) := by
  induction fuel generalizing e queue with
  | zero =>
    unfold Engine.insertAll
    split
    · exact .ok counted
    · exact .exhausted
  | succ fuel ih =>
    unfold Engine.insertAll
    split
    · exact .ok counted
    · refine (Leaves.foldlM (fun (x : Engine K V × List Head) head held =>
        Counted.insertAt held terminal x.2 head) _ counted).bind fun x held => ?_
      exact ih held x.2

theorem Counted.repair (counted : e.Counted) (fuel : Nat) (head : Head) :
    Leaves Counted Counted (e.repair fuel p token head) := by
  unfold Engine.repair
  refine Leaves.foldlM (fun _ terminal held => held.insertAll terminal fuel [head]) _ ?_
  split
  · exact counted
  · exact counted.deleteBefore head

theorem Counted.recover (counted : e.Counted) (merge : Arena K V → List Head → Merged)
    (fuel : Nat) : Leaves Counted Counted (e.recover merge fuel p token) := by
  let begun := e.record (.recovering e.stranded.reverse.length (Token.literal token) (Token.span token))
  have cleared : { begun with stranded := [] }.Counted := counted.keep rfl rfl rfl
  refine (Leaves.foldlM (fun _ head held => held.repair fuel head) _ cleared).bind
    fun repaired held => ?_
  let inserted := merge repaired.arena repaired.waiting.reverse
  have merged : { repaired with heads := inserted.heads, waiting := [] }.Counted :=
    held.keep rfl rfl rfl
  exact .ok (merged.recordMerges inserted.pairs)

theorem Counted.advance (counted : e.Counted) (merge : Arena K V → List Head → Merged)
    (fuel rounds : Nat) : Leaves Counted Counted (e.advance merge fuel p token rounds) := by
  induction rounds generalizing e with
  | zero => exact .exhausted
  | succ rounds ih =>
    unfold Engine.advance
    refine (counted.pass fuel).bind fun passed held => ?_
    split
    · exact .ok held
    · split
      · exact .ok (held.keep rfl rfl rfl)
      · exact (held.recover merge fuel).bind fun _ recovered => ih recovered

omit [Token K] in
theorem Counted.settle (counted : e.Counted) (merge : Arena K V → List Head → Merged) :
    (e.settle merge).Counted :=
  ((counted.recordMerges _).recordMerges _).sweep rfl rfl rfl

theorem Counted.input (counted : e.Counted) (fuel : Nat) :
    Leaves Counted Counted (e.input fuel p token) := by
  have begun : e.begun.Counted := counted.keep rfl rfl rfl
  have advanced : Leaves Counted Counted (e.begun.advance Merged.ofHeads fuel p token fuel) :=
    begun.advance Merged.ofHeads fuel fuel
  cases run : e.input fuel p token with
  | ok after =>
    obtain ⟨stepped, moved, rfl⟩ := exists_of_inputWith_eq_ok run
    exact .ok ((advanced.of_eq_ok moved).settle _)
  | error stop =>
    cases stop with
    | exhausted => exact .exhausted
    | fault cause after =>
      obtain ⟨stopped, moved, rfl⟩ := exists_of_inputWith_eq_fault run
      exact .fault ((advanced.of_eq_fault moved).sweep rfl rfl rfl)

theorem Reached.counted {past : List K} (reached : Reached p past e) : e.Counted := by
  induction reached with
  | start => exact counted_start
  | input _ run ih => exact (ih.input _).of_eq_ok run
  | fault _ run ih => exact (ih.input _).of_eq_fault run

end Engine

end Nodes

section Heads

theorem Branch.length_select_fork (b : Branch K V) (serial : Nat) (moves : List (Move K V)) :
    (Fate.shifted.select (b.fork serial moves)).length +
        (Fate.waiting.select (b.fork serial moves)).length +
          (Fate.accepted.select (b.fork serial moves)).length = moves.length := by
  induction moves generalizing serial with
  | nil => rfl
  | cons move moves ih =>
    obtain ⟨fate, frames⟩ := move
    have rest := ih (serial + 1)
    cases fate <;> simp [Branch.fork] <;> omega

theorem Branch.length_merge (branches : List (Branch K V)) :
    (Branch.merge branches).1.length + (Branch.merge branches).2 = branches.length :=
  Nat.add_sub_of_le (survivors_subperm path rank branches).length_le

/-- Every branch that came from a fork, a deletion or an insertion waits, shifted, was accepted, merged
or stranded, or is one of the `turns` branches whose turn is still to come. -/
def Branching.Balanced (s : Branching K V) (turns : Nat) : Prop :=
  s.waiting.length + s.shifted.length + s.accepted.length + turns + s.stats.merged +
      s.stats.strandings =
    1 + s.stats.forks + s.stats.deletions + s.stats.insertions

namespace Branching

variable {s after : Branching K V}

theorem balanced_start : (start : Branching K V).Balanced 1 := rfl

theorem Balanced.of_isEmpty (balanced : s.Balanced s.live.length) (none : s.live.isEmpty = true) :
    s.Balanced 0 :=
  List.length_eq_zero_iff.mpr (List.isEmpty_iff.mp none) ▸ balanced

/-- A branch that had its turn has become as many as it had moves, or is stranded. -/
theorem Balanced.conclude {turns : Nat} (balanced : s.Balanced (turns + 1)) (b : Branch K V)
    (moves : List (Move K V)) : ((s.take b moves).conclude b moves.length).Balanced turns := by
  have forks := b.length_select_fork s.serial moves
  unfold Balanced at balanced ⊢
  unfold Branching.conclude
  split <;> simp only [Branching.take, List.length_append] <;> omega

theorem Balanced.prepare {turns : Nat} (balanced : s.Balanced turns) (record : ErrorRecord)
    (b : Branch K V) (moves : List (Move K V)) (queue : List (Branch K V)) :
    (Branching.prepare record b moves (s, queue)).1.Balanced turns := by
  unfold Balanced at balanced ⊢
  simp only [Branching.prepare, List.length_append, List.length_map]
  omega

theorem Balanced.settle (balanced : s.Balanced 0) (waiting : s.waiting = []) :
    (s.settle Branch.merge).Balanced (s.settle Branch.merge).live.length := by
  have accepted := Branch.length_merge s.accepted
  have shifted := Branch.length_merge s.shifted
  unfold Balanced at balanced ⊢
  simp only [Branching.settle, waiting, List.length_nil] at balanced ⊢
  omega

variable [Token K] {p : Parser K V} {token : K}

theorem Balanced.foldlM_step {branches : List (Branch K V)} (balanced : s.Balanced branches.length)
    (run : branches.foldlM (step p token) s = .ok after) : after.Balanced 0 := by
  induction branches generalizing s with
  | nil =>
    cases run
    exact balanced
  | cons b rest ih =>
    rw [List.foldlM_cons] at run
    obtain ⟨s', one, run⟩ := exists_of_bind_eq_ok run
    obtain ⟨moves, -, rfl⟩ := step_eq_ok.mp one
    exact ih (balanced.conclude b moves) run

theorem Balanced.pass (balanced : s.Balanced s.live.length) {fuel : Nat}
    (run : s.pass p token fuel = .ok after) : after.Balanced 0 := by
  induction fuel generalizing s with
  | zero =>
    unfold Branching.pass at run
    split at run
    · next none =>
      cases run
      exact balanced.of_isEmpty none
    · cases run
  | succ fuel ih =>
    unfold Branching.pass at run
    split at run
    · next none =>
      cases run
      exact balanced.of_isEmpty none
    · obtain ⟨s', round, rest⟩ := exists_of_bind_eq_ok run
      have stepped := Balanced.foldlM_step (s := { s with live := [] }) balanced round
      have turned : { s' with live := s'.waiting, waiting := [] }.Balanced s'.waiting.length := by
        unfold Balanced at stepped ⊢
        simp only [List.length_nil]
        omega
      exact ih turned rest

theorem Balanced.insertAll {turns : Nat} (balanced : s.Balanced turns) {terminal fuel : Nat}
    {queue : List (Branch K V)} (run : insertAll p token terminal fuel (s, queue) = .ok after) :
    after.Balanced turns := by
  induction fuel generalizing s queue with
  | zero =>
    unfold Branching.insertAll at run
    split at run
    · cases run
      exact balanced
    · cases run
  | succ fuel ih =>
    unfold Branching.insertAll at run
    split at run
    · cases run
      exact balanced
    · obtain ⟨⟨s', queue'⟩, inserted, rest⟩ := exists_of_bind_eq_ok run
      refine ih (foldlM_keeps (fun x : Branching K V × List (Branch K V) => x.1.Balanced turns)
        (fun x b y _ held one => ?_) balanced inserted) rest
      obtain ⟨moves, -, rfl⟩ := insertAt_eq_ok.mp one
      exact held.prepare _ b moves x.2

theorem Balanced.repair {turns : Nat} (balanced : s.Balanced turns) {fuel : Nat} {b : Branch K V}
    (run : s.repair fuel p token b = .ok after) : after.Balanced turns := by
  unfold Branching.repair at run
  refine foldlM_keeps (·.Balanced turns) (fun x terminal y _ held one => held.insertAll one) ?_ run
  split
  · exact balanced
  · unfold Balanced at balanced ⊢
    simp only [Branching.delete, List.length_append, List.length_singleton]
    omega

theorem Balanced.recover (balanced : s.Balanced 0) {fuel : Nat}
    (run : s.recover Branch.merge fuel p token = .ok after) : after.Balanced after.live.length := by
  obtain ⟨s', repaired, rest⟩ := exists_of_bind_eq_ok run
  cases rest
  have held : s'.Balanced 0 := foldlM_keeps (·.Balanced 0)
    (fun x b y _ held one => held.repair one) (x := { s with stranded := [] }) balanced repaired
  have inserted := Branch.length_merge s'.waiting
  unfold Balanced at held ⊢
  simp only [List.length_nil]
  omega

theorem Balanced.advance (balanced : s.Balanced s.live.length) {fuel rounds : Nat}
    (run : s.advance Branch.merge fuel p token rounds = .ok after) : after.Balanced 0 := by
  induction rounds generalizing s with
  | zero => cases run
  | succ rounds ih =>
    obtain ⟨passed, pass, rest⟩ := exists_of_bind_eq_ok run
    have held := balanced.pass pass
    split at rest
    · cases rest
      exact held
    · split at rest
      · cases rest
        exact held
      · obtain ⟨next, recovered, rest⟩ := exists_of_bind_eq_ok rest
        exact ih (held.recover recovered) rest

theorem Balanced.input (balanced : s.Balanced s.live.length) (idle : s.Idle) {fuel : Nat}
    (run : s.input Branch.merge fuel p token = .ok after) : after.Balanced after.live.length := by
  obtain ⟨advanced, moved, settled⟩ := exists_of_bind_eq_ok run
  cases settled
  have waiting : advanced.waiting = [] := advance_eq_ok moved idle.waiting
  have begun : { s with stats := { s.stats with tokens := s.stats.tokens + 1 } }.Balanced
    s.live.length := balanced
  exact (begun.advance moved).settle waiting

end Branching

variable [Token K] {p : Parser K V} {past : List K} {e : Engine K V}

/-- What an engine can be after it was given the tokens and every call has ended well. -/
inductive Engine.Succeeds (p : Parser K V) : List K → Engine K V → Prop
  | start : Engine.Succeeds p [] .start
  | input {past : List K} {token : K} {fuel : Nat} {e e' : Engine K V} : Engine.Succeeds p past e →
      e.input fuel p token = .ok e' → Engine.Succeeds p (past ++ [token]) e'

theorem Engine.Succeeds.parse {tokens : List K} {fuel : Nat} {e' : Engine K V}
    (succeeds : Engine.Succeeds p past e) (run : e.parse fuel p tokens = .ok e') :
    Engine.Succeeds p (past ++ tokens) e' := by
  induction tokens generalizing past e with
  | nil =>
    cases run
    simpa using succeeds
  | cons token rest ih =>
    obtain ⟨next, taken, run⟩ := exists_of_bind_eq_ok run
    simpa using ih (succeeds.input taken) run

theorem Engine.Succeeds.exists_balanced (succeeds : Engine.Succeeds p past e) :
    ∃ s, e.Shows s ∧ s.Idle ∧ s.Balanced s.live.length := by
  induction succeeds with
  | start => exact ⟨_, Engine.shows_start, Branching.idle_start, Branching.balanced_start⟩
  | @input past token fuel e e' _ run ih =>
    obtain ⟨s, shows, idle, balanced⟩ := ih
    obtain ⟨after, taken, shows'⟩ :=
      (shows.input faithful_ofHeads idle.waiting fuel p token).exists_of_eq_ok run
    exact ⟨after, shows', idle.input taken, balanced.input idle taken⟩

/-- After every call the nodes that are there and those that were reclaimed are the first root and
what was pushed: one node for each shift, reduction and insertion and for each reduction that
prepared an insertion. While every call ended well, the heads that are live, accepted, merged or
stranded are the first one and what forks, deletions and insertions brought up. -/
theorem Engine.Reached.stats_balance (reached : Engine.Reached p past e) :
    e.arena.size + e.stats.reclaimed =
        1 + e.stats.shifts + e.stats.reductions + e.stats.insertions + e.stats.closures ∧
      (Engine.Succeeds p past e →
        e.heads.length + e.accepted.length + e.stats.merged + e.stats.strandings =
          1 + e.stats.forks + e.stats.deletions + e.stats.insertions) := by
  refine ⟨reached.counted.nodes, fun succeeds => ?_⟩
  obtain ⟨s, shows, idle, balanced⟩ := succeeds.exists_balanced
  unfold Branching.Balanced at balanced
  rw [idle.waiting, idle.shifted, ← shows.live.length_eq, ← shows.accepted.length_eq,
    ← shows.stats] at balanced
  simp only [List.length_nil] at balanced
  omega

theorem Engine.Reached.stats_balance_repaired : ∃ e,
    Engine.Reached (Arithmetic.parser .precedence)
        [Arithmetic.one, Arithmetic.one, Arithmetic.stop] e ∧
      e.stats.closures = 3 ∧ e.stats.merged = 2 ∧ e.stats.strandings = 1 ∧
      e.arena.size + e.stats.reclaimed =
        1 + e.stats.shifts + e.stats.reductions + e.stats.insertions + e.stats.closures ∧
      e.heads.length + e.accepted.length + e.stats.merged + e.stats.strandings =
        1 + e.stats.forks + e.stats.deletions + e.stats.insertions := by
  obtain ⟨e, run, closures, merged, strandings⟩ : ∃ e,
      Engine.parse 9 (Arithmetic.parser .precedence)
          [Arithmetic.one, Arithmetic.one, Arithmetic.stop] .start = .ok e ∧
        e.stats.closures = 3 ∧ e.stats.merged = 2 ∧ e.stats.strandings = 1 := ⟨_, rfl, rfl, rfl, rfl⟩
  have balances := (Engine.Reached.start.parse run).stats_balance
  exact ⟨e, Engine.Reached.start.parse run, closures, merged, strandings, balances.1,
    balances.2 (Engine.Succeeds.start.parse run)⟩

end Heads

end GeneralizedLR
