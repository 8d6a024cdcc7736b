import GeneralizedLR.Proofs.Engine.Turns

/-!
What the branches of a branching have in common. A contract says which property each step passes on:
from a live branch to what it shifts, reduces and accepts, and through a repair. Whatever the table
and the order of the steps, the branches after a token then have the properties of the contract.
-/

set_option autoImplicit false
set_option relaxedAutoImplicit false

namespace GeneralizedLR

variable {K V : Type}

/-- All branches have the property of the set where they are. -/
structure Branching.Meets (live waiting shifted accepted : Branch K V → Prop) (s : Branching K V) :
    Prop where
  alive : ∀ b ∈ s.live, live b
  waits : ∀ b ∈ s.waiting, waiting b
  gone : ∀ b ∈ s.shifted, shifted b
  stuck : ∀ b ∈ s.stranded, live b
  done : ∀ b ∈ s.accepted, accepted b

def Selects (policy : List (Branch K V) → List (Branch K V) × Nat) : Prop :=
  ∀ branches, ∀ b ∈ (policy branches).1, b ∈ branches

theorem selects_merge : Selects (Branch.merge (K := K) (V := V)) :=
  fun _ _ member => mem_of_mem_survivors member

variable [Token K]

/-- The properties that a token passes on. The live branches of a pass have one, those that look for
a place to insert a terminal another one, and those with an insertion a third one. -/
structure Branching.Contract (p : Parser K V) (token : K) (live : Branch K V → Prop)
    (queued : Nat → Branch K V → Prop) (next shifted accepted : Branch K V → Prop) : Prop where
  shift : ∀ b serial, live b → ∀ target ∈ p.targets token b.frames,
    shifted { b with frames := ⟨target, .lexeme token⟩ :: b.frames, serial }
  reduce : ∀ b serial frames, live b → ∀ production ∈ p.rules token b.frames,
    p.reduct token b.frames production = .ok (.waiting, frames) → live { b with frames, serial }
  accept : ∀ b serial frames, live b → ∀ production ∈ p.rules token b.frames,
    p.reduct token b.frames production = .ok (.accepted, frames) →
      accepted { b with frames, serial }
  delete : ∀ b serial, live b → Token.isEnd token = false →
    shifted { b.repaired (Branching.unexpected token) with serial }
  queue : ∀ b, live b → ∀ terminal ∈ p.table.insertable, queued terminal b
  prepare : ∀ terminal ∈ p.table.insertable, ∀ b serial frames, queued terminal b →
    ∀ production ∈ p.table.reduces (Frame.top b.frames) terminal,
      p.reduct token b.frames production = .ok (.waiting, frames) →
        queued terminal { b with frames, serial }
  insert : ∀ terminal ∈ p.table.insertable, ∀ b serial, queued terminal b →
    ∀ target ∈ p.table.shifts (Frame.top b.frames) terminal,
      next (Branch.repaired { b with
        frames := ⟨target, .lexeme (Token.correction token terminal (p.table.describe terminal))⟩ ::
          b.frames
        serial } (Branching.missing p token terminal))

namespace Branching.Contract

variable {p : Parser K V} {token : K} {live : Branch K V → Prop}
  {queued : Nat → Branch K V → Prop} {next shifted accepted : Branch K V → Prop}
  {s after : Branching K V}

omit [Token K] in
private theorem sorted_iff_meets : s.Sorted live shifted live accepted ↔
    s.Meets live live shifted accepted :=
  ⟨fun sorted => { sorted with }, fun meets => { meets with }⟩

private theorem turns (contract : Contract p token live queued next shifted accepted) :
    Turns p token live shifted live accepted :=
  { contract with strand := fun _ lives _ _ => lives }

theorem step (contract : Contract p token live queued next shifted accepted) {b : Branch K V}
    (lives : live b) (meets : s.Meets live live shifted accepted)
    (run : s.step p token b = .ok after) : after.Meets live live shifted accepted :=
  sorted_iff_meets.mp (contract.turns.step lives (sorted_iff_meets.mpr meets) run)

theorem pass (contract : Contract p token live queued next shifted accepted) {fuel : Nat}
    (meets : s.Meets live live shifted accepted) (run : s.pass p token fuel = .ok after) :
    after.Meets live live shifted accepted :=
  sorted_iff_meets.mp (contract.turns.pass (sorted_iff_meets.mpr meets) run)

theorem insertAt (contract : Contract p token live queued next shifted accepted) {terminal : Nat}
    (insertable : terminal ∈ p.table.insertable) {b : Branch K V} (ready : queued terminal b)
    {x y : Branching K V × List (Branch K V)} (meets : x.1.Meets live next shifted accepted)
    (waits : ∀ b ∈ x.2, queued terminal b)
    (run : Branching.insertAt p token terminal x b = .ok y) :
    y.1.Meets live next shifted accepted ∧ ∀ b ∈ y.2, queued terminal b := by
  obtain ⟨moves, made, rfl⟩ := insertAt_eq_ok.mp run
  refine ⟨{ meets with waits := fun b' member => ?_ }, fun b' member => ?_⟩
  · rcases List.mem_append.mp member with member | member
    · exact meets.waits b' member
    · obtain ⟨b'', forked, rfl⟩ := List.mem_map.mp member
      obtain ⟨frames, number, move, rfl⟩ := Branch.exists_move_of_mem_fork forked
      obtain ⟨target, entry, rfl⟩ := (Parser.mem_moves_shifted made).mp move
      exact contract.insert terminal insertable b number ready target entry
  · rcases List.mem_append.mp member with member | member
    · exact waits b' member
    · obtain ⟨frames, number, move, rfl⟩ := Branch.exists_move_of_mem_fork member
      obtain ⟨production, entry, reduced⟩ :=
        (Parser.mem_moves_of_ne_shifted made Fate.noConfusion).mp move
      exact contract.prepare terminal insertable b number frames ready production entry reduced

theorem insertAll (contract : Contract p token live queued next shifted accepted) {terminal : Nat}
    (insertable : terminal ∈ p.table.insertable) {fuel : Nat} {queue : List (Branch K V)}
    (meets : s.Meets live next shifted accepted) (ready : ∀ b ∈ queue, queued terminal b)
    (run : Branching.insertAll p token terminal fuel (s, queue) = .ok after) :
    after.Meets live next shifted accepted := by
  induction fuel generalizing s queue with
  | zero =>
    unfold Branching.insertAll at run
    split at run
    · cases run
      exact meets
    · cases run
  | succ fuel ih =>
    unfold Branching.insertAll at run
    split at run
    · cases run
      exact meets
    · obtain ⟨⟨s', queue'⟩, inserted, rest⟩ := exists_of_bind_eq_ok run
      have kept : s'.Meets live next shifted accepted ∧ ∀ b ∈ queue', queued terminal b :=
        foldlM_keeps (fun x : Branching K V × List (Branch K V) =>
          x.1.Meets live next shifted accepted ∧ ∀ b ∈ x.2, queued terminal b)
          (fun x b y member held => contract.insertAt insertable (ready b member) held.1 held.2)
          ⟨meets, by simp⟩ inserted
      exact ih kept.1 kept.2 rest

theorem delete_meets (contract : Contract p token live queued next shifted accepted)
    {b : Branch K V} (lives : live b) (meets : s.Meets live next shifted accepted) :
    (if Token.isEnd token then s else s.delete token b).Meets live next shifted accepted := by
  split
  · exact meets
  · next goes =>
    refine { meets with gone := fun b' member => ?_ }
    rcases List.mem_append.mp member with member | member
    · exact meets.gone b' member
    · obtain rfl := List.mem_singleton.mp member
      exact contract.delete b (s.serial + 1) lives (Bool.eq_false_iff.mpr goes)

theorem repair (contract : Contract p token live queued next shifted accepted) {fuel : Nat}
    {b : Branch K V} (lives : live b) (meets : s.Meets live next shifted accepted)
    (run : s.repair fuel p token b = .ok after) : after.Meets live next shifted accepted := by
  unfold Branching.repair at run
  exact foldlM_keeps _ (fun x terminal y member held one =>
    contract.insertAll member held (by simpa using contract.queue b lives terminal member) one)
    (contract.delete_meets lives meets) run

/-- All stranded branches are repaired, and those with an insertion are merged. -/
theorem recover (contract : Contract p token live queued next shifted accepted)
    {policy : List (Branch K V) → List (Branch K V) × Nat} (selects : Selects policy) {fuel : Nat}
    (meets : s.Meets live live shifted accepted) (waiting : s.waiting = [])
    (run : s.recover policy fuel p token = .ok after) : after.Meets next next shifted accepted := by
  obtain ⟨-, empty, none⟩ := recover_keeps run
  obtain ⟨s', repaired, rest⟩ := exists_of_bind_eq_ok run
  cases rest
  have cleared : { s with stranded := [] }.Meets live next shifted accepted :=
    { meets with
      waits := by simp [waiting]
      stuck := fun _ member => nomatch member }
  have kept : s'.Meets live next shifted accepted :=
    foldlM_keeps _ (fun x b y member held => contract.repair (meets.stuck b member) held) cleared
      repaired
  exact {
    alive := fun b member => kept.waits b (selects _ b member)
    waits := by simp
    gone := kept.gone
    stuck := by simp_all
    done := kept.done }

theorem advance (contract : Contract p token live queued live shifted accepted)
    {policy : List (Branch K V) → List (Branch K V) × Nat} (selects : Selects policy)
    {fuel rounds : Nat} (meets : s.Meets live live shifted accepted) (waiting : s.waiting = [])
    (run : s.advance policy fuel p token rounds = .ok after) :
    after.Meets live live shifted accepted := by
  induction rounds generalizing s with
  | zero => cases run
  | succ rounds ih =>
    obtain ⟨s', passed, rest⟩ := exists_of_bind_eq_ok run
    have kept := contract.pass meets passed
    split at rest
    · cases rest
      exact kept
    · split at rest
      · cases rest
        exact kept
      · obtain ⟨s'', recovered, rest⟩ := exists_of_bind_eq_ok rest
        have next := contract.recover selects kept (pass_eq_ok passed waiting).2 recovered
        exact ih next (recover_keeps recovered).2.1 rest

end Branching.Contract

end GeneralizedLR
