import GeneralizedLR.Proofs.Engine.Leading
import GeneralizedLR.Proofs.Engine.Run

/-!
Runs with a branch in front. A stack that is reduced as far as it can be before every token stays in
front of all other stacks, if the table lets it. Then its branch is live after every token, is alone
on its path, and is the one that is accepted.
-/

set_option autoImplicit false
set_option relaxedAutoImplicit false

namespace GeneralizedLR

open Relation (ReflTransGen)

variable {K V : Type} [Token K]

section Front

/-- How a stack that is reduced as far as it can be compares with all others: it is the shorter one of
two that differ, and it stays so at every token. -/
structure Table.Outruns (t : Table) (extent : List Nat → Nat) (pace : Nat)
    (beside : List Nat → List Nat → Prop) : Prop where
  paced : ∀ token : K, t.Paced token extent pace
  shorter : ∀ lead stack, beside lead stack → stack = lead ∨ extent lead < extent stack
  shift : ∀ (token : K) lead ready lead' stack ready' stack', beside lead stack →
    ReflTransGen (t.Reduces token) lead ready → (∀ next, ¬ t.Reduces token ready next) →
      t.Shifts token ready lead' → ReflTransGen (t.Reduces token) stack ready' →
        t.Shifts token ready' stack' → beside lead' stack'

/-- A branch without a repair has the given stack and is alone on its path, and that stack is in front of
those of all other branches without a repair. -/
structure Branching.Front (beside : List Nat → List Nat → Prop) (frames : List (Frame K V))
    (s : Branching K V) : Prop where
  idle : s.Idle
  live : ∃ before serial behind, s.live = before ++ ({ frames, serial } : Branch K V) :: behind ∧
    ∀ b ∈ before ++ behind, Frame.states b.frames ≠ Frame.states frames
  beside : ∀ b ∈ s.live, b.level = 0 → beside (Frame.states frames) (Frame.states b.frames)

namespace Branching.Front

variable {p : Parser K V} {extent : List Nat → Nat} {pace : Nat}
  {beside : List Nat → List Nat → Prop} {tokens : List K} {token : K}
  {frames ready frames' : List (Frame K V)} {s after : Branching K V}

omit [Token K] in
theorem start (same : beside [0] [0]) : Branching.Front beside [] (Branching.start : Branching K V) where
  idle := idle_start
  live := ⟨[], 0, [], rfl, by simp⟩
  beside := by
    intro b member _
    obtain rfl := List.mem_singleton.mp member
    exact same

theorem leads (front : Branching.Front beside frames s)
    (outruns : p.table.Outruns (K := K) extent pace beside) :
    Branch.Leads extent frames s.live := by
  obtain ⟨before, serial, behind, live, others⟩ := front.live
  refine ⟨before, serial, behind, live, fun b member clean => ?_⟩
  have listed : b ∈ s.live := by
    rw [live]
    rcases List.mem_append.mp member with left | right
    · exact List.mem_append_left _ left
    · exact List.mem_append_right _ (List.mem_cons_of_mem _ right)
  exact (outruns.shorter _ _ (front.beside b listed clean)).resolve_left (others b member)

private theorem contract_beside (outruns : p.table.Outruns (K := K) extent pace beside)
    {lead ready lead' : List Nat} (chain : ReflTransGen (p.table.Reduces token) lead ready)
    (still : ∀ next, ¬ p.table.Reduces token ready next) (goes : p.table.Shifts token ready lead') :
    Contract p token
      (fun b => b.level = 0 → ∃ stack, beside lead stack ∧
        ReflTransGen (p.table.Reduces token) stack (Frame.states b.frames))
      (fun _ _ => True)
      (fun b => b.level = 0 → ∃ stack, beside lead stack ∧
        ReflTransGen (p.table.Reduces token) stack (Frame.states b.frames))
      (fun b => b.level = 0 → beside lead' (Frame.states b.frames)) (fun _ => True) where
  shift := by
    intro b serial faces target entry clean
    obtain ⟨stack, held, chain'⟩ := faces clean
    exact outruns.shift token _ _ _ _ _ _ held chain still goes chain'
      (Parser.shifts_states_iff.mpr ⟨target, entry, rfl⟩)
  reduce := by
    intro b serial frames faces production entry reduced clean
    obtain ⟨stack, held, chain'⟩ := faces clean
    exact ⟨stack, held, chain'.tail
      (Parser.reduces_states_iff.mpr ⟨production, entry, frames, reduced, rfl⟩)⟩
  accept _ _ _ _ _ _ _ := trivial
  delete _ _ _ _ := fun clean => nomatch clean
  queue _ _ _ _ := trivial
  prepare _ _ _ _ _ _ _ _ _ := trivial
  insert _ _ _ _ _ _ _ := fun clean => nomatch clean

theorem input (front : Branching.Front beside frames s)
    (outruns : p.table.Outruns (K := K) extent pace beside) (hastens : p.Hastens token frames ready)
    {target : Nat} (shifts : p.targets token ready = [target]) (settled : p.rules token ready = [])
    {fuel : Nat} (run : s.input Branch.merge fuel p token = .ok after) :
    Branching.Front beside (⟨target, .lexeme token⟩ :: ready) after where
  idle := front.idle.input run
  live := by
    have last : p.movesOn token ready = .ok [(.shifted, ⟨target, .lexeme token⟩ :: ready)] :=
      Parser.movesOn_of_targets shifts settled
    exact front.idle.exists_live hastens (outruns.paced token) last (front.leads outruns) run
  beside := by
    have still : ∀ next, ¬ p.table.Reduces token (Frame.states ready) next := by
      intro next reduces
      obtain ⟨production, entry, -⟩ := Parser.reduces_states_iff.mp reduces
      rw [settled] at entry
      cases entry
    have goes : p.table.Shifts token (Frame.states ready) (target :: Frame.states ready) :=
      Parser.shifts_states_iff.mpr ⟨target, by simp [shifts], rfl⟩
    exact ((contract_beside outruns hastens.states still goes).input selects_merge front.idle
      (fun b member clean => ⟨_, front.beside b member clean, .refl⟩) (fun _ _ => trivial) run).1

theorem parse (front : Branching.Front beside frames s)
    (outruns : p.table.Outruns (K := K) extent pace beside) (rushes : p.Rushes tokens frames frames')
    {fuel : Nat} (run : Branching.parse Branch.merge fuel p tokens s = .ok after) :
    Branching.Front beside frames' after := by
  induction rushes generalizing s with
  | nil =>
    cases run
    exact front
  | cons hastens shifts settled _ ih =>
    obtain ⟨next, taken, rest⟩ := exists_of_bind_eq_ok run
    exact ih (front.input outruns hastens shifts settled taken) rest

theorem finish (front : Branching.Front beside frames s)
    (outruns : p.table.Outruns (K := K) extent pace beside) (hastens : p.Hastens token frames ready)
    (last : p.movesOn token ready = .ok [(.accepted, frames')])
    (arrives : p.Arrives token .accepted (Frame.states frames') extent
      (extent (Frame.states ready)))
    (none : s.accepted = []) {fuel : Nat} (run : s.input Branch.merge fuel p token = .ok after) :
    ∃ serial, ({ frames := frames', serial } : Branch K V) ∈ after.accepted :=
  front.idle.exists_accepted hastens (outruns.paced token) last arrives
    (front.leads outruns) none run

end Branching.Front

end Front

end GeneralizedLR
