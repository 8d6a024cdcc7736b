import GeneralizedLR.Proofs.Engine.Growth

/-!
What one pass makes of the branches that are live. It repairs nothing, so what it shifts, strands or
accepts follows from the entries of the table alone; and a stranded branch is one for which the table
has no entry.
-/

set_option autoImplicit false
set_option relaxedAutoImplicit false

namespace GeneralizedLR

variable {K V : Type} [Token K]

/-- The properties that a pass hands on from a live branch: to what it shifts, to what it reduces, and
to itself if it can do neither. -/
structure Branching.Turns (p : Parser K V) (token : K)
    (live shifted stranded accepted : Branch K V → Prop) : Prop where
  shift : ∀ b serial, live b → ∀ target ∈ p.targets token b.frames,
    shifted { b with frames := ⟨target, .lexeme token⟩ :: b.frames, serial }
  reduce : ∀ b serial frames, live b → ∀ production ∈ p.rules token b.frames,
    p.reduct token b.frames production = .ok (.waiting, frames) → live { b with frames, serial }
  accept : ∀ b serial frames, live b → ∀ production ∈ p.rules token b.frames,
    p.reduct token b.frames production = .ok (.accepted, frames) →
      accepted { b with frames, serial }
  strand : ∀ b, live b → p.targets token b.frames = [] → p.rules token b.frames = [] → stranded b

omit [Token K] in
/-- All branches have the property of the set where a pass puts them. -/
structure Branching.Sorted (live shifted stranded accepted : Branch K V → Prop)
    (s : Branching K V) : Prop where
  alive : ∀ b ∈ s.live, live b
  waits : ∀ b ∈ s.waiting, live b
  gone : ∀ b ∈ s.shifted, shifted b
  stuck : ∀ b ∈ s.stranded, stranded b
  done : ∀ b ∈ s.accepted, accepted b

namespace Branching.Turns

variable {p : Parser K V} {token : K} {live shifted stranded accepted : Branch K V → Prop}
  {s after : Branching K V}

theorem step (turns : Turns p token live shifted stranded accepted) {b : Branch K V}
    (lives : live b) (sorted : s.Sorted live shifted stranded accepted)
    (run : s.step p token b = .ok after) : after.Sorted live shifted stranded accepted := by
  obtain ⟨moves, made, rfl⟩ := step_eq_ok.mp run
  refine ⟨?_, fun b' member => ?_, fun b' member => ?_, fun b' member => ?_, fun b' member => ?_⟩
  · simpa [Branching.take] using sorted.alive
  · rcases mem_held_take_conclude .waiting member with member | ⟨frames, number, move, rfl⟩
    · exact sorted.waits b' member
    · obtain ⟨production, entry, reduced⟩ :=
        (Parser.mem_moves_of_ne_shifted made Fate.noConfusion).mp move
      exact turns.reduce b number frames lives production entry reduced
  · rcases mem_held_take_conclude .shifted member with member | ⟨frames, number, move, rfl⟩
    · exact sorted.gone b' member
    · obtain ⟨target, entry, rfl⟩ := (Parser.mem_moves_shifted made).mp move
      exact turns.shift b number lives target entry
  · rw [conclude_stranded] at member
    rcases List.mem_append.mp member with member | member
    · exact sorted.stuck b' member
    · split at member
      · next none =>
        have count := Parser.length_moves made
        obtain rfl := List.mem_singleton.mp member
        exact turns.strand b' lives (List.length_eq_zero_iff.mp (by omega))
          (List.length_eq_zero_iff.mp (by omega))
      · cases member
  · rcases mem_held_take_conclude .accepted member with member | ⟨frames, number, move, rfl⟩
    · exact sorted.done b' member
    · obtain ⟨production, entry, reduced⟩ :=
        (Parser.mem_moves_of_ne_shifted made Fate.noConfusion).mp move
      exact turns.accept b number frames lives production entry reduced

theorem pass (turns : Turns p token live shifted stranded accepted) {fuel : Nat}
    (sorted : s.Sorted live shifted stranded accepted) (run : s.pass p token fuel = .ok after) :
    after.Sorted live shifted stranded accepted := by
  induction fuel generalizing s with
  | zero =>
    unfold Branching.pass at run
    split at run
    · cases run
      exact sorted
    · cases run
  | succ fuel ih =>
    unfold Branching.pass at run
    split at run
    · cases run
      exact sorted
    · obtain ⟨s', stepped, rest⟩ := exists_of_bind_eq_ok run
      have cleared : { s with live := [] }.Sorted live shifted stranded accepted :=
        { sorted with alive := by simp }
      have kept : s'.Sorted live shifted stranded accepted :=
        foldlM_keeps _ (fun x b y member held => turns.step (sorted.alive b member) held) cleared
          stepped
      have turned : { s' with live := s'.waiting, waiting := [] }.Sorted live shifted stranded
          accepted :=
        { kept with alive := kept.waits, waits := by simp }
      exact ih turned rest

end Branching.Turns

end GeneralizedLR
