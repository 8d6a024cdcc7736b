import GeneralizedLR.Proofs.Engine.Moves

/-!
What a token brings in stays: no pass and no recovery takes back a branch that shifted or was
accepted. Every live branch has its turn in a pass, and every stranded one in a recovery.
-/

set_option autoImplicit false
set_option relaxedAutoImplicit false

namespace GeneralizedLR

variable {K V : Type}

/-- Branches that shifted or were accepted stay where they are. -/
structure Branching.Keeps (s after : Branching K V) : Prop where
  shifted : s.shifted <+: after.shifted
  accepted : s.accepted <+: after.accepted

structure Branching.Grows (s after : Branching K V) : Prop extends s.Keeps after where
  waiting : s.waiting <+: after.waiting
  stranded : s.stranded <+: after.stranded

namespace Branching

variable {s s' after : Branching K V} {b : Branch K V}

theorem Keeps.refl (s : Branching K V) : s.Keeps s := ⟨List.prefix_refl _, List.prefix_refl _⟩

theorem Keeps.trans (first : s.Keeps s') (second : s'.Keeps after) : s.Keeps after :=
  ⟨first.shifted.trans second.shifted, first.accepted.trans second.accepted⟩

theorem Grows.refl (s : Branching K V) : s.Grows s :=
  ⟨.refl s, List.prefix_refl _, List.prefix_refl _⟩

theorem Grows.trans (first : s.Grows s') (second : s'.Grows after) : s.Grows after :=
  ⟨first.toKeeps.trans second.toKeeps, first.waiting.trans second.waiting,
    first.stranded.trans second.stranded⟩

variable [Token K] {p : Parser K V} {token : K}

theorem step_grows (run : s.step p token b = .ok after) : s.Grows after := by
  obtain ⟨moves, -, rfl⟩ := step_eq_ok.mp run
  have held := held_prefix_take_conclude s b moves moves.length
  refine ⟨⟨held .shifted, held .accepted⟩, held .waiting, ?_⟩
  rw [conclude_stranded]
  exact List.prefix_append ..

theorem pass_nil (live : s.live = []) (fuel : Nat) : s.pass p token fuel = .ok s := by
  cases fuel <;> rw [Branching.pass, if_pos (by simp [live])]

theorem exists_round_of_pass {fuel : Nat} (run : s.pass p token fuel = .ok after)
    (member : b ∈ s.live) :
    ∃ rounds stepped, fuel = rounds + 1 ∧
      s.live.foldlM (Branching.step p token) { s with live := [] } = .ok stepped ∧
        Branching.pass p token rounds { stepped with live := stepped.waiting, waiting := [] } =
          .ok after := by
  cases fuel with
  | zero =>
    rw [Branching.pass, if_neg (by simp [List.ne_nil_of_mem member])] at run
    cases run
  | succ rounds =>
    rw [Branching.pass, if_neg (by simp [List.ne_nil_of_mem member])] at run
    obtain ⟨stepped, round, rest⟩ := exists_of_bind_eq_ok run
    exact ⟨rounds, stepped, rfl, round, rest⟩

theorem foldlM_step_grows {branches : List (Branch K V)}
    (run : branches.foldlM (step p token) s = .ok after) : s.Grows after :=
  foldlM_keeps s.Grows (fun _ _ _ _ held one => held.trans (step_grows one)) (.refl s) run

theorem exists_step_of_foldlM {branches : List (Branch K V)} (member : b ∈ branches)
    (run : branches.foldlM (step p token) s = .ok after) :
    ∃ x y, s.Grows x ∧ x.step p token b = .ok y ∧ y.Grows after :=
  exists_round_of_foldlM (f := step p token) Grows.refl Grows.trans
    (fun _ _ _ one => step_grows one) member run

theorem pass_grows {fuel : Nat} (run : s.pass p token fuel = .ok after) :
    s.Keeps after ∧ s.stranded <+: after.stranded := by
  induction fuel generalizing s with
  | zero =>
    unfold Branching.pass at run
    split at run
    · cases run
      exact ⟨.refl _, List.prefix_refl _⟩
    · cases run
  | succ fuel ih =>
    unfold Branching.pass at run
    split at run
    · cases run
      exact ⟨.refl _, List.prefix_refl _⟩
    · obtain ⟨s', stepped, rest⟩ := exists_of_bind_eq_ok run
      have first := foldlM_step_grows stepped
      obtain ⟨kept, stranded⟩ := ih rest
      exact ⟨⟨first.shifted.trans kept.shifted, first.accepted.trans kept.accepted⟩,
        first.stranded.trans stranded⟩

theorem pass_eq_ok {fuel : Nat} (run : s.pass p token fuel = .ok after) (waiting : s.waiting = []) :
    after.live = [] ∧ after.waiting = [] := by
  induction fuel generalizing s with
  | zero =>
    unfold Branching.pass at run
    split at run
    · next empty =>
      cases run
      exact ⟨List.isEmpty_iff.mp empty, waiting⟩
    · cases run
  | succ fuel ih =>
    unfold Branching.pass at run
    split at run
    · next empty =>
      cases run
      exact ⟨List.isEmpty_iff.mp empty, waiting⟩
    · obtain ⟨s', -, rest⟩ := exists_of_bind_eq_ok run
      exact ih rest rfl

theorem insertAll_grows {terminal fuel : Nat} {queue : List (Branch K V)}
    (run : insertAll p token terminal fuel (s, queue) = .ok after) :
    s.Grows after ∧ after.stranded = s.stranded := by
  induction fuel generalizing s queue with
  | zero =>
    unfold Branching.insertAll at run
    split at run
    · cases run
      exact ⟨.refl _, rfl⟩
    · cases run
  | succ fuel ih =>
    unfold Branching.insertAll at run
    split at run
    · cases run
      exact ⟨.refl _, rfl⟩
    · obtain ⟨⟨s', queue'⟩, inserted, rest⟩ := exists_of_bind_eq_ok run
      have kept : s.Grows s' ∧ s'.stranded = s.stranded := by
        refine foldlM_keeps (fun x : Branching K V × List (Branch K V) =>
          s.Grows x.1 ∧ x.1.stranded = s.stranded)
          (fun x b y _ held one => ?_) ⟨.refl s, rfl⟩ inserted
        obtain ⟨moves, -, rfl⟩ := insertAt_eq_ok.mp one
        exact ⟨held.1.trans ⟨⟨List.prefix_refl _, List.prefix_refl _⟩, List.prefix_append ..,
          List.prefix_refl _⟩, held.2⟩
      obtain ⟨grown, stranded⟩ := ih rest
      exact ⟨kept.1.trans grown, stranded.trans kept.2⟩

theorem repair_grows {fuel : Nat} (run : s.repair fuel p token b = .ok after) :
    s.Grows after ∧ after.stranded = s.stranded := by
  unfold Branching.repair at run
  refine foldlM_keeps (fun x => s.Grows x ∧ x.stranded = s.stranded)
    (fun x terminal y _ held one => ?_) ?_ run
  · obtain ⟨grown, stranded⟩ := insertAll_grows one
    exact ⟨held.1.trans grown, stranded.trans held.2⟩
  · split
    · exact ⟨.refl s, rfl⟩
    · exact ⟨⟨⟨List.prefix_append .., List.prefix_refl _⟩, List.prefix_refl _, List.prefix_refl _⟩, rfl⟩

theorem insertAll_still {terminal fuel : Nat} {queue : List (Branch K V)}
    (run : insertAll p token terminal fuel (s, queue) = .ok after) :
    after.shifted = s.shifted ∧ after.accepted = s.accepted ∧ s.serial ≤ after.serial := by
  induction fuel generalizing s queue with
  | zero =>
    unfold Branching.insertAll at run
    split at run
    · cases run
      exact ⟨rfl, rfl, le_rfl⟩
    · cases run
  | succ fuel ih =>
    unfold Branching.insertAll at run
    split at run
    · cases run
      exact ⟨rfl, rfl, le_rfl⟩
    · obtain ⟨⟨s', queue'⟩, inserted, rest⟩ := exists_of_bind_eq_ok run
      have kept : s'.shifted = s.shifted ∧ s'.accepted = s.accepted ∧ s.serial ≤ s'.serial := by
        refine foldlM_keeps (fun x : Branching K V × List (Branch K V) =>
          x.1.shifted = s.shifted ∧ x.1.accepted = s.accepted ∧ s.serial ≤ x.1.serial)
          (fun x b y _ held one => ?_) ⟨rfl, rfl, le_rfl⟩ inserted
        obtain ⟨moves, -, rfl⟩ := insertAt_eq_ok.mp one
        exact ⟨held.1, held.2.1, held.2.2.trans (Nat.le_add_right _ _)⟩
      obtain ⟨shifted, accepted, older⟩ := ih rest
      exact ⟨shifted.trans kept.1, accepted.trans kept.2.1, kept.2.2.trans older⟩

theorem repair_shifted {fuel : Nat} (goes : Token.isEnd token = false)
    (run : s.repair fuel p token b = .ok after) :
    after.shifted = s.shifted ++ [{ b.repaired (unexpected token) with serial := s.serial + 1 }] ∧
      after.accepted = s.accepted ∧ s.serial + 1 ≤ after.serial := by
  unfold Branching.repair at run
  rw [if_neg (by simp [goes])] at run
  refine foldlM_keeps (fun x : Branching K V => x.shifted = s.shifted ++
      [{ b.repaired (unexpected token) with serial := s.serial + 1 }] ∧
    x.accepted = s.accepted ∧ s.serial + 1 ≤ x.serial) (x := s.delete token b)
    (fun x terminal y _ held one => ?_) ⟨rfl, rfl, le_rfl⟩ run
  obtain ⟨shifted, accepted, older⟩ := insertAll_still one
  exact ⟨shifted.trans held.1, accepted.trans held.2.1, held.2.2.trans older⟩

theorem foldlM_repair_shifts {fuel : Nat} {branches : List (Branch K V)}
    (goes : Token.isEnd token = false)
    (run : branches.foldlM (repair fuel p token) s = .ok after) :
    after.accepted = s.accepted ∧ ∃ dropped, after.shifted = s.shifted ++ dropped ∧
      List.Forall₂ (fun b dropped => ∃ serial,
        dropped = { b.repaired (unexpected token) with serial }) branches dropped := by
  induction branches generalizing s with
  | nil =>
    cases run
    exact ⟨rfl, [], (List.append_nil _).symm, .nil⟩
  | cons b branches ih =>
    rw [List.foldlM_cons] at run
    obtain ⟨repaired, one, rest⟩ := exists_of_bind_eq_ok run
    obtain ⟨shifted, accepted, -⟩ := repair_shifted goes one
    obtain ⟨accepted', dropped, shifted', drops⟩ := ih rest
    refine ⟨accepted'.trans accepted,
      { b.repaired (unexpected token) with serial := s.serial + 1 } :: dropped, ?_,
      .cons ⟨_, rfl⟩ drops⟩
    rw [shifted', shifted, List.append_assoc, List.singleton_append]

theorem exists_repair_of_foldlM {fuel : Nat} {branches : List (Branch K V)} (member : b ∈ branches)
    (run : branches.foldlM (repair fuel p token) s = .ok after) :
    ∃ x y, s.Grows x ∧ x.repair fuel p token b = .ok y ∧ y.Grows after :=
  exists_round_of_foldlM (f := repair fuel p token) Grows.refl Grows.trans
    (fun _ _ _ one => (repair_grows one).1) member run

theorem recover_keeps {policy : List (Branch K V) → List (Branch K V) × Nat} {fuel : Nat}
    (run : s.recover policy fuel p token = .ok after) :
    s.Keeps after ∧ after.waiting = [] ∧ after.stranded = [] := by
  obtain ⟨s', repaired, rest⟩ := exists_of_bind_eq_ok run
  cases rest
  have kept : { s with stranded := [] }.Grows s' ∧ s'.stranded = [] := by
    refine foldlM_keeps (fun x => { s with stranded := [] }.Grows x ∧ x.stranded = [])
      (fun x b y _ held one => ?_) ⟨.refl _, rfl⟩ repaired
    obtain ⟨grown, stranded⟩ := repair_grows one
    exact ⟨held.1.trans grown, stranded.trans held.2⟩
  exact ⟨⟨kept.1.shifted, kept.1.accepted⟩, rfl, kept.2⟩

theorem recover_shifts {policy : List (Branch K V) → List (Branch K V) × Nat} {fuel : Nat}
    (goes : Token.isEnd token = false) (run : s.recover policy fuel p token = .ok after) :
    after.accepted = s.accepted ∧ ∃ dropped, after.shifted = s.shifted ++ dropped ∧
      List.Forall₂ (fun b dropped => ∃ serial,
        dropped = { b.repaired (unexpected token) with serial }) s.stranded dropped := by
  obtain ⟨s', repaired, rest⟩ := exists_of_bind_eq_ok run
  cases rest
  exact (foldlM_repair_shifts goes repaired :)

/-- What the first pass over a token brings in is there when the token was taken in. -/
theorem advance_keeps {policy : List (Branch K V) → List (Branch K V) × Nat} {fuel rounds : Nat}
    (run : s.advance policy fuel p token rounds = .ok after) :
    ∃ passed, s.pass p token fuel = .ok passed ∧ passed.Keeps after := by
  induction rounds generalizing s with
  | zero => cases run
  | succ rounds ih =>
    obtain ⟨s', passed, rest⟩ := exists_of_bind_eq_ok run
    refine ⟨s', passed, ?_⟩
    split at rest
    · cases rest
      exact .refl _
    · split at rest
      · cases rest
        exact .refl _
      · obtain ⟨s'', recovered, rest⟩ := exists_of_bind_eq_ok rest
        obtain ⟨next, again, kept⟩ := ih rest
        exact (recover_keeps recovered).1.trans ((pass_grows again).1.trans kept)

theorem advance_eq_ok {policy : List (Branch K V) → List (Branch K V) × Nat} {fuel rounds : Nat}
    (run : s.advance policy fuel p token rounds = .ok after) (waiting : s.waiting = []) :
    after.waiting = [] := by
  induction rounds generalizing s with
  | zero => cases run
  | succ rounds ih =>
    obtain ⟨s', passed, rest⟩ := exists_of_bind_eq_ok run
    split at rest
    · cases rest
      exact (pass_eq_ok passed waiting).2
    · split at rest
      · cases rest
        exact (pass_eq_ok passed waiting).2
      · obtain ⟨s'', recovered, rest⟩ := exists_of_bind_eq_ok rest
        exact ih rest (recover_keeps recovered).2.1

/-- If something was shifted or accepted, or if nothing can be repaired, a pass is the last one. -/
theorem advance_of_settled (policy : List (Branch K V) → List (Branch K V) × Nat) {fuel : Nat}
    (run : s.pass p token fuel = .ok after)
    (settled : after.shifted ≠ [] ∨ s.accepted.length < after.accepted.length ∨
      after.stranded = []) (rounds : Nat) :
    s.advance policy fuel p token (rounds + 1) = .ok after := by
  rw [Branching.advance, run]
  change ite _ _ _ = _
  split
  · rfl
  · next unsettled =>
    have none : after.stranded = [] := by
      simp only [Bool.or_eq_true, Bool.not_eq_true', decide_eq_true_eq, not_or,
        Bool.not_eq_false, List.isEmpty_iff] at unsettled
      rcases settled with shifted | accepted | none
      · exact absurd unsettled.1 shifted
      · exact absurd accepted unsettled.2
      · exact none
    rw [if_pos (by simp [none])]
    rfl

/-- If only stranded branches are left, a recovery comes between a pass and the rest. -/
theorem advance_eq_recover (policy : List (Branch K V) → List (Branch K V) × Nat) {fuel : Nat}
    {passed : Branching K V} (run : s.pass p token fuel = .ok passed) (shifted : passed.shifted = [])
    (accepted : passed.accepted.length ≤ s.accepted.length) (stranded : passed.stranded ≠ [])
    (rounds : Nat) :
    s.advance policy fuel p token (rounds + 1) =
      passed.recover policy fuel p token >>= fun next => next.advance policy fuel p token rounds := by
  rw [Branching.advance, run]
  change ite _ _ _ = _
  rw [if_neg (by simp [shifted, accepted]), if_neg (by simp [stranded])]

theorem advance_of_stuck {policy : List (Branch K V) → List (Branch K V) × Nat} {fuel : Nat}
    {passed : Branching K V} (run : s.pass p token fuel = .ok passed)
    (recovered : passed.recover policy fuel p token = .ok after) (shifted : passed.shifted = [])
    (accepted : passed.accepted.length ≤ s.accepted.length) (stranded : passed.stranded ≠ [])
    (rounds : Nat) :
    s.advance policy fuel p token (rounds + 1) = after.advance policy fuel p token rounds := by
  rw [advance_eq_recover policy run shifted accepted stranded, recovered]
  rfl

end Branching

end GeneralizedLR
