import GeneralizedLR.Proofs.Engine.Run
import GeneralizedLR.Proofs.Automaton

/-!
Comparing two branchings by what they cover. A branch covers another one if it has the same path and
no more repairs; then it can do all that the other one can, in a pass and in a recovery. So what is
covered stays covered, whatever equivalent branches are dropped and whatever their order is.
-/

set_option autoImplicit false
set_option relaxedAutoImplicit false

namespace GeneralizedLR

variable {K V : Type}

section Moves

variable {frames frames' : List (Frame K V)}

theorem Frame.top_eq_of_states (same : Frame.states frames = Frame.states frames') :
    Frame.top frames = Frame.top frames' := by
  obtain ⟨below, top⟩ := Frame.exists_states_eq_cons frames
  obtain ⟨below', top'⟩ := Frame.exists_states_eq_cons frames'
  rw [top, top'] at same
  exact (List.cons.inj same).1

theorem Frame.length_eq_of_states (same : Frame.states frames = Frame.states frames') :
    frames.length = frames'.length := by
  simpa [Frame.states] using congrArg List.length same

theorem Frame.states_drop_eq (same : Frame.states frames = Frame.states frames') (count : Nat) :
    Frame.states (frames.drop count) = Frame.states (frames'.drop count) := by
  unfold Frame.states at same ⊢
  rw [List.map_drop, List.map_drop, List.append_cancel_right same]

def Move.Alike (move move' : Move K V) : Prop :=
  move'.1 = move.1 ∧ Frame.states move'.2 = Frame.states move.2

variable {p : Parser K V}

theorem Parser.exists_reduct_of_states (same : Frame.states frames = Frame.states frames')
    {lookahead : K} {production : Nat} {move : Move K V}
    (run : p.reduct lookahead frames production = .ok move) :
    ∃ move', p.reduct lookahead frames' production = .ok move' ∧ move.Alike move' := by
  obtain ⟨rule, state, listed, arity, landing, rfl⟩ := Parser.reduct_eq_ok.mp run
  have below := Frame.states_drop_eq same rule.arity
  rw [Frame.top_eq_of_states below] at landing
  rw [Frame.length_eq_of_states same] at arity
  exact ⟨_, Parser.reduct_eq_ok.mpr ⟨rule, state, listed, arity, landing, rfl⟩, rfl,
    congrArg (state :: ·) below.symm⟩

theorem Parser.exists_moves_of_states (same : Frame.states frames = Frame.states frames')
    {lookahead lexeme : K} {targets rules : List Nat} {made : List (Move K V)}
    (run : p.moves lookahead lexeme targets rules frames = .ok made) :
    ∃ made', p.moves lookahead lexeme targets rules frames' = .ok made' ∧
      List.Forall₂ Move.Alike made made' := by
  unfold Parser.moves at run ⊢
  cases found : rules.mapM (p.reduct lookahead frames) with
  | error cause =>
    rw [found] at run
    cases run
  | ok reducts =>
    rw [found] at run
    cases run
    obtain ⟨reducts', found', pairs⟩ :=
      exists_mapM_forall₂ (fun _ _ => Parser.exists_reduct_of_states same) found
    rw [found']
    refine ⟨_, rfl, List.rel_append ?_ pairs⟩
    rw [List.forall₂_map_left_iff, List.forall₂_map_right_iff]
    exact List.forall₂_same.mpr fun target _ => ⟨rfl, congrArg (target :: ·) same.symm⟩

theorem Parser.exists_movesBefore_of_states (same : Frame.states frames = Frame.states frames')
    [Token K] {token : K} {terminal : Nat} {made : List (Move K V)}
    (run : p.movesBefore token terminal frames = .ok made) :
    ∃ made', p.movesBefore token terminal frames' = .ok made' ∧
      List.Forall₂ Move.Alike made made' := by
  unfold Parser.movesBefore at run ⊢
  rw [← Frame.top_eq_of_states same]
  exact Parser.exists_moves_of_states same run

theorem Parser.exists_movesOn_of_states (same : Frame.states frames = Frame.states frames')
    [Token K] {token : K} {made : List (Move K V)} (run : p.movesOn token frames = .ok made) :
    ∃ made', p.movesOn token frames' = .ok made' ∧ List.Forall₂ Move.Alike made made' := by
  unfold Parser.movesOn Parser.targets Parser.rules at run ⊢
  rw [← Frame.top_eq_of_states same]
  exact Parser.exists_moves_of_states same run

end Moves

section Covered

/-- A branch with the same path as another one and with no more repairs. -/
structure Branch.Covers (b' b : Branch K V) : Prop where
  states : Frame.states b'.frames = Frame.states b.frames
  level : b'.level ≤ b.level

def Branch.Covered (branches others : List (Branch K V)) : Prop :=
  ∀ b ∈ branches, ∃ b' ∈ others, b'.Covers b

/-- A way to merge branches drops only branches that are covered by others. -/
structure Fair (policy : List (Branch K V) → List (Branch K V) × Nat) : Prop where
  selects : Selects policy
  covered : ∀ branches, Branch.Covered branches (policy branches).1

theorem fair_merge : Fair (Branch.merge (K := K) (V := V)) where
  selects := selects_merge
  covered _ _ member := by
    obtain ⟨kept, survives, states, level⟩ := Branch.exists_mem_merge member
    exact ⟨kept, survives, states, level⟩

theorem fair_unmerged : Fair fun branches : List (Branch K V) => (branches, 0) where
  selects _ _ member := member
  covered _ b member := ⟨b, member, rfl, le_rfl⟩

namespace Branch.Covered

variable {branches others more : List (Branch K V)}

theorem of_nil (none : branches = []) : Covered branches others := by
  rw [none]
  exact fun _ member => nomatch member

theorem of_subset (members : ∀ b ∈ branches, b ∈ others) : Covered branches others :=
  fun b member => ⟨b, members b member, rfl, le_rfl⟩

theorem trans (first : Covered branches others) (second : Covered others more) :
    Covered branches more := by
  intro b member
  obtain ⟨b', member', states, level⟩ := first b member
  obtain ⟨b'', member'', states', level'⟩ := second b' member'
  exact ⟨b'', member'', states'.trans states, level'.trans level⟩

theorem mono (covered : Covered branches others) (kept : others <+: more) :
    Covered branches more :=
  covered.trans (of_subset fun _ member => kept.subset member)

theorem append (covered : Covered branches more) (also : Covered others more) :
    Covered (branches ++ others) more :=
  fun b member => (List.mem_append.mp member).elim (covered b) (also b)

/-- Branches that make the same moves as the branches that cover them stay covered. -/
theorem fork {b b' : Branch K V} (covers : b'.Covers b) {made made' : List (Move K V)}
    (pairs : List.Forall₂ Move.Alike made' made) (fate : Fate) (serial serial' : Nat) :
    Covered (fate.select (b.fork serial made)) (fate.select (b'.fork serial' made')) := by
  intro b₁ forked
  obtain ⟨frames, number, move, rfl⟩ := Branch.exists_move_of_mem_fork forked
  obtain ⟨⟨_, frames'⟩, move', rfl, states⟩ := exists_of_forall₂_right pairs move
  obtain ⟨number', forked'⟩ := b'.exists_mem_fork move' serial'
  exact ⟨_, forked', states.symm, covers.level⟩

theorem repaired (covered : Covered branches others) (record : ErrorRecord) :
    Covered (branches.map (·.repaired record)) (others.map (·.repaired record)) := by
  intro b₁ member
  obtain ⟨b, listed, rfl⟩ := List.mem_map.mp member
  obtain ⟨b', listed', states, level⟩ := covered b listed
  exact ⟨_, List.mem_map_of_mem listed', states, Nat.succ_le_succ level⟩

theorem merge (covered : Covered branches others)
    {policy policy' : List (Branch K V) → List (Branch K V) × Nat} (fair : Fair policy)
    (fair' : Fair policy') : Covered (policy branches).1 (policy' others).1 :=
  ((of_subset (fair.selects branches)).trans covered).trans (fair'.covered others)

theorem isEmpty_eq (covered : Covered branches others) (converse : Covered others branches) :
    branches.isEmpty = others.isEmpty := by
  cases branches with
  | nil =>
    cases others with
    | nil => rfl
    | cons b rest =>
      obtain ⟨_, member, -⟩ := converse b (List.mem_cons_self ..)
      cases member
  | cons b rest =>
    obtain ⟨_, member, -⟩ := covered b (List.mem_cons_self ..)
    cases others with
    | nil => cases member
    | cons => rfl

end Branch.Covered

/-- In all sets that a token fills, the branches of the first branching are covered in the second. -/
structure Branching.Below (s u : Branching K V) : Prop where
  waiting : Branch.Covered s.waiting u.waiting
  shifted : Branch.Covered s.shifted u.shifted
  stranded : Branch.Covered s.stranded u.stranded
  accepted : Branch.Covered s.accepted u.accepted

theorem Branching.Below.held {s u : Branching K V} (below : s.Below u) (fate : Fate) :
    Branch.Covered (s.held fate) (u.held fate) := by
  cases fate with
  | shifted => exact below.shifted
  | waiting => exact below.waiting
  | accepted => exact below.accepted

theorem Branching.Below.mono {s u after : Branching K V} (below : s.Below u) (kept : u.Grows after) :
    s.Below after :=
  ⟨below.waiting.mono kept.waiting, below.shifted.mono kept.shifted,
    below.stranded.mono kept.stranded, below.accepted.mono kept.accepted⟩

theorem Branching.Grows.held {s after : Branching K V} (grows : s.Grows after) (fate : Fate) :
    s.held fate <+: after.held fate := by
  cases fate with
  | shifted => exact grows.shifted
  | waiting => exact grows.waiting
  | accepted => exact grows.accepted

end Covered

namespace Branching

variable [Token K] {p : Parser K V} {token : K} {s u u' after : Branching K V} {b b' : Branch K V}

section Pass

def KeepsPace (s s' u u' : Branching K V) : Prop :=
  s.accepted.length < s'.accepted.length → u.accepted.length < u'.accepted.length

omit [Token K] in
theorem KeepsPace.refl (s u u' : Branching K V) : s.KeepsPace s u u' :=
  fun more => absurd more (Nat.lt_irrefl _)

omit [Token K] in
theorem KeepsPace.trans {s' s'' u₀ u₁ : Branching K V} (first : s.KeepsPace s' u u')
    (second : s'.KeepsPace s'' u₀ u₁) (before : u.accepted <+: u₀.accepted)
    (behind : u₁.accepted <+: u'.accepted) : s.KeepsPace s'' u u' := by
  intro more
  by_cases early : s.accepted.length < s'.accepted.length
  · exact first early
  · have late : s'.accepted.length < s''.accepted.length := by omega
    exact (before.length_le.trans_lt (second late)).trans_le behind.length_le

/-- If a branch that covers another one is stepped, the other one can be stepped, too, and all that
it brings in is covered. -/
theorem Below.step (below : s.Below after) (covers : b'.Covers b)
    (run : u.step p token b' = .ok u') (kept : u'.Grows after) :
    ∃ s', s.step p token b = .ok s' ∧ s'.Below after ∧ s.KeepsPace s' u u' := by
  obtain ⟨made', found', rfl⟩ := step_eq_ok.mp run
  obtain ⟨made, found, pairs⟩ := Parser.exists_movesOn_of_states covers.states found'
  have forks := fun fate => Branch.Covered.fork covers pairs fate s.serial u.serial
  have brings : ∀ fate, Branch.Covered (((s.take b made).conclude b made.length).held fate)
      (after.held fate) := by
    intro fate
    have grown := kept.held fate
    rw [held_take_conclude] at grown ⊢
    exact (below.held fate).append ((forks fate).trans
      (.of_subset fun _ member => grown.subset (List.mem_append_right _ member)))
  refine ⟨_, step_eq_ok.mpr ⟨made, found, rfl⟩, ⟨brings .waiting, brings .shifted, ?_,
    brings .accepted⟩, fun more => ?_⟩
  · rw [conclude_stranded]
    refine below.stranded.append fun b₁ new => ?_
    split at new
    · next none =>
      obtain rfl := List.mem_singleton.mp new
      refine ⟨b', kept.stranded.subset ?_, covers⟩
      rw [conclude_stranded, if_pos (pairs.length_eq.trans none)]
      simp
    · cases new
  · have lengths := congrArg List.length (held_take_conclude s b made made.length .accepted)
    have lengths' := congrArg List.length (held_take_conclude u b' made' made'.length .accepted)
    rw [List.length_append] at lengths lengths'
    have some : 0 < (Fate.accepted.select (b.fork s.serial made)).length := by
      have gap : (s.held .accepted).length <
        (((s.take b made).conclude b made.length).held .accepted).length := more
      omega
    obtain ⟨b₁, forked⟩ := List.exists_mem_of_length_pos some
    obtain ⟨b₂, forked', -⟩ := forks .accepted b₁ forked
    have some' := List.length_pos_of_mem forked'
    change (u.held .accepted).length <
      (((u.take b' made').conclude b' made'.length).held .accepted).length
    omega

theorem Below.foldlM_step {branches branches' : List (Branch K V)} (below : s.Below u)
    (covered : Branch.Covered branches branches')
    (run : branches'.foldlM (Branching.step p token) u = .ok after) :
    ∃ s', branches.foldlM (Branching.step p token) s = .ok s' ∧ s'.Below after ∧
      s.KeepsPace s' u after := by
  have grown := foldlM_step_grows run
  refine exists_foldlM_eq_ok (fun x => x.Below after ∧ s.KeepsPace x u after)
    (fun x b member held => ?_) ⟨below.mono grown, .refl s u after⟩
  obtain ⟨b', member', covers⟩ := covered b member
  obtain ⟨y, y', before, stepped, behind⟩ := exists_step_of_foldlM member' run
  obtain ⟨x', stepped', below', pace⟩ := held.1.step covers stepped behind
  exact ⟨x', stepped', below', held.2.trans pace before.accepted behind.accepted⟩

private theorem Below.pass_nil {fuel fuel' : Nat} (below : s.Below u) (none : s.live = [])
    (waiting : s.waiting = []) (run : u.pass p token fuel' = .ok after) :
    Yields (fun s' => s'.Below after ∧ s.KeepsPace s' u after) (s.pass p token fuel) := by
  rw [Branching.pass_nil none]
  obtain ⟨kept, strandings⟩ := pass_grows run
  exact .ok ⟨⟨.of_nil waiting, below.shifted.mono kept.shifted, below.stranded.mono strandings,
    below.accepted.mono kept.accepted⟩, .refl s u after⟩

theorem Below.pass {fuel fuel' : Nat} (below : s.Below u) (covered : Branch.Covered s.live u.live)
    (waiting : s.waiting = []) (run : u.pass p token fuel' = .ok after) :
    Yields (fun s' => s'.Below after ∧ s.KeepsPace s' u after) (s.pass p token fuel) := by
  induction fuel generalizing s u fuel' with
  | zero =>
    by_cases none : s.live = []
    · exact below.pass_nil none waiting run
    · rw [Branching.pass, if_neg (by simpa using none)]
      exact .exhausted
  | succ fuel ih =>
    by_cases none : s.live = []
    · exact below.pass_nil none waiting run
    · obtain ⟨b, member⟩ := List.exists_mem_of_ne_nil _ none
      obtain ⟨b', member', -⟩ := covered b member
      obtain ⟨rounds, u₁, rfl, round, rest⟩ := exists_round_of_pass run member'
      have grown : u.accepted <+: u₁.accepted := (foldlM_step_grows round).accepted
      have cleared : { s with live := [] }.Below { u with live := [] } :=
        ⟨below.waiting, below.shifted, below.stranded, below.accepted⟩
      obtain ⟨s₁, round', below₁, pace⟩ := cleared.foldlM_step covered round
      have turned : { s₁ with live := s₁.waiting, waiting := [] }.Below
          { u₁ with live := u₁.waiting, waiting := [] } :=
        ⟨.of_nil rfl, below₁.shifted, below₁.stranded, below₁.accepted⟩
      have kept := (pass_grows rest).1.accepted
      have early : s.KeepsPace s₁ u after := (KeepsPace.refl s u after).trans pace
        (List.prefix_refl _) kept
      rw [Branching.pass, if_neg (by simpa using none), round']
      exact (ih turned below₁.waiting rfl rest).imp fun s' _ held =>
        ⟨held.1, early.trans held.2 grown (List.prefix_refl _)⟩

end Pass

section Recover

/-- What a branch can insert is covered by what a branch that covers it can insert. -/
theorem Below.insertAt {terminal : Nat} {queue : List (Branch K V)}
    {x' y' : Branching K V × List (Branch K V)} (below : s.Below after) (covers : b'.Covers b)
    (run : Branching.insertAt p token terminal x' b' = .ok y') (kept : y'.1.Grows after)
    {later : List (Branch K V)} (queued : Branch.Covered queue later) (more : y'.2 <+: later) :
    ∃ y, Branching.insertAt p token terminal (s, queue) b = .ok y ∧ y.1.Below after ∧
      Branch.Covered y.2 later := by
  obtain ⟨made', found', rfl⟩ := insertAt_eq_ok.mp run
  obtain ⟨made, found, pairs⟩ := Parser.exists_movesBefore_of_states covers.states found'
  have forks := fun fate => Branch.Covered.fork covers pairs fate s.serial x'.1.serial
  refine ⟨_, insertAt_eq_ok.mpr ⟨made, found, rfl⟩, { below with waiting := ?_ }, ?_⟩
  · exact below.waiting.append (((forks .shifted).repaired _).trans
      (.of_subset fun _ member => kept.waiting.subset (List.mem_append_right _ member)))
  · exact queued.append ((forks .waiting).trans
      (.of_subset fun _ member => more.subset (List.mem_append_right _ member)))

private theorem insertAt_grows {terminal : Nat} {x y : Branching K V × List (Branch K V)}
    (run : Branching.insertAt p token terminal x b = .ok y) : x.1.Grows y.1 ∧ x.2 <+: y.2 := by
  obtain ⟨made, -, rfl⟩ := insertAt_eq_ok.mp run
  exact ⟨⟨⟨List.prefix_refl _, List.prefix_refl _⟩, List.prefix_append .., List.prefix_refl _⟩,
    List.prefix_append ..⟩

theorem Below.insertAll {terminal fuel fuel' : Nat} {queue queue' : List (Branch K V)}
    (below : s.Below after) (covered : Branch.Covered queue queue')
    (run : Branching.insertAll p token terminal fuel' (u, queue') = .ok u') (kept : u'.Grows after) :
    Yields (·.Below after) (Branching.insertAll p token terminal fuel (s, queue)) := by
  induction fuel generalizing s u queue queue' fuel' with
  | zero =>
    unfold Branching.insertAll
    split
    · exact .ok below
    · exact .exhausted
  | succ fuel ih =>
    unfold Branching.insertAll
    split
    · exact .ok below
    · next some =>
      have some' : ¬ queue'.isEmpty := by
        intro none
        have empty := List.isEmpty_iff.mp none
        cases queue with
        | nil => exact some rfl
        | cons b rest =>
          obtain ⟨b', member, -⟩ := covered b (List.mem_cons_self ..)
          rw [empty] at member
          cases member
      cases fuel' with
      | zero =>
        unfold Branching.insertAll at run
        rw [if_neg some'] at run
        cases run
      | succ fuel' =>
        unfold Branching.insertAll at run
        rw [if_neg some'] at run
        obtain ⟨⟨u₁, later⟩, round, rest⟩ := exists_of_bind_eq_ok run
        have behind := (insertAll_grows rest).1.trans kept
        obtain ⟨⟨s₁, next⟩, round', below₁, covered₁⟩ := exists_foldlM_eq_ok
          (f := Branching.insertAt p token terminal) (l := queue)
          (fun x : Branching K V × List (Branch K V) =>
            x.1.Below after ∧ Branch.Covered x.2 later)
          (by
            rintro ⟨x, earlier⟩ b member ⟨held, queued⟩
            obtain ⟨b', member', covers⟩ := covered b member
            obtain ⟨x', y', -, one, grown, more⟩ := exists_round_of_foldlM
              (R := fun x y : Branching K V × List (Branch K V) => x.1.Grows y.1 ∧ x.2 <+: y.2)
              (fun x => ⟨.refl x.1, List.prefix_refl _⟩)
              (fun first second => ⟨first.1.trans second.1, first.2.trans second.2⟩)
              (fun _ _ _ one => insertAt_grows one) member' round
            exact held.insertAt covers one (grown.trans behind) queued more)
          (x := (s, [])) ⟨below, .of_nil rfl⟩
        rw [round']
        exact ih below₁ covered₁ rest

/-- The repairs of a branch are covered by the repairs of a branch that covers it. -/
theorem Below.repair {fuel fuel' : Nat} (below : s.Below after) (covers : b'.Covers b)
    (run : u.repair fuel' p token b' = .ok u') (kept : u'.Grows after) :
    Yields (·.Below after) (s.repair fuel p token b) := by
  unfold Branching.repair at run ⊢
  refine Yields.foldlM (fun x terminal member held => ?_) ?_
  · obtain ⟨x', y', -, one, behind⟩ := exists_round_of_foldlM
      (f := fun s terminal => Branching.insertAll p token terminal fuel' (s, [b'])) Grows.refl
      Grows.trans (fun _ _ _ one => (insertAll_grows one).1) member run
    refine held.insertAll (fun b₁ listed => ?_) one (behind.trans kept)
    obtain rfl := List.mem_singleton.mp listed
    exact ⟨b', List.mem_singleton_self b', covers⟩
  · split
    · exact below
    · next goes =>
      rw [if_neg goes] at run
      have grown : (u.delete token b').Grows after :=
        (foldlM_keeps (Grows (u.delete token b'))
          (fun _ _ _ _ held one => held.trans (insertAll_grows one).1) (.refl _) run).trans kept
      refine { below with shifted := below.shifted.append fun b₁ listed => ?_ }
      obtain rfl := List.mem_singleton.mp listed
      exact ⟨_, grown.shifted.subset (List.mem_append_right _ (List.mem_singleton_self _)),
        covers.states, Nat.succ_le_succ covers.level⟩

theorem Below.recover {policy policy' : List (Branch K V) → List (Branch K V) × Nat}
    (fair : Fair policy) (fair' : Fair policy') {fuel fuel' : Nat} (below : s.Below u)
    (run : u.recover policy' fuel' p token = .ok after) :
    Yields (fun s' => s'.Below after ∧ Branch.Covered s'.live after.live)
      (s.recover policy fuel p token) := by
  obtain ⟨u₁, repaired, done⟩ := exists_of_bind_eq_ok run
  cases done
  have grown : { u with stranded := [] }.Grows u₁ :=
    foldlM_keeps (Grows { u with stranded := [] })
      (fun _ _ _ _ held one => held.trans (repair_grows one).1) (.refl _) repaired
  have cleared : { s with stranded := [] }.Below u₁ :=
    ⟨below.waiting.mono grown.waiting, below.shifted.mono grown.shifted, .of_nil rfl,
      below.accepted.mono grown.accepted⟩
  refine (Yields.foldlM (P := (·.Below u₁)) (fun x b member held => ?_) cleared).bind
    fun s₁ repaired' below₁ => ?_
  · obtain ⟨b', member', covers⟩ := below.stranded b member
    obtain ⟨x', y', -, one, behind⟩ := exists_repair_of_foldlM member' repaired
    exact held.repair covers one behind
  · exact .ok ⟨⟨.of_nil rfl, below₁.shifted, below₁.stranded, below₁.accepted⟩,
      below₁.waiting.merge fair fair'⟩

end Recover

end Branching

end GeneralizedLR
