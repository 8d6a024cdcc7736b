import GeneralizedLR.Proofs.Engine.Coverage

/-!
A run behind another one. The second run has all the stacks of the first one and maybe others, and it
comes to each of them no later. A branch of the second run with certain records has a like in the first
run, and whatever came there before the like came here before the branch. Passes and merges leave it at
that, so that a branch which a merge keeps in the second run has a like that it keeps in the first one.
-/

set_option autoImplicit false
set_option relaxedAutoImplicit false

namespace GeneralizedLR

variable {K V : Type}

/-- What moves and merges see of a branch besides its age: its stack and its records. -/
abbrev Sketch (K V : Type) := List (Frame K V) × List ErrorRecord

def Branch.sketch (b : Branch K V) : Sketch K V := (b.frames, b.errors)

/-- The stacks of the first list are among those of the second one. What has the given records in the
second list has its like in the first one, and no stack comes before the like that does not come before
it in the second list. -/
structure Echo (records : List ErrorRecord) (first second : List (Sketch K V)) : Prop where
  covered : ∀ x ∈ first, ∃ y ∈ second, Frame.states y.1 = Frame.states x.1
  like : ∀ before y behind, second = before ++ y :: behind → y.2 = records →
    ∃ before' x behind', first = before' ++ x :: behind' ∧ x.1 = y.1 ∧
      ∀ z ∈ before', ∃ w ∈ before, Frame.states w.1 = Frame.states z.1

private theorem exists_of_flatMap_eq {α β : Type} {f : α → List β} {l : List α}
    {before behind : List β} {y : β} (split : l.flatMap f = before ++ y :: behind) :
    ∃ l₁ x l₂ left right, l = l₁ ++ x :: l₂ ∧ f x = left ++ y :: right ∧
      before = l₁.flatMap f ++ left := by
  induction l generalizing before with
  | nil => simp at split
  | cons x l ih =>
    rw [List.flatMap_cons] at split
    rcases List.append_eq_append_iff.mp split with ⟨rest, rfl, more⟩ | ⟨rest, first, more⟩
    · obtain ⟨l₁, x', l₂, left, right, rfl, found, rfl⟩ := ih more
      exact ⟨x :: l₁, x', l₂, left, right, rfl, found, by simp⟩
    · cases rest with
      | nil =>
        obtain ⟨l₁, x', l₂, left, right, rfl, found, same⟩ :=
          ih (show l.flatMap f = [] ++ y :: behind from more.symm)
        refine ⟨x :: l₁, x', l₂, left, right, rfl, found, ?_⟩
        rw [List.flatMap_cons, List.append_assoc, ← same, first, List.append_nil, List.append_nil]
      | cons z rest =>
        obtain ⟨rfl, rfl⟩ := List.cons.inj more
        exact ⟨[], x, l, before, rest, rfl, first, rfl⟩

namespace Echo

variable {records : List ErrorRecord} {first second first' second' : List (Sketch K V)}

theorem of_nil (others : ∀ y ∈ second, y.2 ≠ records) : Echo records [] second where
  covered _ member := nomatch member
  like before y behind split same := absurd same (others y (by simp [split]))

theorem of_map_eq (same : second.map (·.1) = first.map (·.1)) : Echo records first second where
  covered x member := by
    obtain ⟨y, listed, frames⟩ := List.mem_map.mp (same ▸ List.mem_map_of_mem member)
    exact ⟨y, listed, congrArg Frame.states frames⟩
  like before y behind split _ := by
    rw [split, List.map_append, List.map_cons] at same
    obtain ⟨before', rest, parted, starts, ends⟩ := List.map_eq_append_iff.mp same.symm
    obtain ⟨x, behind', rfl, frames, -⟩ := List.map_eq_cons_iff.mp ends
    refine ⟨before', x, behind', parted, frames, fun z member => ?_⟩
    obtain ⟨w, listed, equal⟩ := List.mem_map.mp (starts ▸ List.mem_map_of_mem member)
    exact ⟨w, listed, congrArg Frame.states equal⟩

theorem append (left : Echo records first second) (right : Echo records first' second') :
    Echo records (first ++ first') (second ++ second') where
  covered x member := by
    rcases List.mem_append.mp member with member | member
    · obtain ⟨y, listed, states⟩ := left.covered x member
      exact ⟨y, List.mem_append_left _ listed, states⟩
    · obtain ⟨y, listed, states⟩ := right.covered x member
      exact ⟨y, List.mem_append_right _ listed, states⟩
  like before y behind split same := by
    have late (rest : List (Sketch K V)) (ends : second' = rest ++ y :: behind)
        (starts : before = second ++ rest) :
        ∃ before' x behind', first ++ first' = before' ++ x :: behind' ∧ x.1 = y.1 ∧
          ∀ z ∈ before', ∃ w ∈ before, Frame.states w.1 = Frame.states z.1 := by
      obtain ⟨before', x, behind', rfl, frames, earlier⟩ := right.like rest y behind ends same
      refine ⟨first ++ before', x, behind', by simp, frames, fun z member => ?_⟩
      rw [starts]
      rcases List.mem_append.mp member with member | member
      · obtain ⟨w, listed, states⟩ := left.covered z member
        exact ⟨w, List.mem_append_left _ listed, states⟩
      · obtain ⟨w, listed, states⟩ := earlier z member
        exact ⟨w, List.mem_append_right _ listed, states⟩
    rcases List.append_eq_append_iff.mp split with ⟨rest, starts, ends⟩ | ⟨rest, starts, ends⟩
    · exact late rest ends starts
    · cases rest with
      | nil => exact late [] ends.symm (by simpa using starts.symm)
      | cons z rest =>
        obtain ⟨rfl, rfl⟩ := List.cons.inj ends
        obtain ⟨before', x, behind', rfl, frames, earlier⟩ := left.like before y rest starts same
        exact ⟨before', x, behind' ++ first', by simp, frames, earlier⟩

/-- Both lists may be replaced item by item. What comes of the first one is to be found in what comes of
items of the second one with the same states; and where items are the same, one is to echo the other.
-/
theorem flatMap {records' : List ErrorRecord} (echo : Echo records first second)
    {f g : Sketch K V → List (Sketch K V)}
    (alike : ∀ x ∈ first, ∀ y, Frame.states y.1 = Frame.states x.1 →
      ∀ x' ∈ f x, ∃ y' ∈ g y, Frame.states y'.1 = Frame.states x'.1)
    (same : ∀ x ∈ first, ∀ y, x.1 = y.1 → Echo records' (f x) (g y))
    (keeps : ∀ y, ∀ y' ∈ g y, y'.2 = records' → y.2 = records) :
    Echo records' (first.flatMap f) (second.flatMap g) := by
  have follows {l l' : List (Sketch K V)} (inside : ∀ x ∈ l, x ∈ first)
      (covered : ∀ x ∈ l, ∃ y ∈ l', Frame.states y.1 = Frame.states x.1) :
      ∀ x' ∈ l.flatMap f, ∃ y' ∈ l'.flatMap g, Frame.states y'.1 = Frame.states x'.1 := by
    intro x' member
    obtain ⟨x, listed, member⟩ := List.mem_flatMap.mp member
    obtain ⟨y, listed', states⟩ := covered x listed
    obtain ⟨y', member', states'⟩ := alike x (inside x listed) y states x' member
    exact ⟨y', List.mem_flatMap.mpr ⟨y, listed', member'⟩, states'⟩
  refine ⟨follows (fun _ => id) echo.covered, fun before y' behind split records' => ?_⟩
  obtain ⟨l₁, y, l₂, left, right, whole, found, rfl⟩ := exists_of_flatMap_eq split
  have member : y' ∈ g y := by simp [found]
  obtain ⟨before', x, behind', rfl, frames, earlier⟩ :=
    echo.like l₁ y l₂ whole (keeps y y' member records')
  obtain ⟨left', x', right', found', frames', lefts⟩ :=
    (same x (by simp) y frames).like left y' right found records'
  refine ⟨before'.flatMap f ++ left', x', right' ++ behind'.flatMap f, by simp [found'], frames',
    fun z listed => ?_⟩
  rcases List.mem_append.mp listed with listed | listed
  · obtain ⟨w, member, states⟩ := follows (fun x known => by simp [known]) earlier z listed
    exact ⟨w, List.mem_append_left _ member, states⟩
  · obtain ⟨w, member, states⟩ := lefts z listed
    exact ⟨w, List.mem_append_right _ member, states⟩

end Echo

section Moves

variable [Token K] {p : Parser K V} {token : K}

def Parser.offspring (p : Parser K V) (token : K) (fate : Fate) (x : Sketch K V) :
    List (Sketch K V) :=
  match p.movesOn token x.1 with
  | .ok made => (made.filter (·.1 = fate)).map fun move => (move.2, x.2)
  | .error _ => []

theorem Parser.exists_mem_offspring {x y : Sketch K V} (states : Frame.states y.1 = Frame.states x.1)
    {fate : Fate} {x' : Sketch K V} (member : x' ∈ p.offspring token fate x) :
    ∃ y' ∈ p.offspring token fate y, Frame.states y'.1 = Frame.states x'.1 := by
  unfold Parser.offspring at member ⊢
  cases found : p.movesOn token x.1 with
  | error cause =>
    rw [found] at member
    cases member
  | ok made =>
    obtain ⟨made', found', pairs⟩ := Parser.exists_movesOn_of_states states.symm found
    rw [found] at member
    rw [found']
    obtain ⟨move, listed, rfl⟩ := List.mem_map.mp member
    obtain ⟨listed, kind⟩ := List.mem_filter.mp listed
    obtain ⟨move', listed', kinds, states'⟩ := exists_of_forall₂_left pairs listed
    refine ⟨_, List.mem_map_of_mem (List.mem_filter.mpr ⟨listed', ?_⟩), states'⟩
    rw [kinds]
    exact kind

theorem Parser.mem_offspring {x x' : Sketch K V} {fate : Fate} (member : x' ∈ p.offspring token fate x) :
    (∃ made, p.movesOn token x.1 = .ok made ∧ (fate, x'.1) ∈ made) ∧ x'.2 = x.2 := by
  unfold Parser.offspring at member
  split at member
  · next made found =>
    obtain ⟨⟨other, frames⟩, kept, rfl⟩ := List.mem_map.mp member
    obtain ⟨listed, kind⟩ := List.mem_filter.mp kept
    obtain rfl : other = fate := of_decide_eq_true kind
    exact ⟨⟨made, found, listed⟩, rfl⟩
  · cases member

theorem Echo.offspring {records : List ErrorRecord} {first second : List (Sketch K V)}
    (echo : Echo records first second) (p : Parser K V) (token : K) (fate : Fate) :
    Echo records (first.flatMap (p.offspring token fate)) (second.flatMap (p.offspring token fate)) := by
  refine echo.flatMap (fun x _ y states x' member => p.exists_mem_offspring states member)
    (fun x _ y frames => .of_map_eq ?_) fun y y' member same => (Parser.mem_offspring member).2 ▸ same
  unfold Parser.offspring
  rw [frames]
  cases p.movesOn token y.1 with
  | error cause => rfl
  | ok made => simp

omit [Token K] in
theorem sketch_select_fork (b : Branch K V) (fate : Fate) (serial : Nat)
    (made : List (Move K V)) :
    (fate.select (b.fork serial made)).map Branch.sketch =
      (made.filter (·.1 = fate)).map fun move => (move.2, b.errors) := by
  induction made generalizing serial with
  | nil => rfl
  | cons move made ih =>
    obtain ⟨other, frames⟩ := move
    by_cases same : other = fate
    · simp [Branch.fork, same, ih, Branch.sketch]
    · simp [Branch.fork, same, ih]

namespace Branching

variable {s u after after' : Branching K V}

theorem sketch_of_foldlM_step {branches : List (Branch K V)}
    (run : branches.foldlM (Branching.step p token) s = .ok after) (fate : Fate) :
    (after.held fate).map Branch.sketch = (s.held fate).map Branch.sketch ++
      (branches.map Branch.sketch).flatMap (p.offspring token fate) := by
  induction branches generalizing s with
  | nil =>
    cases run
    simp
  | cons b branches ih =>
    rw [List.foldlM_cons] at run
    obtain ⟨stepped, one, rest⟩ := exists_of_bind_eq_ok run
    obtain ⟨made, found, rfl⟩ := step_eq_ok.mp one
    have single : p.offspring token fate b.sketch =
        (made.filter (·.1 = fate)).map fun move => (move.2, b.errors) := by
      rw [Parser.offspring, show p.movesOn token b.sketch.1 = .ok made from found]
      rfl
    rw [ih rest, held_take_conclude, List.map_append, sketch_select_fork, List.map_cons,
      List.flatMap_cons, single, List.append_assoc]

theorem exists_turn_of_pass {fuel : Nat} (run : s.pass p token fuel = .ok after)
    (waiting : s.waiting = []) :
    ∃ rounds stepped, s.live.foldlM (Branching.step p token) { s with live := [] } = .ok stepped ∧
      Branching.pass p token rounds { stepped with live := stepped.waiting, waiting := [] } =
        .ok after := by
  by_cases none : s.live = []
  · obtain ⟨_, _, _, _, _, _, _⟩ := s
    obtain rfl := none
    obtain rfl := waiting
    exact ⟨fuel, _, rfl, run⟩
  · obtain ⟨b, member⟩ := List.exists_mem_of_ne_nil _ none
    obtain ⟨rounds, stepped, -, round, rest⟩ := exists_round_of_pass run member
    exact ⟨rounds, stepped, round, rest⟩

theorem sketch_waiting_of_turn (waiting : s.waiting = [])
    (turn : s.live.foldlM (Branching.step p token) { s with live := [] } = .ok after) :
    after.waiting.map Branch.sketch =
      (s.live.map Branch.sketch).flatMap (p.offspring token .waiting) := by
  have made : after.waiting.map Branch.sketch = s.waiting.map Branch.sketch ++
    (s.live.map Branch.sketch).flatMap (p.offspring token .waiting) := sketch_of_foldlM_step turn .waiting
  rwa [waiting, List.map_nil, List.nil_append] at made

theorem sketch_shifted_of_turn
    (turn : s.live.foldlM (Branching.step p token) { s with live := [] } = .ok after) :
    after.shifted.map Branch.sketch = s.shifted.map Branch.sketch ++
      (s.live.map Branch.sketch).flatMap (p.offspring token .shifted) :=
  sketch_of_foldlM_step turn .shifted

theorem sketch_accepted_of_turn
    (turn : s.live.foldlM (Branching.step p token) { s with live := [] } = .ok after) :
    after.accepted.map Branch.sketch = s.accepted.map Branch.sketch ++
      (s.live.map Branch.sketch).flatMap (p.offspring token .accepted) :=
  sketch_of_foldlM_step turn .accepted

/-- What two passes keep if each round does, and if the first one has nothing left when the second one has
nothing left. -/
theorem pass_related (related : Branching K V → Branching K V → Prop) {token' : K}
    (exhausted : ∀ u s, related u s → s.live = [] → u.live = [])
    (round : ∀ u s stepped stepped', related u s → u.waiting = [] → s.waiting = [] →
      u.live.foldlM (Branching.step p token) { u with live := [] } = .ok stepped →
        s.live.foldlM (Branching.step p token') { s with live := [] } = .ok stepped' →
          related { stepped with live := stepped.waiting, waiting := [] }
            { stepped' with live := stepped'.waiting, waiting := [] })
    (begun : related u s) (waiting : u.waiting = []) (waiting' : s.waiting = []) {fuel fuel' : Nat}
    (run : u.pass p token fuel = .ok after) (run' : s.pass p token' fuel' = .ok after') :
    related after after' := by
  have ended {u s : Branching K V} {fuel fuel' : Nat} (begun : related u s) (none : s.live = [])
      (run : u.pass p token fuel = .ok after) (run' : s.pass p token' fuel' = .ok after') :
      related after after' := by
    rw [Branching.pass_nil (exhausted u s begun none)] at run
    rw [Branching.pass_nil none] at run'
    cases run
    cases run'
    exact begun
  induction fuel' generalizing s u fuel with
  | zero =>
    by_cases none : s.live = []
    · exact ended begun none run run'
    · obtain ⟨b, member⟩ := List.exists_mem_of_ne_nil _ none
      obtain ⟨_, _, never, -⟩ := exists_round_of_pass run' member
      cases never
  | succ fuel' ih =>
    by_cases none : s.live = []
    · exact ended begun none run run'
    obtain ⟨b, member⟩ := List.exists_mem_of_ne_nil _ none
    obtain ⟨_, stepped', same, turn', rest'⟩ := exists_round_of_pass run' member
    cases same
    obtain ⟨rounds, stepped, turn, rest⟩ := exists_turn_of_pass run waiting
    exact ih (round u s stepped stepped' begun waiting waiting' turn turn') rfl rfl rest rest'

/-- The second branching echoes the first one in what is live and in what a pass brings in. -/
structure Echoes (records : List ErrorRecord) (u s : Branching K V) : Prop where
  live : Echo records (u.live.map Branch.sketch) (s.live.map Branch.sketch)
  shifted : Echo records (u.shifted.map Branch.sketch) (s.shifted.map Branch.sketch)
  accepted : Echo records (u.accepted.map Branch.sketch) (s.accepted.map Branch.sketch)

omit [Token K] in
theorem live_eq_nil_of_echo {records : List ErrorRecord}
    (echo : Echo records (u.live.map Branch.sketch) (s.live.map Branch.sketch)) (none : s.live = []) :
    u.live = [] := by
  refine List.eq_nil_iff_forall_not_mem.mpr fun b member => ?_
  obtain ⟨_, listed, -⟩ := echo.covered _ (List.mem_map_of_mem member)
  simp [none] at listed

theorem Echoes.pass {records : List ErrorRecord} (echoes : u.Echoes records s)
    (waiting : u.waiting = []) (waiting' : s.waiting = []) {fuel fuel' : Nat}
    (run : u.pass p token fuel = .ok after) (run' : s.pass p token fuel' = .ok after') :
    after.Echoes records after' := by
  refine pass_related (fun u s => u.Echoes records s) (fun u s echoes => live_eq_nil_of_echo echoes.live)
    (fun u s stepped stepped' echoes waiting waiting' turn turn' => ⟨?_, ?_, ?_⟩) echoes waiting
    waiting' run run'
  · rw [sketch_waiting_of_turn waiting turn, sketch_waiting_of_turn waiting' turn']
    exact echoes.live.offspring p token .waiting
  · rw [sketch_shifted_of_turn turn, sketch_shifted_of_turn turn']
    exact echoes.shifted.append (echoes.live.offspring p token .shifted)
  · rw [sketch_accepted_of_turn turn, sketch_accepted_of_turn turn']
    exact echoes.accepted.append (echoes.live.offspring p token .accepted)

end Branching

end Moves

section Age

/-- Branches with one number of repairs and in the order of their age, none of them younger than the
serial number. -/
structure Branch.Aged (level serial : Nat) (branches : List (Branch K V)) : Prop where
  ordered : branches.Pairwise (·.serial < ·.serial)
  level : ∀ b ∈ branches, b.level = level
  old : ∀ b ∈ branches, b.serial ≤ serial

namespace Branch.Aged

variable {level serial : Nat} {branches : List (Branch K V)}

theorem nil : Aged level serial ([] : List (Branch K V)) :=
  ⟨.nil, fun _ member => (nomatch member), fun _ member => nomatch member⟩

theorem ranks (aged : Aged level serial branches) :
    branches.Pairwise fun b b' => b.rank ≤ b'.rank := by
  refine aged.ordered.imp_of_mem fun member member' older => ?_
  rw [Branch.rank, Branch.rank, aged.level _ member, aged.level _ member']
  exact Prod.Lex.toLex_le_toLex.mpr (.inr ⟨rfl, older.le⟩)

theorem append (aged : Aged level serial branches) {more : List (Branch K V)} {later : Nat}
    (le : serial ≤ later) (fresh : Aged level later more) (young : ∀ b ∈ more, serial < b.serial) :
    Aged level later (branches ++ more) where
  ordered := List.pairwise_append.mpr ⟨aged.ordered, fresh.ordered, fun b member b' member' =>
    (aged.old b member).trans_lt (young b' member')⟩
  level b member := (List.mem_append.mp member).elim (aged.level b) (fresh.level b)
  old b member := (List.mem_append.mp member).elim (fun known => (aged.old b known).trans le)
    (fresh.old b)

theorem fork {b : Branch K V} (same : b.level = level) (fate : Fate) (serial : Nat)
    (made : List (Move K V)) :
    Aged level (serial + made.length) (fate.select (b.fork serial made)) := by
  induction made generalizing serial with
  | nil => exact .nil
  | cons move made ih =>
    obtain ⟨other, frames⟩ := move
    have rest := ih (serial + 1)
    rw [show serial + 1 + made.length = serial + (made.length + 1) by omega] at rest
    rw [Branch.fork, Fate.select_cons, List.length_cons]
    split
    · refine ⟨List.pairwise_cons.mpr ⟨fun b' member => ?_, rest.ordered⟩, fun b' member => ?_,
        fun b' member => ?_⟩
      · exact Branch.serial_lt_of_mem_fork member
      · rcases List.mem_cons.mp member with rfl | member
        · exact same
        · exact rest.level b' member
      · rcases List.mem_cons.mp member with rfl | member
        · change serial + 1 ≤ serial + (made.length + 1)
          omega
        · exact rest.old b' member
    · exact rest

end Branch.Aged

/-- All that a pass works on has one number of repairs, and all sets are in the order of age. -/
structure Branching.Ages (level : Nat) (s : Branching K V) : Prop where
  alive : ∀ b ∈ s.live, b.level = level
  held : ∀ fate, Branch.Aged level s.serial (s.held fate)

namespace Branching.Ages

variable [Token K] {p : Parser K V} {token : K} {level : Nat} {s after : Branching K V}

private theorem step {b : Branch K V} (ages : s.Ages level) (same : b.level = level)
    (run : s.step p token b = .ok after) : after.Ages level := by
  obtain ⟨made, -, rfl⟩ := step_eq_ok.mp run
  have serial : ((s.take b made).conclude b made.length).serial = s.serial + made.length := by
    unfold Branching.conclude
    split <;> rfl
  refine ⟨by simpa [Branching.take] using ages.alive, fun fate => ?_⟩
  rw [serial, held_take_conclude]
  exact (ages.held fate).append (Nat.le_add_right _ _) (.fork same fate s.serial made)
    fun b' member => Branch.serial_lt_of_mem_fork member

theorem pass (ages : s.Ages level) {fuel : Nat} (run : s.pass p token fuel = .ok after) :
    after.Ages level := by
  induction fuel generalizing s with
  | zero =>
    unfold Branching.pass at run
    split at run
    · cases run
      exact ages
    · cases run
  | succ fuel ih =>
    unfold Branching.pass at run
    split at run
    · cases run
      exact ages
    · obtain ⟨stepped, round, rest⟩ := exists_of_bind_eq_ok run
      have cleared : { s with live := [] }.Ages level := by
        refine ⟨by simp, fun fate => ?_⟩
        cases fate with
        | shifted => exact ages.held .shifted
        | waiting => exact ages.held .waiting
        | accepted => exact ages.held .accepted
      have kept : stepped.Ages level :=
        foldlM_keeps _ (fun _ b _ member held one => held.step (ages.alive b member) one) cleared round
      refine ih ⟨(kept.held .waiting).level, fun fate => ?_⟩ rest
      cases fate with
      | shifted => exact kept.held .shifted
      | waiting => exact .nil
      | accepted => exact kept.held .accepted

end Branching.Ages

end Age

section Merge

variable {records : List ErrorRecord} {first : List (Sketch K V)} {level serial : Nat}
  {branches branches' : List (Branch K V)}

theorem Branch.path_eq_iff {b b' : Branch K V} :
    b.path = b'.path ↔ Frame.states b.frames = Frame.states b'.frames := by
  rw [Branch.path, Branch.path, Frame.path_eq_reverse, Frame.path_eq_reverse, List.reverse_inj]

theorem Echo.merge_right (echo : Echo records first (branches.map Branch.sketch))
    (aged : Branch.Aged level serial branches) :
    Echo records first ((Branch.merge branches).1.map Branch.sketch) where
  covered x member := by
    obtain ⟨y, listed, states⟩ := echo.covered x member
    obtain ⟨b, known, rfl⟩ := List.mem_map.mp listed
    obtain ⟨kept, survives, states', -⟩ := Branch.exists_mem_merge known
    exact ⟨kept.sketch, List.mem_map_of_mem survives, states'.trans states⟩
  like before y behind split same := by
    obtain ⟨before₁, rest, kept, rfl, tail⟩ := List.map_eq_append_iff.mp split
    obtain ⟨b, behind₁, rfl, rfl, rfl⟩ := List.map_eq_cons_iff.mp tail
    obtain ⟨before₂, behind₂, rfl, fresh, known⟩ := exists_split_of_survivors aged.ranks kept
    obtain ⟨before', x, behind', rfl, frames, earlier⟩ :=
      echo.like (before₂.map Branch.sketch) b.sketch (behind₂.map Branch.sketch) (by simp) same
    refine ⟨before', x, behind', rfl, frames, fun z member => ?_⟩
    obtain ⟨w, listed, states⟩ := earlier z member
    obtain ⟨c, old, rfl⟩ := List.mem_map.mp listed
    obtain ⟨c', there, paths⟩ := List.mem_map.mp (known c old)
    exact ⟨c'.sketch, List.mem_map_of_mem there, (Branch.path_eq_iff.mp paths).trans states⟩

theorem Echo.merge_left {second : List (Branch K V)}
    (echo : Echo records (branches.map Branch.sketch) (second.map Branch.sketch))
    (distinct : (second.map Branch.path).Nodup) (aged : Branch.Aged level serial branches) :
    Echo records ((Branch.merge branches).1.map Branch.sketch) (second.map Branch.sketch) where
  covered x member := by
    obtain ⟨b, survives, rfl⟩ := List.mem_map.mp member
    exact echo.covered _ (List.mem_map_of_mem (mem_of_mem_survivors survives))
  like before y behind split same := by
    obtain ⟨before', x, behind', parted, frames, earlier⟩ := echo.like before y behind split same
    obtain ⟨before₁, rest, rfl, rfl, tail⟩ := List.map_eq_append_iff.mp parted
    obtain ⟨b, behind₁, rfl, rfl, rfl⟩ := List.map_eq_cons_iff.mp tail
    have fresh : b.path ∉ before₁.map Branch.path := by
      intro known
      obtain ⟨c, listed, paths⟩ := List.mem_map.mp known
      obtain ⟨w, member, states⟩ := earlier c.sketch (List.mem_map_of_mem listed)
      have there : Frame.states w.1 = Frame.states y.1 :=
        (states.trans (Branch.path_eq_iff.mp paths)).trans (congrArg Frame.states frames)
      have apart : ((second.map Branch.sketch).map fun x => Frame.path x.1).Nodup := by
        rw [List.map_map]
        exact distinct
      rw [split, List.map_append, List.map_cons, List.nodup_append] at apart
      refine apart.2.2 _ (List.mem_map_of_mem member) _ (List.mem_cons_self ..) ?_
      rw [Frame.path_eq_reverse, Frame.path_eq_reverse, there]
    obtain ⟨before₂, behind₂, kept, old⟩ := exists_survivors_of_split aged.ranks fresh
    refine ⟨before₂.map Branch.sketch, b.sketch, behind₂.map Branch.sketch, ?_, frames,
      fun z member => ?_⟩
    · rw [show (Branch.merge (before₁ ++ b :: behind₁)).1 = before₂ ++ b :: behind₂ from kept,
        List.map_append, List.map_cons]
    · obtain ⟨c, listed, rfl⟩ := List.mem_map.mp member
      exact earlier _ (List.mem_map_of_mem (old c listed))

theorem Echo.merge (echo : Echo records (branches.map Branch.sketch) (branches'.map Branch.sketch))
    (aged : Branch.Aged level serial branches) {level' serial' : Nat}
    (aged' : Branch.Aged level' serial' branches') :
    Echo records ((Branch.merge branches).1.map Branch.sketch)
      ((Branch.merge branches').1.map Branch.sketch) :=
  (echo.merge_right aged').merge_left (nodup_map_key_survivors Branch.path Branch.rank _) aged

theorem Echo.errors_ne (echo : Echo records first (branches.map Branch.sketch)) (none : first = []) :
    ∀ b ∈ branches, b.errors ≠ records := by
  intro b member same
  obtain ⟨before, behind, rfl⟩ := List.append_of_mem member
  obtain ⟨before', x, behind', nothing, -⟩ :=
    echo.like (before.map Branch.sketch) b.sketch (behind.map Branch.sketch) (by simp) same
  simp [none] at nothing

end Merge

end GeneralizedLR
