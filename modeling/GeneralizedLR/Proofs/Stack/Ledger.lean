import GeneralizedLR.Proofs.Stack.Sweep

/-!
What any series of pushes and sweeps does to an arena. A push may name a node that a sweep has freed, and
so may the roots of a sweep; a slot that is filled again can then close a chain to a circle. Still the
free list holds the empty slots exactly, no push takes the slot of a node that is there, and a sweep
frees what lies on the chain of no root.
-/

set_option autoImplicit false
set_option relaxedAutoImplicit false

namespace GeneralizedLR.Arena

variable {K V : Type}

inductive Call (K V : Type) where
  | push (state : Nat) (value : Option (Content K V)) (below : Option NodeId)
  | sweep (roots : List NodeId)

/-- An arena with what the calls have answered: the numbers of the nodes that were pushed, the newest in
front, and how many nodes the sweeps have freed. -/
structure Ledger (K V : Type) where
  arena : Arena K V := {}
  pushed : List NodeId := []
  freed : Nat := 0

namespace Call

def isPush : Call K V → Bool
  | .push .. => true
  | .sweep _ => false

def make (l : Ledger K V) : Call K V → Ledger K V
  | .push state value below =>
    let (arena, id) := l.arena.push state value below
    { l with arena, pushed := id :: l.pushed }
  | .sweep roots =>
    let (arena, count) := l.arena.sweep roots
    { l with arena, freed := l.freed + count }

/-- The call names numbers from earlier pushes only, whether or not their nodes are still there. -/
def Known (l : Ledger K V) : Call K V → Prop
  | .push _ _ below => ∀ id ∈ below.toList, id ∈ l.pushed
  | .sweep roots => ∀ root ∈ roots, root ∈ l.pushed

/-- The same, and what is pushed stands on nothing or on a node that is there. -/
def Supported (l : Ledger K V) : Call K V → Prop
  | .push _ _ below => ∀ id ∈ below.toList, (l.arena.node? id).isSome
  | .sweep roots => ∀ root ∈ roots, root ∈ l.pushed

instance (l : Ledger K V) : DecidablePred (Known l)
  | .push _ _ below => inferInstanceAs (Decidable (∀ id ∈ below.toList, id ∈ l.pushed))
  | .sweep roots => inferInstanceAs (Decidable (∀ root ∈ roots, root ∈ l.pushed))

instance (l : Ledger K V) : DecidablePred (Supported l)
  | .push _ _ below => inferInstanceAs (Decidable (∀ id ∈ below.toList, (l.arena.node? id).isSome))
  | .sweep roots => inferInstanceAs (Decidable (∀ root ∈ roots, root ∈ l.pushed))

end Call

namespace Ledger

variable {l : Ledger K V} {past : List (Call K V)} {allowed : Ledger K V → Call K V → Prop}

/-- What a series of calls makes of an empty arena, if each is allowed when it is made. The calls are
listed with the newest in front. -/
inductive Reached (allowed : Ledger K V → Call K V → Prop) : List (Call K V) → Ledger K V → Prop
  | start : Reached allowed [] {}
  | call {past : List (Call K V)} {l : Ledger K V} {call : Call K V} :
      Reached allowed past l → allowed l call → Reached allowed (call :: past) (call.make l)

theorem Reached.length_pushed (reached : l.Reached allowed past) :
    l.pushed.length = past.countP Call.isPush := by
  induction reached with
  | start => rfl
  | @call past l call _ _ ih =>
    rw [List.countP_cons, ← ih]
    cases call <;> rfl

/-- An exact free list, nodes that stand on slots of the arena, numbers from pushes for all slots and no
others, and as many nodes there and freed as were pushed. -/
structure Balanced (l : Ledger K V) : Prop where
  tidy : l.arena.Tidy
  bounded : l.arena.Bounded
  mem_pushed_iff : ∀ id, id ∈ l.pushed ↔ id < l.arena.slots.size
  balance : l.pushed.length = l.arena.size + l.freed

theorem balanced_start : ({} : Ledger K V).Balanced where
  tidy := empty_tidy
  bounded := by
    rintro id below ⟨node, found, -⟩
    cases lt_size_of_node? found
  mem_pushed_iff id := by simp
  balance := rfl

theorem Balanced.push (balanced : l.Balanced) (state : Nat) (value : Option (Content K V))
    {below : Option NodeId} (known : (Call.push state value below).Known l) :
    ((Call.push state value below).make l).Balanced where
  tidy := balanced.tidy.push
  bounded := by
    refine balanced.bounded.push balanced.tidy state value fun id same => ?_
    exact (balanced.mem_pushed_iff id).mp (known id (Option.mem_toList.mpr same))
  mem_pushed_iff id := by
    rw [Call.make, List.mem_cons, balanced.mem_pushed_iff, balanced.tidy.lt_size_push_iff]
  balance := by
    have pushed := balanced.balance
    simp only [Call.make, List.length_cons, balanced.tidy.size_push]
    omega

theorem Balanced.sweep (balanced : l.Balanced) (roots : List NodeId) :
    ((Call.sweep roots).make l).Balanced where
  tidy := balanced.tidy.sweep roots
  bounded := balanced.bounded.sweep roots
  mem_pushed_iff id := by
    rw [Call.make, balanced.mem_pushed_iff, size_slots_sweep]
  balance := by
    have pushed := balanced.balance
    have swept := balanced.tidy.size_sweep roots
    simp only [Call.make]
    omega

theorem Balanced.make (balanced : l.Balanced) {call : Call K V} (known : call.Known l) :
    (call.make l).Balanced := by
  cases call with
  | push state value below => exact balanced.push state value known
  | sweep roots => exact balanced.sweep roots

theorem Reached.balanced (reached : l.Reached Call.Known past) : l.Balanced := by
  induction reached with
  | start => exact balanced_start
  | call _ known ih => exact ih.make known

/-- The free list holds every empty slot once and no other. So the next push leaves every node that is
there and gets a number that none of them has, the size of the arena counts the nodes that are there, and
each pushed node either is there or was freed. -/
theorem Reached.free_exact (reached : l.Reached Call.Known past) :
    (∀ id, l.arena.free.count id =
        if id < l.arena.slots.size ∧ l.arena.node? id = none then 1 else 0) ∧
      (∀ state value below id node, l.arena.node? id = some node →
        (l.arena.push state value below).2 ≠ id ∧
          (l.arena.push state value below).1.node? id = some node) ∧
      l.arena.size = l.arena.live.length ∧
      past.countP Call.isPush = l.arena.size + l.freed := by
  have balanced := reached.balanced
  refine ⟨balanced.tidy.count_free, fun state value below id node found => ⟨?_, ?_⟩,
    balanced.tidy.size_eq, ?_⟩
  · rintro rfl
    rw [balanced.tidy.push_fresh] at found
    cases found
  · exact balanced.tidy.grows_push found
  · rw [← reached.length_pushed, balanced.balance]

/-- A node is pushed onto one that was freed and fills its slot, so that it stands on itself. -/
def refilled : List (Call Nat Nat) :=
  [.push 3 (some (.reduced 9)) (some 2), .sweep [0], .push 2 (some (.lexeme 8)) (some 0),
    .push 1 (some (.lexeme 7)) (some 0), .push 0 none none]

theorem exists_refilled : ∃ l : Ledger Nat Nat, l.Reached Call.Known refilled ∧
    l.pushed = [2, 2, 1, 0] ∧ l.freed = 2 ∧
    l.arena = ⟨#[some ⟨0, none, none, 0⟩, none, some ⟨3, some (.reduced 9), some 2, 0⟩], [1]⟩ := by
  refine ⟨_, .call (.call (.call (.call (.call .start ?_) ?_) ?_) ?_) ?_, rfl, rfl, rfl⟩
  all_goals decide

theorem Reached.free_exact_refilled :
    ∃ l : Ledger Nat Nat, l.Reached Call.Known refilled ∧ l.arena.free = [1] ∧
      (∀ state value below id node, l.arena.node? id = some node →
        (l.arena.push state value below).2 ≠ id ∧
          (l.arena.push state value below).1.node? id = some node) ∧
      l.arena.size = l.arena.live.length ∧ 4 = l.arena.size + 2 := by
  obtain ⟨l, reached, -, freed, arena⟩ := exists_refilled
  obtain ⟨-, fresh, size, balance⟩ := reached.free_exact
  rw [freed] at balance
  exact ⟨l, reached, congrArg Arena.free arena, fresh, size, balance⟩

/-- A sweep comes to its end. It keeps exactly the nodes on the chains of the roots, with all that they
hold, and counts the others; the order of the roots does not matter, and a second sweep frees nothing. -/
theorem Reached.sweep_exact (reached : l.Reached Call.Known past) {roots : List NodeId}
    (known : ∀ root ∈ roots, root ∈ l.pushed) {swept : Arena K V} {freed : Nat}
    (ran : l.arena.sweep roots = (swept, freed)) :
    l.arena.Marks roots none (Array.replicate l.arena.slots.size false) (l.arena.reachable roots) ∧
      (∀ id node, l.arena.node? id = some node →
        ((swept.node? id).isSome ↔ ∃ root ∈ roots, l.arena.Reaches root id)) ∧
      (∀ id node, swept.node? id = some node → l.arena.node? id = some node) ∧
      freed = (l.arena.live.filter fun id => (swept.node? id).isNone).length ∧
      (∀ roots', (∀ id, id ∈ roots' ↔ id ∈ roots) → l.arena.sweep roots' = (swept, freed)) ∧
      swept.sweep roots = (swept, 0) := by
  have balanced := reached.balanced
  have inside : ∀ root ∈ roots, root < l.arena.slots.size := fun root member =>
    (balanced.mem_pushed_iff root).mp (known root member)
  obtain ⟨rfl, rfl⟩ := Prod.mk.inj ran
  refine ⟨balanced.bounded.marks_reachable inside, ?_, ?_, sweep_freed l.arena roots, ?_,
    balanced.bounded.sweep_sweep inside⟩
  · intro id node found
    exact balanced.bounded.sweep_isSome_iff inside found
  · intro id node kept
    exact l.arena.grows_of_sweep roots kept
  · intro roots' same
    exact balanced.bounded.sweep_congr inside same

theorem Reached.sweep_exact_refilled :
    ∃ (l : Ledger Nat Nat) (swept : Arena Nat Nat), l.Reached Call.Known refilled ∧
      (∀ root ∈ [1, 2, 2], root ∈ l.pushed) ∧ l.arena.sweep [1, 2, 2] = (swept, 1) ∧
      l.arena.Marks [1, 2, 2] none (Array.replicate 3 false) #[false, true, true] ∧
      (¬ ∃ root ∈ [1, 2, 2], l.arena.Reaches root 0) ∧ swept.live = [2] ∧
      l.arena.sweep [2, 1] = (swept, 1) ∧ swept.sweep [1, 2, 2] = (swept, 0) := by
  obtain ⟨l, reached, pushed, -, arena⟩ := exists_refilled
  have known : ∀ root ∈ [1, 2, 2], root ∈ l.pushed := by
    rw [pushed]
    decide
  have ran : l.arena.sweep [1, 2, 2] =
      (⟨#[none, none, some ⟨3, some (.reduced 9), some 2, 0⟩], [0, 1]⟩, 1) := by
    rw [arena]
    rfl
  obtain ⟨marks, kept, -, -, same, again⟩ := reached.sweep_exact known ran
  refine ⟨l, _, reached, known, ran, ?_, ?_, rfl, same [2, 1] (by simp [or_comm]), again⟩
  · rw [arena] at marks ⊢
    exact marks
  · refine (kept 0 ⟨0, none, none, 0⟩ ?_).not.mp (by decide)
    rw [arena]
    rfl

end Ledger

end GeneralizedLR.Arena
