import GeneralizedLR.Stack.Arena
import Mathlib.Data.List.Nodup
import Mathlib.Data.List.Perm.Subperm

/-!
The stacks that an arena holds. A sound arena keeps exactly its empty slots on the free list, and
every chain of nodes ends in the root of a stack with its depths counted from there. Such a chain is
a list of frames; a push puts one frame in front of it and leaves all other stacks as they are, and
the operations that read a stack read this list.
-/

set_option autoImplicit false
set_option relaxedAutoImplicit false

namespace GeneralizedLR

structure Frame (K V : Type) where
  state : Nat
  content : Content K V

namespace Frame

variable {K V : Type}

/-- The state on top of a stack, given from the top down without its root. -/
def top : List (Frame K V) → Nat
  | [] => 0
  | frame :: _ => frame.state

def path (frames : List (Frame K V)) : List Nat :=
  0 :: (frames.map (·.state)).reverse

end Frame

namespace Arena

variable {K V : Type}

def Grows (a b : Arena K V) : Prop :=
  ∀ ⦃id : NodeId⦄ ⦃node : Node K V⦄, a.node? id = some node → b.node? id = some node

theorem Grows.refl (a : Arena K V) : a.Grows a := fun _ _ found => found

theorem Grows.trans {a b c : Arena K V} (first : a.Grows b) (second : b.Grows c) : a.Grows c :=
  fun _ _ found => second (first found)

structure Tidy (a : Arena K V) : Prop where
  mem_free_iff : ∀ id, id ∈ a.free ↔ id < a.slots.size ∧ a.node? id = none
  nodup : a.free.Nodup

/-- A tidy arena whose nodes are roots in state 0 or stand on another node, one deeper. -/
structure Sound (a : Arena K V) : Prop extends Tidy a where
  grounded : ∀ id node, a.node? id = some node →
    node = ⟨0, none, none, 0⟩ ∨
      ∃ state content below base,
        node = ⟨state, some content, some below, base.depth + 1⟩ ∧ a.node? below = some base

theorem node?_eq_none_of_size_le {a : Arena K V} {id : NodeId} (beyond : a.slots.size ≤ id) :
    a.node? id = none := by
  simp [node?, Array.getElem?_eq_none beyond]

theorem lt_size_of_node? {a : Arena K V} {id : NodeId} {node : Node K V}
    (found : a.node? id = some node) : id < a.slots.size := by
  by_contra beyond
  rw [node?_eq_none_of_size_le (Nat.le_of_not_lt beyond)] at found
  cases found

theorem empty_tidy : ({} : Arena K V).Tidy where
  mem_free_iff id := by simp
  nodup := List.nodup_nil

def live (a : Arena K V) : List NodeId :=
  (List.range a.slots.size).filter fun id => (a.node? id).isSome

theorem Tidy.count_free {a : Arena K V} (tidy : a.Tidy) (id : NodeId) :
    a.free.count id = if id < a.slots.size ∧ a.node? id = none then 1 else 0 := by
  rw [tidy.nodup.count]
  exact if_congr (tidy.mem_free_iff id) rfl rfl

theorem Tidy.size_eq {a : Arena K V} (tidy : a.Tidy) : a.size = a.live.length := by
  have empty : a.free.Perm ((List.range a.slots.size).filter fun id => !(a.node? id).isSome) := by
    refine (List.perm_ext_iff_of_nodup tidy.nodup (List.nodup_range.filter _)).mpr fun id => ?_
    simp [tidy.mem_free_iff]
  have split := List.length_eq_length_filter_add (l := List.range a.slots.size)
    fun id => (a.node? id).isSome
  rw [← empty.length_eq, List.length_range] at split
  rw [size, split, Nat.add_sub_cancel, live]

section Push

variable {a : Arena K V} {state : Nat} {value : Option (Content K V)} {below : Option NodeId}

private theorem push_of_cons {slot : NodeId} {free : List NodeId} (listed : a.free = slot :: free) :
    a.push state value below =
      (⟨a.slots.setIfInBounds slot (some ⟨state, value, below, a.depthAbove below⟩), free⟩, slot) := by
  simp only [push, listed]

private theorem push_of_nil (listed : a.free = []) :
    a.push state value below =
      (⟨a.slots.push (some ⟨state, value, below, a.depthAbove below⟩), []⟩, a.slots.size) := by
  simp only [push, listed]

theorem Tidy.push_fresh (tidy : a.Tidy) : a.node? (a.push state value below).2 = none := by
  cases listed : a.free with
  | nil =>
    rw [push_of_nil listed]
    exact node?_eq_none_of_size_le (Nat.le_refl _)
  | cons slot free =>
    rw [push_of_cons listed]
    exact ((tidy.mem_free_iff slot).mp (by simp [listed])).2

theorem Tidy.push_node?_self (tidy : a.Tidy) (state : Nat) (value : Option (Content K V))
    (below : Option NodeId) :
    (a.push state value below).1.node? (a.push state value below).2 =
      some ⟨state, value, below, a.depthAbove below⟩ := by
  cases listed : a.free with
  | nil => simp [push_of_nil listed, node?]
  | cons slot free =>
    have inside : slot < a.slots.size := ((tidy.mem_free_iff slot).mp (by simp [listed])).1
    simp [push_of_cons listed, node?, Array.getElem?_setIfInBounds_self_of_lt inside]

theorem push_node?_of_ne {id : NodeId} (other : id ≠ (a.push state value below).2) :
    (a.push state value below).1.node? id = a.node? id := by
  cases listed : a.free with
  | nil =>
    rw [push_of_nil listed] at other ⊢
    simp only [node?, Array.getElem?_push, if_neg other]
  | cons slot free =>
    rw [push_of_cons listed] at other ⊢
    simp only [node?, Array.getElem?_setIfInBounds_ne (Ne.symm other)]

theorem Tidy.grows_push (tidy : a.Tidy) : a.Grows (a.push state value below).1 := by
  intro id node found
  rw [push_node?_of_ne, found]
  rintro rfl
  rw [tidy.push_fresh] at found
  cases found

theorem Tidy.push (tidy : a.Tidy) : (a.push state value below).1.Tidy := by
  have self := tidy.push_node?_self state value below
  have others : ∀ id, id ≠ (a.push state value below).2 →
      (a.push state value below).1.node? id = a.node? id := fun _ => push_node?_of_ne
  cases listed : a.free with
  | nil =>
    rw [push_of_nil listed] at self others ⊢
    refine ⟨fun id => ?_, List.nodup_nil⟩
    by_cases same : id = a.slots.size
    · subst same
      simp [self]
    · have known := tidy.mem_free_iff id
      rw [listed] at known
      simp only [others id same, known, Array.size_push]
      constructor
      · rintro ⟨inside, empty⟩
        exact ⟨Nat.lt_succ_of_lt inside, empty⟩
      · rintro ⟨inside, empty⟩
        exact ⟨Nat.lt_of_le_of_ne (Nat.le_of_lt_succ inside) same, empty⟩
  | cons slot free =>
    rw [push_of_cons listed] at self others ⊢
    have nodup := tidy.nodup
    rw [listed, List.nodup_cons] at nodup
    refine ⟨fun id => ?_, nodup.2⟩
    by_cases same : id = slot
    · subst same
      simp [self, nodup.1]
    · have known := tidy.mem_free_iff id
      rw [listed, List.mem_cons, or_iff_right same] at known
      simp [others id same, known]

theorem Tidy.lt_size_push_iff (tidy : a.Tidy) (id : NodeId) :
    id < (a.push state value below).1.slots.size ↔
      id = (a.push state value below).2 ∨ id < a.slots.size := by
  cases listed : a.free with
  | nil =>
    simp only [push_of_nil listed, Array.size_push]
    exact Nat.lt_succ_iff_lt_or_eq.trans or_comm
  | cons slot free =>
    have inside : slot < a.slots.size := ((tidy.mem_free_iff slot).mp (by simp [listed])).1
    simp only [push_of_cons listed, Array.size_setIfInBounds]
    exact (or_iff_right_of_imp fun same => same ▸ inside).symm

theorem Tidy.length_free_le (tidy : a.Tidy) : a.free.length ≤ a.slots.size := by
  have inside : a.free ⊆ List.range a.slots.size := fun id listed =>
    List.mem_range.mpr ((tidy.mem_free_iff id).mp listed).1
  simpa using (tidy.nodup.subperm inside).length_le

theorem Tidy.size_push (tidy : a.Tidy) : (a.push state value below).1.size = a.size + 1 := by
  have room := tidy.length_free_le
  cases listed : a.free with
  | nil => simp [push_of_nil listed, size, listed]
  | cons slot free =>
    rw [listed, List.length_cons] at room
    simp only [push_of_cons listed, size, listed, Array.size_setIfInBounds, List.length_cons]
    omega

end Push

/-- The node `id` tops a stack with these frames, given from the top down. -/
inductive Holds (a : Arena K V) : NodeId → List (Frame K V) → Prop
  | root {id : NodeId} : a.node? id = some ⟨0, none, none, 0⟩ → Holds a id []
  | frame {id below : NodeId} {state : Nat} {content : Content K V} {frames : List (Frame K V)} :
      a.node? id = some ⟨state, some content, some below, frames.length + 1⟩ →
      Holds a below frames → Holds a id (⟨state, content⟩ :: frames)

section Holds

variable {a b : Arena K V} {id : NodeId} {frames : List (Frame K V)}

theorem Holds.node? (held : a.Holds id frames) :
    ∃ node, a.node? id = some node ∧ node.state = Frame.top frames ∧ node.depth = frames.length := by
  cases held with
  | root found => exact ⟨_, found, rfl, rfl⟩
  | frame found _ => exact ⟨_, found, rfl, rfl⟩

theorem Holds.unique (held : a.Holds id frames) {others : List (Frame K V)}
    (also : a.Holds id others) : frames = others := by
  induction held generalizing others with
  | root found =>
    cases also with
    | root _ => rfl
    | frame found' _ =>
      rw [found] at found'
      cases found'
  | frame found _ ih =>
    cases also with
    | root found' =>
      rw [found] at found'
      cases found'
    | frame found' below' =>
      rw [found] at found'
      obtain ⟨rfl, rfl, rfl, _⟩ := by simpa using found'
      rw [ih below']

theorem Holds.mono (held : a.Holds id frames) (grows : a.Grows b) : b.Holds id frames := by
  induction held with
  | root found => exact .root (grows found)
  | frame found _ ih => exact .frame (grows found) ih

theorem Sound.exists_holds (sound : a.Sound) {node : Node K V} (found : a.node? id = some node) :
    ∃ frames, a.Holds id frames := by
  induction depth : node.depth generalizing id node with
  | zero =>
    obtain rfl | ⟨state, content, below, base, rfl, _⟩ := sound.grounded id node found
    · exact ⟨[], .root found⟩
    · simp at depth
  | succ depth ih =>
    obtain rfl | ⟨state, content, below, base, rfl, under⟩ := sound.grounded id node found
    · simp at depth
    · obtain ⟨frames, held⟩ := ih under (by simpa using depth)
      obtain ⟨node, found', _, deep⟩ := held.node?
      rw [under] at found'
      cases found'
      rw [deep] at found
      exact ⟨_, .frame found held⟩

theorem Holds.state (held : a.Holds id frames) : a.state id = .ok (Frame.top frames) := by
  obtain ⟨node, found, state, _⟩ := held.node?
  simp only [Arena.state, found, state]

theorem Holds.push (held : a.Holds id frames) (tidy : a.Tidy) (state : Nat)
    (content : Content K V) :
    (a.push state (some content) (some id)).1.Holds (a.push state (some content) (some id)).2
      (⟨state, content⟩ :: frames) := by
  obtain ⟨node, found, _, depth⟩ := held.node?
  have self := tidy.push_node?_self state (some content) (some id)
  have above : a.depthAbove (some id) = frames.length + 1 := by
    simp [depthAbove, found, depth]
  rw [above] at self
  exact .frame self (held.mono tidy.grows_push)

theorem Holds.sound_push (held : a.Holds id frames) (sound : a.Sound) (state : Nat)
    (content : Content K V) : (a.push state (some content) (some id)).1.Sound := by
  obtain ⟨base, found, _, _⟩ := held.node?
  refine ⟨sound.toTidy.push, fun other node found' => ?_⟩
  by_cases same : other = (a.push state (some content) (some id)).2
  · subst same
    rw [sound.toTidy.push_node?_self] at found'
    cases found'
    exact .inr ⟨state, content, id, base, by simp [depthAbove, found], sound.grows_push found⟩
  · rw [push_node?_of_ne same] at found'
    obtain root | ⟨state', content', below, base', rfl, under⟩ := sound.grounded other node found'
    · exact .inl root
    · exact .inr ⟨state', content', below, base', rfl, sound.grows_push under⟩

private theorem Holds.popOnto (held : a.Holds id frames) (count : Nat)
    (taken : List (Content K V)) :
    (count ≤ frames.length → ∃ base, a.Holds base (frames.drop count) ∧
      a.popOnto count id taken =
        some ((frames.take count).reverse.map (·.content) ++ taken, base)) ∧
    (frames.length < count → a.popOnto count id taken = none) := by
  induction count generalizing id frames taken with
  | zero => exact ⟨fun _ => ⟨id, by simpa using held, by simp [Arena.popOnto]⟩, by simp⟩
  | succ count ih =>
    cases held with
    | root found => simp [Arena.popOnto, found]
    | @frame _ below state content frames found under =>
      obtain ⟨enough, short⟩ := ih under (content :: taken)
      constructor
      · intro fits
        obtain ⟨base, holds, popped⟩ := enough (by simpa using fits)
        exact ⟨base, by simpa using holds, by simp [Arena.popOnto, found, popped]⟩
      · intro fits
        simpa [Arena.popOnto, found] using short (by simpa using fits)

theorem Holds.pop_eq_ok (held : a.Holds id frames) {count : Nat} (enough : count ≤ frames.length) :
    ∃ base, a.Holds base (frames.drop count) ∧
      a.pop count id = .ok ((frames.take count).reverse.map (·.content), base) := by
  obtain ⟨base, holds, popped⟩ := (held.popOnto count []).1 enough
  exact ⟨base, holds, by simp [pop, popped]⟩

theorem Holds.pop_eq_error (held : a.Holds id frames) {count : Nat} (short : frames.length < count) :
    a.pop count id = .error (.stackUnderflow count) := by
  simp only [pop, (held.popOnto count []).2 short]

end Holds

section Chain

variable {a b : Arena K V} {id : NodeId} {node : Node K V} {frames : List (Frame K V)}

theorem chainUpTo_succ (found : a.node? id = some node) (limit : Nat) :
    a.chainUpTo (limit + 1) (some id) = (id, node) :: a.chainUpTo limit node.below := by
  simp only [chainUpTo, found]

theorem chainUpTo_none (limit : Nat) : a.chainUpTo limit none = [] := by
  cases limit <;> rfl

theorem node?_of_mem_chainUpTo {limit : Nat} {next : Option NodeId} {entry : NodeId × Node K V}
    (listed : entry ∈ a.chainUpTo limit next) : a.node? entry.1 = some entry.2 := by
  induction limit generalizing next with
  | zero => cases listed
  | succ limit ih =>
    cases next with
    | none => cases listed
    | some id =>
      cases found : a.node? id with
      | none => simp [chainUpTo, found] at listed
      | some node =>
        rw [chainUpTo_succ found, List.mem_cons] at listed
        rcases listed with rfl | listed
        · exact found
        · exact ih listed

private theorem Holds.slots (held : a.Holds id frames) :
    ∃ ids : List NodeId, ids.length = frames.length + 1 ∧ ids.Nodup ∧
      ∀ slot ∈ ids, ∃ node, a.node? slot = some node ∧ node.depth ≤ frames.length := by
  induction held with
  | @root id found => exact ⟨[id], rfl, List.nodup_singleton id, by simp [found]⟩
  | @frame id below state content frames found under ih =>
    obtain ⟨ids, length, nodup, deep⟩ := ih
    refine ⟨id :: ids, by simp [length], List.nodup_cons.mpr ⟨fun member => ?_, nodup⟩, ?_⟩
    · obtain ⟨node, found', shallow⟩ := deep id member
      rw [found] at found'
      cases found'
      exact Nat.not_succ_le_self _ shallow
    · intro slot member
      rcases List.mem_cons.mp member with rfl | member
      · exact ⟨_, found, by simp⟩
      · obtain ⟨node, found', shallow⟩ := deep slot member
        exact ⟨node, found', Nat.le_succ_of_le shallow⟩

theorem Holds.length_lt (held : a.Holds id frames) : frames.length < a.slots.size := by
  obtain ⟨ids, length, nodup, filled⟩ := held.slots
  have inside : ids ⊆ List.range a.slots.size := by
    intro slot member
    obtain ⟨node, found, _⟩ := filled slot member
    exact List.mem_range.mpr (lt_size_of_node? found)
  have bound := (nodup.subperm inside).length_le
  rw [length, List.length_range] at bound
  exact bound

private theorem Holds.chainUpTo (held : a.Holds id frames) {limit : Nat}
    (enough : frames.length < limit) :
    (a.chainUpTo limit (some id)).map (·.2.state) = frames.map (·.state) ++ [0] := by
  induction held generalizing limit with
  | root found =>
    cases limit with
    | zero => simp at enough
    | succ limit => cases limit <;> simp [Arena.chainUpTo, found]
  | frame found _ ih =>
    cases limit with
    | zero => simp at enough
    | succ limit =>
      have rest := @ih limit (by simpa using enough)
      simp [Arena.chainUpTo, found, rest]

theorem Holds.path (held : a.Holds id frames) : a.path id = Frame.path frames := by
  have states := held.chainUpTo held.length_lt
  simp [Arena.path, Arena.chain, states, Frame.path]

def contents (a : Arena K V) (top : NodeId) : List (Content K V) :=
  ((a.chain top).filterMap fun entry => entry.2.value).reverse

theorem mem_contents_of_mem_chain {top : NodeId} {content : Content K V}
    (listed : id ∈ (a.chain top).map (·.1)) (filled : a.node? id = some node)
    (carried : node.value = some content) : content ∈ a.contents top := by
  obtain ⟨entry, member, rfl⟩ := List.mem_map.mp listed
  obtain rfl : entry.2 = node :=
    Option.some.inj ((node?_of_mem_chainUpTo member).symm.trans filled)
  exact List.mem_reverse.mpr (List.mem_filterMap.mpr ⟨entry, member, carried⟩)

private theorem Holds.values (held : a.Holds id frames) {limit : Nat}
    (enough : frames.length < limit) :
    (a.chainUpTo limit (some id)).filterMap (fun entry => entry.2.value) =
      frames.map (·.content) := by
  induction held generalizing limit with
  | root found =>
    cases limit with
    | zero => simp at enough
    | succ limit => cases limit <;> simp [Arena.chainUpTo, found]
  | frame found _ ih =>
    cases limit with
    | zero => simp at enough
    | succ limit =>
      have rest := @ih limit (by simpa using enough)
      simp [Arena.chainUpTo, found, rest]

theorem Holds.contents (held : a.Holds id frames) :
    a.contents id = frames.reverse.map (·.content) := by
  rw [Arena.contents, Arena.chain, held.values held.length_lt, List.map_reverse]

private theorem Holds.chainUpTo_eq (held : a.Holds id frames) (grows : a.Grows b) {limit limit' : Nat}
    (enough : frames.length < limit) (enough' : frames.length < limit') :
    b.chainUpTo limit' (some id) = a.chainUpTo limit (some id) := by
  obtain ⟨limit, rfl⟩ := Nat.exists_eq_add_one.mpr (Nat.zero_lt_of_lt enough)
  obtain ⟨limit', rfl⟩ := Nat.exists_eq_add_one.mpr (Nat.zero_lt_of_lt enough')
  induction held generalizing limit limit' with
  | root found => cases limit <;> cases limit' <;> simp [Arena.chainUpTo, found, grows found]
  | frame found _ ih =>
    simp only [List.length_cons] at enough enough'
    obtain ⟨limit, rfl⟩ := Nat.exists_eq_add_one.mpr (show 0 < limit by omega)
    obtain ⟨limit', rfl⟩ := Nat.exists_eq_add_one.mpr (show 0 < limit' by omega)
    have rest := ih limit (by omega) limit' (by omega)
    unfold Arena.chainUpTo
    simp only [found, grows found, rest]

theorem Holds.chain_eq (held : a.Holds id frames) (grows : a.Grows b) : b.chain id = a.chain id :=
  held.chainUpTo_eq grows held.length_lt (held.mono grows).length_lt

end Chain

end Arena

end GeneralizedLR
