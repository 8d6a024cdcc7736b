import GeneralizedLR.Stack.Arena

/-!
The shape of an arena: what is left of it without its tokens and its values. Whatever the stacks are
asked for, their shapes tell; only the values that are popped are lost.
-/

set_option autoImplicit false
set_option relaxedAutoImplicit false

namespace GeneralizedLR

variable {K V : Type}

def Content.shape : Content K V → Content Unit Unit
  | .lexeme _ => .lexeme ()
  | .reduced _ => .reduced ()

def Node.shape (n : Node K V) : Node Unit Unit :=
  ⟨n.state, n.value.map Content.shape, n.below, n.depth⟩

namespace Arena

def shape (a : Arena K V) : Arena Unit Unit :=
  ⟨a.slots.map (Option.map Node.shape), a.free⟩

variable (a : Arena K V)

@[simp] theorem size_slots_shape : a.shape.slots.size = a.slots.size := Array.size_map

@[simp] theorem node?_shape (id : NodeId) : a.shape.node? id = (a.node? id).map Node.shape := by
  simp only [node?, shape, Array.getElem?_map]
  cases a.slots[id]? with
  | none => rfl
  | some slot => rfl

theorem state_shape (id : NodeId) : a.shape.state id = a.state id := by
  unfold state
  rw [node?_shape]
  cases a.node? id <;> rfl

theorem depthAbove_shape (below : Option NodeId) : a.shape.depthAbove below = a.depthAbove below := by
  unfold depthAbove
  cases below with
  | none => rfl
  | some id =>
    simp only [Option.bind_some, node?_shape]
    cases a.node? id <;> rfl

theorem push_shape (state : Nat) (value : Option (Content K V)) (below : Option NodeId) :
    a.shape.push state (value.map Content.shape) below =
      ((a.push state value below).1.shape, (a.push state value below).2) := by
  unfold push
  rw [depthAbove_shape]
  cases free : a.free with
  | nil => simp [shape, free, Array.map_push, Node.shape]
  | cons slot rest => simp [shape, free, Array.map_setIfInBounds, Node.shape]

theorem popOnto_shape (count : Nat) (id : NodeId) (taken : List (Content K V)) :
    a.shape.popOnto count id (taken.map Content.shape) =
      (a.popOnto count id taken).map fun popped => (popped.1.map Content.shape, popped.2) := by
  induction count generalizing id taken with
  | zero => rfl
  | succ count ih =>
    unfold popOnto
    rw [node?_shape]
    cases a.node? id with
    | none => rfl
    | some node =>
      obtain ⟨state, value | value, below | below, depth⟩ := node
      · rfl
      · rfl
      · rfl
      · exact ih below (value :: taken)

theorem entry?_shape {next : Option NodeId} {found : Option (NodeId × Node K V)}
    (same : a.entry? next = found) : a.shape.entry? next = found.map (Prod.map id Node.shape) := by
  subst same
  cases next with
  | none => rfl
  | some id =>
    unfold entry?
    rw [Option.bind_some, Option.bind_some, node?_shape]
    cases a.node? id <;> rfl

theorem sameWithin_shape (limit : Nat) (left right : Option NodeId) :
    a.shape.sameWithin limit left right = a.sameWithin limit left right := by
  induction limit generalizing left right with
  | zero => rfl
  | succ limit ih =>
    unfold sameWithin
    cases found : a.entry? left with
    | none =>
      cases found' : a.entry? right <;> rw [entry?_shape a found, entry?_shape a found'] <;> rfl
    | some entry =>
      cases found' : a.entry? right with
      | none =>
        rw [entry?_shape a found, entry?_shape a found']
        rfl
      | some other =>
        rw [entry?_shape a found, entry?_shape a found']
        simp only [Option.map_some, Prod.map, id, Node.shape, ih]

theorem sameStates_shape (left right : NodeId) :
    a.shape.sameStates left right = a.sameStates left right := by
  rw [sameStates, sameWithin_shape, size_slots_shape, sameStates]

theorem markChain_shape (fuel : Nat) (id : Option NodeId) (marked : Array Bool) :
    a.shape.markChain fuel id marked = a.markChain fuel id marked := by
  induction fuel generalizing id marked with
  | zero => rfl
  | succ fuel ih =>
    cases id with
    | none => rfl
    | some id =>
      unfold markChain
      rw [node?_shape, ih]
      cases a.node? id <;> rfl

theorem reachable_shape (roots : List NodeId) : a.shape.reachable roots = a.reachable roots := by
  simp only [reachable, size_slots_shape, markChain_shape]

theorem sweep_shape (roots : List NodeId) :
    a.shape.sweep roots = ((a.sweep roots).1.shape, (a.sweep roots).2) := by
  have filled : ∀ id, (a.shape.node? id).isSome = (a.node? id).isSome := by
    intro id
    rw [node?_shape, Option.isSome_map]
  have slots : a.shape.slots = a.slots.map (Option.map Node.shape) := rfl
  have kept : ∀ (f : Nat → Bool), (a.slots.map (Option.map Node.shape)).mapIdx
        (fun id slot => if f id then slot else none) =
      (a.slots.mapIdx fun id slot => if f id then slot else none).map (Option.map Node.shape) := by
    intro f
    refine Array.ext_getElem? fun id => ?_
    simp only [Array.getElem?_mapIdx, Array.getElem?_map]
    cases a.slots[id]? with
    | none => rfl
    | some slot => cases f id <;> rfl
  simp only [sweep, reachable_shape, filled, slots, kept, Array.size_map]
  rfl

section Same

variable {K' V' : Type} {a : Arena K V} {a' : Arena K' V'}

theorem push_of_shape (same : a.shape = a'.shape) (state : Nat) {value : Option (Content K V)}
    {value' : Option (Content K' V')} (kind : value.map Content.shape = value'.map Content.shape)
    (below : Option NodeId) :
    (a.push state value below).1.shape = (a'.push state value' below).1.shape ∧
      (a.push state value below).2 = (a'.push state value' below).2 := by
  have pushed := a.push_shape state value below
  rw [same, kind, a'.push_shape] at pushed
  exact ⟨(congrArg Prod.fst pushed).symm, (congrArg Prod.snd pushed).symm⟩

theorem state_of_shape (same : a.shape = a'.shape) (id : NodeId) : a.state id = a'.state id := by
  rw [← state_shape, same, state_shape]

theorem sweep_of_shape (same : a.shape = a'.shape) (roots : List NodeId) :
    (a.sweep roots).1.shape = (a'.sweep roots).1.shape ∧ (a.sweep roots).2 = (a'.sweep roots).2 := by
  have swept := a.sweep_shape roots
  rw [same, a'.sweep_shape] at swept
  exact ⟨(congrArg Prod.fst swept).symm, (congrArg Prod.snd swept).symm⟩

theorem pop_of_shape (same : a.shape = a'.shape) (count : Nat) (top : NodeId) :
    (∃ cause, a.pop count top = .error cause ∧ a'.pop count top = .error cause) ∨
      ∃ values values' base, a.pop count top = .ok (values, base) ∧
        a'.pop count top = .ok (values', base) := by
  have popped := a.popOnto_shape count top []
  rw [same] at popped
  have popped' := popped.symm.trans (a'.popOnto_shape count top [])
  unfold pop
  cases found : a.popOnto count top [] with
  | none =>
    rw [found] at popped'
    cases found' : a'.popOnto count top [] with
    | none => exact .inl ⟨_, rfl, rfl⟩
    | some other => simp [found'] at popped'
  | some popped =>
    rw [found] at popped'
    cases found' : a'.popOnto count top [] with
    | none => simp [found'] at popped'
    | some other =>
      rw [found', Option.map_some, Option.map_some, Option.some.injEq, Prod.mk.injEq] at popped'
      refine .inr ⟨popped.1, other.1, popped.2, rfl, ?_⟩
      rw [popped'.2]

end Same

end Arena

end GeneralizedLR
