import GeneralizedLR.Proofs.Stack.Sweep

/-!
Chains in an arena of any origin. It is enough that every node stands on none or on a node that is
there and lies one less deep: then depths count down along a chain, and a chain is no longer than the
arena.
-/

set_option autoImplicit false
set_option relaxedAutoImplicit false

namespace GeneralizedLR.Arena

variable {K V : Type} {a : Arena K V} {id : NodeId} {node : Node K V}

/-- Every node is a root of depth zero or stands on a node that is there, one deeper. -/
def Linked (a : Arena K V) : Prop :=
  ∀ id node, a.node? id = some node →
    (node.below = none ∧ node.depth = 0) ∨
      ∃ below base, node.below = some below ∧ a.node? below = some base ∧
        node.depth = base.depth + 1

def linkedAt (a : Arena K V) (id : NodeId) : Bool :=
  match a.node? id with
  | none => true
  | some node =>
    match node.below with
    | none => node.depth == 0
    | some below =>
      match a.node? below with
      | none => false
      | some base => node.depth == base.depth + 1

theorem linked_iff : a.Linked ↔ ∀ id < a.slots.size, a.linkedAt id = true := by
  constructor
  · intro linked id _
    unfold linkedAt
    cases found : a.node? id with
    | none => rfl
    | some node =>
      obtain ⟨root, flat⟩ | ⟨below, base, stands, under, deeper⟩ := linked id node found
      · simp [root, flat]
      · simp [stands, under, deeper]
  · intro all id node found
    have here := all id (lt_size_of_node? found)
    simp only [linkedAt, found] at here
    cases stands : node.below with
    | none => exact .inl ⟨rfl, by simpa [stands] using here⟩
    | some below =>
      cases under : a.node? below with
      | none => simp [stands, under] at here
      | some base => exact .inr ⟨below, base, rfl, under, by simpa [stands, under] using here⟩

instance : Decidable a.Linked := decidable_of_iff _ linked_iff.symm

theorem Sound.linked (sound : a.Sound) : a.Linked := by
  intro id node found
  obtain rfl | ⟨state, content, below, base, rfl, under⟩ := sound.grounded id node found
  · exact .inl ⟨rfl, rfl⟩
  · exact .inr ⟨below, base, rfl, under, rfl⟩

theorem Linked.bounded (linked : a.Linked) : a.Bounded := by
  rintro id below ⟨node, found, stands⟩
  obtain ⟨root, -⟩ | ⟨below', base, stands', under, -⟩ := linked id node found
  · cases root.symm.trans stands
  · cases stands'.symm.trans stands
    exact lt_size_of_node? under

theorem Linked.push (linked : a.Linked) (tidy : a.Tidy) (state : Nat) (value : Option (Content K V))
    {below : Option NodeId} (supported : ∀ id, below = some id → ∃ base, a.node? id = some base) :
    (a.push state value below).1.Linked := by
  intro id node found
  by_cases same : id = (a.push state value below).2
  · subst same
    rw [tidy.push_node?_self] at found
    cases found
    cases below with
    | none => exact .inl ⟨rfl, rfl⟩
    | some below =>
      obtain ⟨base, under⟩ := supported below rfl
      exact .inr ⟨below, base, rfl, tidy.grows_push under, by simp [depthAbove, under]⟩
  · rw [push_node?_of_ne same] at found
    obtain root | ⟨below, base, stands, under, deeper⟩ := linked id node found
    · exact .inl root
    · exact .inr ⟨below, base, stands, tidy.grows_push under, deeper⟩

theorem Linked.sweep (linked : a.Linked) {roots : List NodeId}
    (inside : ∀ root ∈ roots, root < a.slots.size) : (a.sweep roots).1.Linked := by
  intro id node kept
  obtain root | ⟨below, base, stands, under, deeper⟩ :=
    linked id node (a.grows_of_sweep roots kept)
  · exact .inl root
  · refine .inr ⟨below, base, stands, ?_, deeper⟩
    rw [linked.bounded.sweep_node?_below inside ⟨node, kept, stands⟩, under]

theorem Linked.depths_chainUpTo (linked : a.Linked) (found : a.node? id = some node) {limit : Nat}
    (enough : node.depth < limit) :
    (a.chainUpTo limit (some id)).map (·.2.depth) = (List.range (node.depth + 1)).reverse := by
  induction deep : node.depth generalizing id node limit with
  | zero =>
    obtain ⟨limit, rfl⟩ := Nat.exists_eq_add_one.mpr (Nat.zero_lt_of_lt enough)
    obtain ⟨root, -⟩ | ⟨below, base, -, -, deeper⟩ := linked id node found
    · rw [chainUpTo_succ found, root, chainUpTo_none, List.map_singleton, deep]
      rfl
    · omega
  | succ depth ih =>
    obtain ⟨limit, rfl⟩ := Nat.exists_eq_add_one.mpr (Nat.zero_lt_of_lt enough)
    obtain ⟨-, flat⟩ | ⟨below, base, stands, under, deeper⟩ := linked id node found
    · omega
    · have rest := ih under (show base.depth < limit by omega) (by omega)
      have range : List.range (depth + 1 + 1) = List.range (depth + 1) ++ [depth + 1] :=
        List.range_succ
      rw [chainUpTo_succ found, stands, List.map_cons, rest, deep, range, List.reverse_concat]

theorem Linked.chainUpTo_eq (linked : a.Linked) (found : a.node? id = some node)
    {limit limit' : Nat} (enough : node.depth < limit) (enough' : node.depth < limit') :
    a.chainUpTo limit (some id) = a.chainUpTo limit' (some id) := by
  induction deep : node.depth generalizing id node limit limit' with
  | zero =>
    obtain ⟨limit, rfl⟩ := Nat.exists_eq_add_one.mpr (Nat.zero_lt_of_lt enough)
    obtain ⟨limit', rfl⟩ := Nat.exists_eq_add_one.mpr (Nat.zero_lt_of_lt enough')
    obtain ⟨root, -⟩ | ⟨below, base, -, -, deeper⟩ := linked id node found
    · rw [chainUpTo_succ found, chainUpTo_succ found, root, chainUpTo_none, chainUpTo_none]
    · omega
  | succ depth ih =>
    obtain ⟨limit, rfl⟩ := Nat.exists_eq_add_one.mpr (Nat.zero_lt_of_lt enough)
    obtain ⟨limit', rfl⟩ := Nat.exists_eq_add_one.mpr (Nat.zero_lt_of_lt enough')
    obtain ⟨-, flat⟩ | ⟨below, base, stands, under, deeper⟩ := linked id node found
    · omega
    · rw [chainUpTo_succ found, chainUpTo_succ found, stands,
        ih under (show base.depth < limit by omega) (show base.depth < limit' by omega) (by omega)]

/-- No node lies deeper than there are slots, since the nodes below it lie in slots of their own. -/
theorem Linked.depth_lt (linked : a.Linked) (found : a.node? id = some node) :
    node.depth < a.slots.size := by
  have depths := linked.depths_chainUpTo found (Nat.lt_succ_self _)
  generalize chain : a.chainUpTo (node.depth + 1) (some id) = entries at depths
  have filled : ∀ entry ∈ entries, a.node? entry.1 = some entry.2 := fun entry listed =>
    node?_of_mem_chainUpTo (chain ▸ listed)
  have ids : (entries.map (·.1)).map (fun id => (a.node? id).map (·.depth)) =
      (entries.map (·.2.depth)).map some := by
    simp only [List.map_map]
    exact List.map_congr_left fun entry listed => by simp [filled entry listed]
  have nodup : (entries.map (·.1)).Nodup := by
    refine List.Nodup.of_map (fun id => (a.node? id).map (·.depth)) ?_
    rw [ids, depths]
    exact (List.nodup_reverse.mpr List.nodup_range).map fun _ _ => Option.some.inj
  have inside : entries.map (·.1) ⊆ List.range a.slots.size := by
    intro slot listed
    obtain ⟨entry, member, rfl⟩ := List.mem_map.mp listed
    exact List.mem_range.mpr (lt_size_of_node? (filled entry member))
  have bound := (nodup.subperm inside).length_le
  have lengths := congrArg List.length depths
  simp only [List.length_map, List.length_reverse, List.length_range] at bound lengths
  omega

theorem Linked.chain_eq (linked : a.Linked) (found : a.node? id = some node) :
    a.chain id = (id, node) :: (node.below.map a.chain).getD [] := by
  have room := linked.depth_lt found
  obtain ⟨limit, size⟩ := Nat.exists_eq_add_one.mpr (Nat.zero_lt_of_lt room)
  rw [Arena.chain, size, chainUpTo_succ found]
  obtain ⟨root, -⟩ | ⟨below, base, stands, under, deeper⟩ := linked id node found
  · rw [root, chainUpTo_none]
    rfl
  · rw [stands, Option.map_some, Option.getD_some, Arena.chain,
      linked.chainUpTo_eq under (show base.depth < limit by omega) (linked.depth_lt under)]

theorem Linked.path_eq (linked : a.Linked) (found : a.node? id = some node) :
    a.path id = (node.below.map a.path).getD [] ++ [node.state] := by
  rw [path, linked.chain_eq found, List.map_cons, List.reverse_cons]
  cases node.below <;> rfl

end GeneralizedLR.Arena
