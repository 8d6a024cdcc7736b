import GeneralizedLR.Head.Merge
import GeneralizedLR.Proofs.Head.Survivors
import GeneralizedLR.Proofs.Stack.Comparison

/-!
The loop of a merge. Where chains are intact, stacks with the same states have the same state and the
same depth on top. So a head that comes in meets every head that it could be merged with, if the bucket
of its top lists the places of all heads under that state and that depth. The loop keeps this, also when
a head takes the place of another one, and with it that the heads so far are the survivors so far.
-/

set_option autoImplicit false
set_option relaxedAutoImplicit false

namespace GeneralizedLR

variable {K V : Type} {a : Arena K V}

/-- Fewer repairs come first, and then the older head. -/
def Head.rank (h : Head) : Lex (Nat × Nat) := toLex (h.level, h.serial)

theorem Head.isPreferred_iff (h kept : Head) : h.isPreferred kept = true ↔ h.rank < kept.rank := by
  simp [Head.isPreferred, Head.rank, Prod.Lex.lt_iff]

namespace Merging

variable {m m' : Merging} {top : NodeId} {head : Head} {standing kept : List Head}

theorem bucket_set (m : Merging) (places : List Nat) (state depth state' depth' : Nat)
    (target : Array Head) :
    bucket { m with target, buckets := m.buckets.set places [state, depth] } state' depth' =
      if state = state' ∧ depth = depth' then places else m.bucket state' depth' := by
  unfold bucket
  by_cases same : state = state' ∧ depth = depth'
  · obtain ⟨rfl, rfl⟩ := same
    rw [Trie.find?_set_self, if_pos ⟨rfl, rfl⟩, Option.getD_some]
  · rw [Trie.find?_set_of_ne _ (by simpa using same), if_neg same]

theorem meets?_eq_some_iff {place : Nat} {met : Nat × Head} : m.meets? a top place = some met ↔
    met.1 = place ∧ m.target[place]? = some met.2 ∧ a.sameStates met.2.top top = true := by
  obtain ⟨place', kept⟩ := met
  simp only [meets?, Option.bind_eq_some_iff, Option.ite_none_right_eq_some, Option.some.injEq,
    Prod.mk.injEq]
  constructor
  · rintro ⟨_, there, same, rfl, rfl⟩
    exact ⟨rfl, there, same⟩
  · rintro ⟨rfl, there, same⟩
    exact ⟨_, there, same, rfl, rfl⟩

private structure Behind (standing : List Head) (m m' : Merging) : Prop where
  target : m.target = standing.toArray ++ m'.target
  buckets : ∀ state depth,
    m.bucket state depth = (m'.bucket state depth).map (standing.length + ·)
  pairs : m.pairs = m'.pairs

private theorem Behind.findSome? (behind : m.Behind standing m') (a : Arena K V) (top : NodeId)
    (places : List Nat) :
    (places.map (standing.length + ·)).findSome? (m.meets? a top) =
      (places.findSome? (m'.meets? a top)).map fun met => (standing.length + met.1, met.2) := by
  have meets : m.meets? a top ∘ (standing.length + ·) =
      Option.map (fun met => (standing.length + met.1, met.2)) ∘ m'.meets? a top := by
    funext place
    have there : m.target[standing.length + place]? = m'.target[place]? := by
      rw [behind.target, Array.getElem?_append_right (by simp)]
      simp
    simp only [Function.comp_apply, meets?, there]
    cases m'.target[place]? with
    | none => rfl
    | some kept =>
      simp only [Option.bind_some]
      split <;> rfl
  rw [List.findSome?_map, List.map_findSome?, meets]

private theorem Behind.add (behind : m.Behind standing m') (a : Arena K V) (head : Head) :
    (m.add a head).Behind standing (m'.add a head) := by
  have found := behind.findSome? a head.top
  obtain ⟨target, buckets, pairs⟩ := behind
  unfold Merging.add
  cases a.node? head.top with
  | none => exact ⟨by rw [target, Array.push_append], buckets, pairs⟩
  | some node =>
    simp only [buckets, found]
    cases (m'.bucket node.state node.depth).findSome? (m'.meets? a head.top) with
    | none =>
      simp only [Option.map_none]
      refine ⟨by rw [target, Array.push_append], fun state depth => ?_, pairs⟩
      rw [bucket_set, bucket_set, buckets state depth, target]
      split <;> simp
    | some met =>
      simp only [Option.map_some]
      refine ⟨?_, buckets, by rw [pairs]⟩
      split
      · rw [target, Array.setIfInBounds_append_right (by simp)]
        simp
      · exact target

theorem size_add (m : Merging) (a : Arena K V) (head : Head) :
    (m.add a head).target.size + (m.add a head).pairs.length =
      m.target.size + m.pairs.length + 1 := by
  unfold Merging.add
  cases a.node? head.top with
  | none => simp [Nat.add_right_comm]
  | some node =>
    simp only
    split
    · split <;> simp [Nat.add_assoc]
    · simp [Nat.add_right_comm]

/-- The heads so far are there, and each bucket lists the places of those under its state and depth. -/
structure Indexed (a : Arena K V) (m : Merging) : Prop where
  live : ∀ head ∈ m.target.toList, (a.node? head.top).isSome
  places : ∀ state depth place, place ∈ m.bucket state depth ↔
    ∃ head node, m.target[place]? = some head ∧ a.node? head.top = some node ∧
      node.state = state ∧ node.depth = depth

theorem Indexed.start : Indexed a { target := #[] } := by
  refine ⟨fun _ => (nomatch ·), fun state depth place => ?_⟩
  simp [bucket, Trie.find?_empty]

theorem Indexed.push (indexed : m.Indexed a) {node : Node K V}
    (found : a.node? head.top = some node) :
    Indexed a { m with
      target := m.target.push head
      buckets := m.buckets.set (m.bucket node.state node.depth ++ [m.target.size])
        [node.state, node.depth] } := by
  refine ⟨fun other member => ?_, fun state depth place => ?_⟩
  · rw [Array.toList_push, List.mem_append, List.mem_singleton] at member
    rcases member with member | rfl
    · exact indexed.live other member
    · exact Option.isSome_of_eq_some found
  · rw [bucket_set, Array.getElem?_push]
    by_cases last : place = m.target.size
    · have none : m.target[place]? = none := Array.getElem?_eq_none last.ge
      have absent : place ∉ m.bucket state depth := by
        rw [indexed.places]
        rintro ⟨_, _, there, -⟩
        cases none.symm.trans there
      rw [if_pos last]
      split
      · next same => simp [last, found, same]
      · next other => simpa [absent, found] using other
    · rw [if_neg last, ← indexed.places]
      split
      · next same =>
        obtain ⟨rfl, rfl⟩ := same
        simp [last]
      · rfl

/-- A head takes its place in the bucket as well from another one with the same state and depth. -/
theorem Indexed.replace (indexed : m.Indexed a) {place : Nat} {node : Node K V}
    (found : a.node? head.top = some node) (listed : place ∈ m.bucket node.state node.depth) :
    Indexed a { m with target := m.target.setIfInBounds place head } := by
  obtain ⟨old, node', there, found', agree⟩ := (indexed.places ..).mp listed
  refine ⟨fun other member => ?_, fun state depth place' => (indexed.places ..).trans ?_⟩
  · rw [Array.toList_setIfInBounds] at member
    rcases List.mem_or_eq_of_mem_set member with member | rfl
    · exact indexed.live other member
    · exact Option.isSome_of_eq_some found
  · rw [Array.getElem?_setIfInBounds]
    by_cases same : place = place'
    · subst same
      have inside := (Array.getElem?_eq_some_iff.mp there).1
      rw [if_pos rfl, if_pos inside, there]
      simp [found, found', agree]
    · rw [if_neg same]

section Linked

variable {place : Nat} {old : Head} {node : Node K V}

theorem Indexed.sameStates_iff (indexed : m.Indexed a) (linked : a.Linked)
    (there : m.target[place]? = some old) (found : a.node? top = some node) :
    a.sameStates old.top top = true ↔ a.path old.top = a.path top := by
  have member : old ∈ m.target.toList := Array.mem_toList_iff.mpr (Array.mem_of_getElem? there)
  obtain ⟨node', found'⟩ := Option.isSome_iff_exists.mp (indexed.live old member)
  rw [linked.sameStates_eq found' found, decide_eq_true_iff]

theorem Indexed.mem_bucket (indexed : m.Indexed a) (linked : a.Linked)
    (there : m.target[place]? = some old) (found : a.node? top = some node)
    (same : a.path old.top = a.path top) : place ∈ m.bucket node.state node.depth := by
  have member : old ∈ m.target.toList := Array.mem_toList_iff.mpr (Array.mem_of_getElem? there)
  obtain ⟨node', found'⟩ := Option.isSome_iff_exists.mp (indexed.live old member)
  have agree := linked.agree (linked.traces found') (same ▸ linked.traces found) found' found
  exact (indexed.places ..).mpr ⟨old, node', there, found', agree⟩

/-- In an arena with intact chains one more head is seated with the others, and the buckets stay in
order. -/
theorem Indexed.add (indexed : m.Indexed a) (linked : a.Linked) (live : (a.node? head.top).isSome)
    (distinct : (m.target.toList.map fun h => a.path h.top).Nodup) :
    (m.add a head).Indexed a ∧ (m.add a head).target.toList =
      seat (fun h => a.path h.top) Head.rank head m.target.toList := by
  obtain ⟨node, found⟩ := Option.isSome_iff_exists.mp live
  unfold Merging.add
  rw [found]
  simp only
  cases met : (m.bucket node.state node.depth).findSome? (m.meets? a head.top) with
  | none =>
    have fresh : a.path head.top ∉ m.target.toList.map fun h => a.path h.top := by
      intro known
      obtain ⟨old, member, same⟩ := List.mem_map.mp known
      obtain ⟨place, there⟩ := List.mem_iff_getElem?.mp member
      rw [Array.getElem?_toList] at there
      have meets : m.meets? a head.top place = some (place, old) :=
        meets?_eq_some_iff.mpr ⟨rfl, there, (indexed.sameStates_iff linked there found).mpr same⟩
      have passed := List.findSome?_eq_none_iff.mp met place
        (indexed.mem_bucket linked there found same)
      cases passed.symm.trans meets
    refine ⟨indexed.push found, ?_⟩
    rw [Array.toList_push, seat_of_not_mem fresh]
  | some met' =>
    obtain ⟨place, listed, meets⟩ := List.exists_of_findSome?_eq_some met
    obtain ⟨rfl, there, equal⟩ := meets?_eq_some_iff.mp meets
    have same := (indexed.sameStates_iff linked there found).mp equal
    rw [seat_of_getElem? distinct (Array.getElem?_toList ▸ there) same.symm]
    simp only [Head.isPreferred_iff]
    split
    · exact ⟨{ indexed.replace found listed with }, Array.toList_setIfInBounds ..⟩
    · exact ⟨{ indexed with }, rfl⟩

end Linked

theorem indexed_foldl (linked : a.Linked) {heads : List Head}
    (live : ∀ h ∈ heads, (a.node? h.top).isSome) :
    (heads.foldl (Merging.add a) { target := #[] }).Indexed a ∧
      (heads.foldl (Merging.add a) { target := #[] }).target.toList =
        survivors (fun h => a.path h.top) Head.rank heads := by
  induction heads using List.reverseRecOn with
  | nil => exact ⟨.start, rfl⟩
  | append_singleton heads head ih =>
    obtain ⟨indexed, target⟩ := ih fun h member => live h (by simp [member])
    have distinct := nodup_map_key_survivors (fun h => a.path h.top) Head.rank heads
    obtain ⟨indexed', target'⟩ := indexed.add linked (live head (by simp)) (target ▸ distinct)
    rw [List.foldl_append, survivors_concat, ← target]
    exact ⟨indexed', target'⟩

end Merging

namespace Merged

variable {standing heads : List Head}

/-- Heads that stand already are left alone: the others are merged behind them as on their own. -/
theorem onto_eq (a : Arena K V) (standing heads : List Head) :
    onto a standing heads =
      { heads := standing ++ (ofHeads a heads).heads, pairs := (ofHeads a heads).pairs } := by
  have behind : ∀ {m m' : Merging}, m.Behind standing m' →
      (heads.foldl (Merging.add a) m).Behind standing (heads.foldl (Merging.add a) m') := by
    induction heads with
    | nil => exact id
    | cons head _ ih => exact fun behind => ih (behind.add a head)
  obtain ⟨target, -, pairs⟩ := @behind { target := standing.toArray } { target := #[] }
    ⟨by simp, fun _ _ => by simp [Merging.bucket, Trie.find?_empty], rfl⟩
  rw [onto, Merging.finish, target, pairs, Array.toList_append]
  rfl

theorem length_onto (a : Arena K V) (standing heads : List Head) :
    (onto a standing heads).heads.length + (onto a standing heads).pairs.length =
      standing.length + heads.length := by
  have counts : ∀ m : Merging, (heads.foldl (Merging.add a) m).target.size +
      (heads.foldl (Merging.add a) m).pairs.length =
        m.target.size + m.pairs.length + heads.length := by
    induction heads with
    | nil => exact fun _ => rfl
    | cons head rest ih =>
      intro m
      rw [List.foldl_cons, ih, m.size_add a head, List.length_cons, Nat.add_assoc, Nat.add_comm 1]
  simpa [onto, Merging.finish] using counts { target := standing.toArray }

theorem ofHeads_eq_survivors (linked : a.Linked) (live : ∀ h ∈ heads, (a.node? h.top).isSome) :
    (ofHeads a heads).heads = survivors (fun h => a.path h.top) Head.rank heads :=
  (Merging.indexed_foldl linked live).2

theorem ofHeads_of_nodup (linked : a.Linked) (live : ∀ h ∈ heads, (a.node? h.top).isSome)
    (distinct : (heads.map fun h => a.path h.top).Nodup) : ofHeads a heads = { heads } := by
  have kept := ofHeads_eq_survivors linked live
  rw [survivors_of_nodup Head.rank distinct] at kept
  have count : (ofHeads a heads).heads.length + (ofHeads a heads).pairs.length = heads.length :=
    (length_onto a [] heads).trans (Nat.zero_add _)
  have none : (ofHeads a heads).pairs = [] := by
    rw [kept] at count
    exact List.eq_nil_of_length_eq_zero (Nat.add_eq_left.mp count)
  exact congrArg₂ Merged.mk kept none

end Merged

end GeneralizedLR
