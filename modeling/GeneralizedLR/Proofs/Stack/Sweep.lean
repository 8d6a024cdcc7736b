import GeneralizedLR.Proofs.Stack.Frames
import Mathlib.Logic.Relation

/-!
What a sweep keeps. Marking follows the chain of each root up to a slot that is marked already; since
the marked slots are then closed under the nodes below them, this misses nothing. A sweep therefore
keeps exactly the nodes that some root reaches, and the stacks on the roots with them.
-/

set_option autoImplicit false
set_option relaxedAutoImplicit false

namespace GeneralizedLR.Arena

variable {K V : Type}

def StandsOn (a : Arena K V) (id below : NodeId) : Prop :=
  ∃ node, a.node? id = some node ∧ node.below = some below

/-- `id` lies on the chain that starts at `top`. -/
def Reaches (a : Arena K V) (top id : NodeId) : Prop :=
  Relation.ReflTransGen a.StandsOn top id

def Bounded (a : Arena K V) : Prop :=
  ∀ ⦃id below : NodeId⦄, a.StandsOn id below → below < a.slots.size

theorem Sound.bounded {a : Arena K V} (sound : a.Sound) : a.Bounded := by
  rintro id below ⟨node, found, stands⟩
  obtain rfl | ⟨state, content, below', base, rfl, under⟩ := sound.grounded id node found
  · cases stands
  · cases stands
    exact lt_size_of_node? under

theorem Bounded.push {a : Arena K V} (bounded : a.Bounded) (tidy : a.Tidy) (state : Nat)
    (value : Option (Content K V)) {base : Option NodeId}
    (inside : ∀ id, base = some id → id < a.slots.size) :
    (a.push state value base).1.Bounded := by
  rintro id below ⟨node, found, stands⟩
  refine (tidy.lt_size_push_iff below).mpr (.inr ?_)
  by_cases same : id = (a.push state value base).2
  · subst same
    rw [tidy.push_node?_self] at found
    cases found
    exact inside below stands
  · rw [push_node?_of_ne same] at found
    exact bounded ⟨node, found, stands⟩

theorem exists_node?_of_mem_chain {a : Arena K V} {top id : NodeId}
    (listed : id ∈ (a.chain top).map (·.1)) : ∃ node, a.node? id = some node := by
  obtain ⟨entry, member, rfl⟩ := List.mem_map.mp listed
  exact ⟨entry.2, node?_of_mem_chainUpTo member⟩

theorem Holds.mem_chain_iff {a : Arena K V} {top : NodeId} {frames : List (Frame K V)}
    (held : a.Holds top frames) (id : NodeId) :
    id ∈ (a.chain top).map (·.1) ↔ a.Reaches top id := by
  have listed : ∀ limit, frames.length < limit →
      (id ∈ (a.chainUpTo limit (some top)).map (·.1) ↔ a.Reaches top id) := by
    induction held with
    | @root top found =>
      intro limit enough
      obtain ⟨limit, rfl⟩ := Nat.exists_eq_add_one.mpr (Nat.zero_lt_of_lt enough)
      have alone : a.Reaches top id ↔ id = top := by
        refine ⟨fun reaches => ?_, fun same => same ▸ .refl⟩
        rcases reaches.cases_head with same | ⟨below, ⟨node, found', stands⟩, -⟩
        · exact same.symm
        · rw [found] at found'
          cases found'
          cases stands
      rw [alone]
      cases limit <;> simp [Arena.chainUpTo, found]
    | @frame top below state content frames found _ ih =>
      intro limit enough
      obtain ⟨limit, rfl⟩ := Nat.exists_eq_add_one.mpr (Nat.zero_lt_of_lt enough)
      have split : a.Reaches top id ↔ id = top ∨ a.Reaches below id := by
        constructor
        · intro reaches
          rcases reaches.cases_head with same | ⟨below', ⟨node, found', stands⟩, rest⟩
          · exact .inl same.symm
          · rw [found] at found'
            cases found'
            cases stands
            exact .inr rest
        · rintro (same | rest)
          · exact same ▸ .refl
          · exact .head ⟨_, found, rfl⟩ rest
      rw [split, ← ih limit (Nat.lt_of_succ_lt_succ enough)]
      simp [Arena.chainUpTo, found]
  exact listed a.slots.size held.length_lt

section Marking

private def Marked (marked : Array Bool) (id : NodeId) : Prop := marked[id]? = some true

private def Closed (a : Arena K V) (marked : Array Bool) : Prop :=
  ∀ ⦃id below : NodeId⦄, Marked marked id → a.StandsOn id below → Marked marked below

private theorem Closed.reaches {a : Arena K V} {marked : Array Bool} (closed : Closed a marked)
    {top id : NodeId} (start : Marked marked top) (reaches : a.Reaches top id) :
    Marked marked id := by
  induction reaches with
  | refl => exact start
  | tail _ stands ih => exact closed ih stands

private theorem marked_set_iff {marked : Array Bool} {id other : NodeId}
    (unmarked : marked[id]? = some false) :
    Marked (marked.setIfInBounds id true) other ↔ other = id ∨ Marked marked other := by
  obtain ⟨inside, _⟩ := Array.getElem?_eq_some_iff.mp unmarked
  unfold Marked
  by_cases same : other = id
  · subst same
    simp [Array.getElem?_setIfInBounds_self_of_lt inside]
  · simp [Array.getElem?_setIfInBounds_ne (Ne.symm same), same]

private theorem count_set_lt {marked : Array Bool} {id : NodeId}
    (unmarked : marked[id]? = some false) :
    (marked.setIfInBounds id true).count false < marked.count false := by
  obtain ⟨inside, value⟩ := Array.getElem?_eq_some_iff.mp unmarked
  have positive : 0 < marked.count false :=
    Array.count_pos_iff.mpr (value ▸ Array.getElem_mem inside)
  rw [Array.setIfInBounds, dif_pos inside, Array.count_set inside, value]
  simp only [beq_self_eq_true, if_true]
  rw [if_neg (by decide)]
  omega

private theorem marked_of_count_eq_zero {marked : Array Bool} (none : marked.count false = 0)
    {id : NodeId} (inside : id < marked.size) : Marked marked id := by
  have absent : false ∉ marked := Array.count_eq_zero.mp none
  have present := Array.getElem_mem inside
  unfold Marked
  rw [Array.getElem?_eq_getElem inside]
  cases value : marked[id] with
  | true => rfl
  | false => exact absurd (value ▸ present) absent

/-- A marking that goes on at `next`, and then at each of the roots, comes to an end, and then these slots
are marked. No rule covers a slot that the arena does not have. -/
inductive Marks (a : Arena K V) : List NodeId → Option NodeId → Array Bool → Array Bool → Prop
  | done {marked : Array Bool} : Marks a [] none marked marked
  | root {root : NodeId} {roots : List NodeId} {marked marked' : Array Bool} :
      Marks a roots (some root) marked marked' → Marks a (root :: roots) none marked marked'
  | met {id : NodeId} {roots : List NodeId} {marked marked' : Array Bool} :
      marked[id]? = some true → Marks a roots none marked marked' →
        Marks a roots (some id) marked marked'
  | mark {id : NodeId} {roots : List NodeId} {marked marked' : Array Bool} :
      marked[id]? = some false →
        Marks a roots ((a.node? id).bind (·.below)) (marked.setIfInBounds id true) marked' →
          Marks a roots (some id) marked marked'

private theorem size_markChain (a : Arena K V) (fuel : Nat) (next : Option NodeId)
    (marked : Array Bool) : (a.markChain fuel next marked).size = marked.size := by
  induction fuel generalizing next marked with
  | zero => rfl
  | succ fuel ih =>
    cases next with
    | none => rfl
    | some id =>
      unfold markChain
      split
      · rw [ih, Array.size_setIfInBounds]
      · rfl

private theorem below_eq_some_iff {a : Arena K V} {id below : NodeId} :
    (a.node? id).bind (·.below) = some below ↔ a.StandsOn id below :=
  Option.bind_eq_some_iff

private theorem Bounded.marks_markChain {a : Arena K V} (bounded : a.Bounded) (fuel : Nat)
    (next : Option NodeId) (marked : Array Bool) (size : marked.size = a.slots.size)
    (enough : marked.count false ≤ fuel) (inside : ∀ id, next = some id → id < a.slots.size)
    {roots : List NodeId} {marked' : Array Bool}
    (rest : a.Marks roots none (a.markChain fuel next marked) marked') :
    a.Marks roots next marked marked' := by
  -- The fuel counts the slots that are not marked yet: without fuel all are marked, and every step
  -- marks one more.
  induction fuel generalizing next marked with
  | zero =>
    cases next with
    | none => exact rest
    | some id =>
      have full : marked.count false = 0 := Nat.le_zero.mp enough
      exact .met (marked_of_count_eq_zero full (size ▸ inside id rfl)) rest
  | succ fuel ih =>
    cases next with
    | none => exact rest
    | some id =>
      unfold markChain at rest
      by_cases unmarked : marked[id]? = some false
      · rw [if_pos unmarked] at rest
        have fewer := count_set_lt unmarked
        refine .mark unmarked (ih _ _ ?_ ?_ ?_ rest)
        · rw [Array.size_setIfInBounds, size]
        · omega
        · intro below stands
          exact bounded (below_eq_some_iff.mp stands)
      · rw [if_neg unmarked] at rest
        have lt : id < marked.size := size ▸ inside id rfl
        refine .met ?_ rest
        rw [Array.getElem?_eq_getElem lt] at unmarked ⊢
        simpa using unmarked

private theorem Bounded.marks_foldl {a : Arena K V} (bounded : a.Bounded) (roots : List NodeId)
    (inside : ∀ root ∈ roots, root < a.slots.size) (marked : Array Bool)
    (size : marked.size = a.slots.size) :
    a.Marks roots none marked
      (roots.foldl (fun marked root => a.markChain a.slots.size (some root) marked) marked) := by
  induction roots generalizing marked with
  | nil => exact .done
  | cons root roots ih =>
    have room : marked.count false ≤ a.slots.size := size ▸ Array.count_le_size
    refine .root (bounded.marks_markChain a.slots.size (some root) marked size room ?_ ?_)
    · intro id same
      exact Option.some.inj same ▸ inside root List.mem_cons_self
    · apply ih fun other member => inside other (List.mem_cons_of_mem root member)
      rw [size_markChain, size]

theorem Bounded.marks_reachable {a : Arena K V} (bounded : a.Bounded) {roots : List NodeId}
    (inside : ∀ root ∈ roots, root < a.slots.size) :
    a.Marks roots none (Array.replicate a.slots.size false) (a.reachable roots) :=
  bounded.marks_foldl roots inside _ Array.size_replicate

private theorem Marks.marked_iff {a : Arena K V} {roots : List NodeId} {next : Option NodeId}
    {marked marked' : Array Bool} (marks : a.Marks roots next marked marked')
    (pending : ∀ id below, Marked marked id → a.StandsOn id below →
      Marked marked below ∨ next = some below) (id : NodeId) :
    Marked marked' id ↔
      Marked marked id ∨ ∃ start, (next = some start ∨ start ∈ roots) ∧ a.Reaches start id := by
  induction marks with
  | done => simp
  | root _ ih =>
    rw [ih fun id below marks stands => (pending id below marks stands).imp_right nofun]
    simp [eq_comm]
  | @met start roots marked marked' known _ ih =>
    have closed : Closed a marked := by
      intro id below marks stands
      rcases pending id below marks stands with done | same
      · exact done
      · exact Option.some.inj same ▸ known
    rw [ih fun id below marks stands => .inl (closed marks stands)]
    constructor
    · rintro (marks | ⟨root, member | member, reaches⟩)
      · exact .inl marks
      · cases member
      · exact .inr ⟨root, .inr member, reaches⟩
    · rintro (marks | ⟨root, same | member, reaches⟩)
      · exact .inl marks
      · exact .inl (closed.reaches (Option.some.inj same ▸ known) reaches)
      · exact .inr ⟨root, .inr member, reaches⟩
  | @mark start roots marked marked' unmarked _ ih =>
    have pending' : ∀ id below, Marked (marked.setIfInBounds start true) id → a.StandsOn id below →
        Marked (marked.setIfInBounds start true) below ∨
          (a.node? start).bind (·.below) = some below := by
      intro id below marks stands
      rw [marked_set_iff unmarked] at marks ⊢
      rcases marks with rfl | marks
      · exact .inr (below_eq_some_iff.mpr stands)
      · rcases pending id below marks stands with done | same
        · exact .inl (.inr done)
        · exact .inl (.inl (Option.some.inj same).symm)
    rw [ih pending', marked_set_iff unmarked]
    constructor
    · rintro ((rfl | marks) | ⟨root, stands | member, reaches⟩)
      · exact .inr ⟨id, .inl rfl, .refl⟩
      · exact .inl marks
      · exact .inr ⟨start, .inl rfl, .head (below_eq_some_iff.mp stands) reaches⟩
      · exact .inr ⟨root, .inr member, reaches⟩
    · rintro (marks | ⟨root, same | member, reaches⟩)
      · exact .inl (.inr marks)
      · cases same
        rcases reaches.cases_head with rfl | ⟨below, stands, rest⟩
        · exact .inl (.inl rfl)
        · exact .inr ⟨below, .inl (below_eq_some_iff.mpr stands), rest⟩
      · exact .inr ⟨root, .inr member, reaches⟩

end Marking

section Sweep

variable {a : Arena K V} {roots : List NodeId}

theorem Bounded.reachable_iff (bounded : a.Bounded) (inside : ∀ root ∈ roots, root < a.slots.size)
    (id : NodeId) :
    (a.reachable roots)[id]?.getD false = true ↔ ∃ root ∈ roots, a.Reaches root id := by
  have blank : ∀ id, ¬ Marked (Array.replicate a.slots.size false) id := by
    intro id marks
    obtain ⟨inside, value⟩ := Array.getElem?_eq_some_iff.mp marks
    simp at value
  have spec := (bounded.marks_reachable inside).marked_iff
    (fun id _ marks => absurd marks (blank id)) id
  simp only [blank id, false_or, reduceCtorEq] at spec
  rw [← spec]
  change (a.reachable roots)[id]?.getD false = true ↔ (a.reachable roots)[id]? = some true
  cases (a.reachable roots)[id]? <;> simp

theorem sweep_node? (a : Arena K V) (roots : List NodeId) (id : NodeId) :
    (a.sweep roots).1.node? id =
      if (a.reachable roots)[id]?.getD false = true then a.node? id else none := by
  simp only [sweep, node?, Array.getElem?_mapIdx]
  cases a.slots[id]? with
  | none => simp
  | some slot => split <;> simp_all

@[simp] theorem size_slots_sweep (a : Arena K V) (roots : List NodeId) :
    (a.sweep roots).1.slots.size = a.slots.size := Array.size_mapIdx

theorem Bounded.sweep_node?_of_reaches (bounded : a.Bounded)
    (inside : ∀ root ∈ roots, root < a.slots.size) {id : NodeId}
    (reached : ∃ root ∈ roots, a.Reaches root id) : (a.sweep roots).1.node? id = a.node? id := by
  rw [sweep_node?, if_pos ((bounded.reachable_iff inside id).mpr reached)]

theorem Bounded.sweep_node?_of_not_reaches (bounded : a.Bounded)
    (inside : ∀ root ∈ roots, root < a.slots.size) {id : NodeId}
    (lost : ¬ ∃ root ∈ roots, a.Reaches root id) : (a.sweep roots).1.node? id = none := by
  rw [sweep_node?, if_neg ((bounded.reachable_iff inside id).not.mpr lost)]

theorem Bounded.sweep_isSome_iff (bounded : a.Bounded) (inside : ∀ root ∈ roots, root < a.slots.size)
    {id : NodeId} {node : Node K V} (found : a.node? id = some node) :
    ((a.sweep roots).1.node? id).isSome ↔ ∃ root ∈ roots, a.Reaches root id := by
  by_cases reached : ∃ root ∈ roots, a.Reaches root id
  · simp [bounded.sweep_node?_of_reaches inside reached, found, reached]
  · simp [bounded.sweep_node?_of_not_reaches inside reached, reached]

theorem Bounded.sweep_eq_self (bounded : a.Bounded) (inside : ∀ root ∈ roots, root < a.slots.size)
    (used : ∀ id node, a.node? id = some node → ∃ root ∈ roots, a.Reaches root id) :
    a.sweep roots = (a, 0) := by
  have kept : ∀ id node, a.node? id = some node → (a.reachable roots)[id]?.getD false = true :=
    fun id node found => (bounded.reachable_iff inside id).mpr (used id node found)
  have freed : ((List.range a.slots.size).filter fun id =>
      !(a.reachable roots)[id]?.getD false && (a.node? id).isSome) = [] := by
    refine List.filter_eq_nil_iff.mpr fun id _ => ?_
    cases found : a.node? id with
    | none => simp
    | some node => simp [kept id node found]
  have slots : (a.slots.mapIdx fun id slot =>
      if (a.reachable roots)[id]?.getD false = true then slot else none) = a.slots := by
    refine Array.ext_getElem? fun id => ?_
    rw [Array.getElem?_mapIdx]
    cases slot : a.slots[id]? with
    | none => rfl
    | some content =>
      cases content with
      | none => simp
      | some node =>
        have found : a.node? id = some node := by simp [node?, slot]
        rw [Option.map_some, if_pos (kept id node found)]
  simp only [sweep, freed, slots, List.reverse_nil, List.nil_append, List.length_nil]

theorem grows_of_sweep (a : Arena K V) (roots : List NodeId) : (a.sweep roots).1.Grows a := by
  intro id node found
  rw [sweep_node?] at found
  split at found
  · exact found
  · cases found

theorem Bounded.reached_of_sweep (bounded : a.Bounded) (inside : ∀ root ∈ roots, root < a.slots.size)
    {id : NodeId} {node : Node K V} (kept : (a.sweep roots).1.node? id = some node) :
    ∃ root ∈ roots, a.Reaches root id :=
  (bounded.sweep_isSome_iff inside (a.grows_of_sweep roots kept)).mp (Option.isSome_of_eq_some kept)

theorem Bounded.sweep_node?_below (bounded : a.Bounded) (inside : ∀ root ∈ roots, root < a.slots.size)
    {id below : NodeId} (stands : (a.sweep roots).1.StandsOn id below) :
    (a.sweep roots).1.node? below = a.node? below := by
  obtain ⟨node, kept, stands⟩ := stands
  have found := a.grows_of_sweep roots kept
  obtain ⟨root, member, reaches⟩ := bounded.reached_of_sweep inside kept
  exact bounded.sweep_node?_of_reaches inside ⟨root, member, .tail reaches ⟨node, found, stands⟩⟩

theorem Bounded.sweep (bounded : a.Bounded) (roots : List NodeId) : (a.sweep roots).1.Bounded := by
  rintro id below ⟨node, kept, stands⟩
  rw [size_slots_sweep]
  exact bounded ⟨node, a.grows_of_sweep roots kept, stands⟩

theorem Bounded.reaches_sweep (bounded : a.Bounded) (inside : ∀ root ∈ roots, root < a.slots.size)
    {root id : NodeId} (member : root ∈ roots) (reaches : a.Reaches root id) :
    (a.sweep roots).1.Reaches root id := by
  induction reaches with
  | refl => exact .refl
  | tail above stands ih =>
    obtain ⟨node, found, below⟩ := stands
    have kept := bounded.sweep_node?_of_reaches inside ⟨root, member, above⟩
    exact .tail ih ⟨node, kept.trans found, below⟩

theorem Bounded.sweep_sweep (bounded : a.Bounded) (inside : ∀ root ∈ roots, root < a.slots.size) :
    (a.sweep roots).1.sweep roots = ((a.sweep roots).1, 0) := by
  refine (bounded.sweep roots).sweep_eq_self ?_ fun id node kept => ?_
  · simpa using inside
  · obtain ⟨root, member, reaches⟩ := bounded.reached_of_sweep inside kept
    exact ⟨root, member, bounded.reaches_sweep inside member reaches⟩

theorem Bounded.sweep_congr (bounded : a.Bounded) (inside : ∀ root ∈ roots, root < a.slots.size)
    {roots' : List NodeId} (same : ∀ id, id ∈ roots' ↔ id ∈ roots) : a.sweep roots' = a.sweep roots := by
  have inside' : ∀ root ∈ roots', root < a.slots.size := fun root member =>
    inside root ((same root).mp member)
  have kept : ∀ id : Nat,
      (a.reachable roots')[id]?.getD false = (a.reachable roots)[id]?.getD false := by
    intro id
    rw [Bool.eq_iff_iff, bounded.reachable_iff inside', bounded.reachable_iff inside]
    simp only [same]
  simp only [Arena.sweep, kept]

theorem sweep_freed (a : Arena K V) (roots : List NodeId) :
    (a.sweep roots).2 = (a.live.filter fun id => ((a.sweep roots).1.node? id).isNone).length := by
  have freed : (a.sweep roots).2 = ((List.range a.slots.size).filter fun id =>
      !(a.reachable roots)[id]?.getD false && (a.node? id).isSome).length := rfl
  rw [freed, live, List.filter_filter]
  refine congrArg List.length (List.filter_congr fun id _ => ?_)
  rw [sweep_node?]
  cases (a.reachable roots)[id]?.getD false <;> cases a.node? id <;> rfl

theorem Tidy.sweep (tidy : a.Tidy) (roots : List NodeId) : (a.sweep roots).1.Tidy := by
  have emptied : ∀ id, (a.sweep roots).1.node? id = none ↔
      a.node? id = none ∨ (a.reachable roots)[id]?.getD false = false := by
    intro id
    rw [sweep_node?]
    by_cases kept : (a.reachable roots)[id]?.getD false = true <;> simp [kept]
  refine ⟨fun id => ?_, ?_⟩
  · rw [size_slots_sweep, emptied]
    simp only [Arena.sweep, List.mem_append, List.mem_reverse, List.mem_filter, List.mem_range,
      tidy.mem_free_iff]
    cases a.node? id <;> simp
  · refine List.nodup_append.mpr ⟨?_, tidy.nodup, ?_⟩
    · exact List.nodup_reverse.mpr (List.nodup_range.filter _)
    · intro id freed other listed same
      subst same
      simp only [List.mem_reverse, List.mem_filter] at freed
      rw [((tidy.mem_free_iff id).mp listed).2] at freed
      simp at freed

theorem Tidy.size_sweep (tidy : a.Tidy) (roots : List NodeId) :
    (a.sweep roots).1.size + (a.sweep roots).2 = a.size := by
  have room := (tidy.sweep roots).length_free_le
  simp only [Arena.sweep, size, Array.size_mapIdx, List.length_append, List.length_reverse] at room ⊢
  omega

theorem Sound.sweep (sound : a.Sound) (inside : ∀ root ∈ roots, root < a.slots.size) :
    (a.sweep roots).1.Sound := by
  refine ⟨sound.toTidy.sweep roots, fun id node found => ?_⟩
  have before := a.grows_of_sweep roots found
  obtain root | ⟨state, content, below, base, rfl, under⟩ := sound.grounded id node before
  · exact .inl root
  · refine .inr ⟨state, content, below, base, rfl, ?_⟩
    rw [sound.bounded.sweep_node?_below inside ⟨_, found, rfl⟩, under]

theorem Holds.sweep {id : NodeId} {frames : List (Frame K V)} (held : a.Holds id frames)
    (sound : a.Sound) (inside : ∀ root ∈ roots, root < a.slots.size)
    (reached : ∃ root ∈ roots, a.Reaches root id) : (a.sweep roots).1.Holds id frames := by
  induction held with
  | root found =>
    exact .root (by rw [sound.bounded.sweep_node?_of_reaches inside reached, found])
  | frame found _ ih =>
    obtain ⟨root, member, reaches⟩ := reached
    refine .frame ?_ (ih ⟨root, member, .tail reaches ⟨_, found, rfl⟩⟩)
    rw [sound.bounded.sweep_node?_of_reaches inside ⟨root, member, reaches⟩, found]

private theorem lt_size_of_holds (holds : ∀ root ∈ roots, ∃ frames, a.Holds root frames) :
    ∀ root ∈ roots, root < a.slots.size := by
  intro root member
  obtain ⟨frames, held⟩ := holds root member
  obtain ⟨node, filled, -⟩ := held.node?
  exact lt_size_of_node? filled

theorem Sound.sweep_filled_iff (sound : a.Sound)
    (holds : ∀ root ∈ roots, ∃ frames, a.Holds root frames) (id : NodeId) :
    (∃ node, (a.sweep roots).1.node? id = some node) ↔
      ∃ root ∈ roots, id ∈ (a.chain root).map (·.1) := by
  have inside := lt_size_of_holds holds
  constructor
  · rintro ⟨node, filled⟩
    obtain ⟨root, member, reaches⟩ := sound.bounded.reached_of_sweep inside filled
    obtain ⟨frames, held⟩ := holds root member
    exact ⟨root, member, (held.mem_chain_iff id).mpr reaches⟩
  · rintro ⟨root, member, listed⟩
    obtain ⟨frames, held⟩ := holds root member
    have reaches := (held.mem_chain_iff id).mp listed
    rw [sound.bounded.sweep_node?_of_reaches inside ⟨root, member, reaches⟩]
    exact exists_node?_of_mem_chain listed

theorem Sound.sweep_chain_eq {b : Arena K V} (sound : b.Sound) (grows : a.Grows b)
    (holds : ∀ root ∈ roots, ∃ frames, a.Holds root frames) {root : NodeId} (member : root ∈ roots) :
    (b.sweep roots).1.chain root = a.chain root ∧
      (b.sweep roots).1.node? root = a.node? root := by
  have inside := lt_size_of_holds fun root member =>
    (holds root member).imp fun _ held => held.mono grows
  obtain ⟨frames, held⟩ := holds root member
  have kept := (held.mono grows).sweep sound inside ⟨root, member, .refl⟩
  constructor
  · rw [← held.chain_eq grows, kept.chain_eq (b.grows_of_sweep roots)]
  · obtain ⟨node, filled, -⟩ := held.node?
    rw [sound.bounded.sweep_node?_of_reaches inside ⟨root, member, .refl⟩, filled, grows filled]

end Sweep

end GeneralizedLR.Arena
