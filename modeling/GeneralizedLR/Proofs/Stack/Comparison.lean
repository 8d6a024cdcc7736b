import GeneralizedLR.Proofs.Stack.Chains
import GeneralizedLR.Proofs.Stack.Ledger

/-!
The comparison of two stacks. It goes down both of them at once and stops early: at a node that they
share, for what is below is shared as well, and at different depths, for then one stack has more states
than the other. Where every node was pushed onto one that was there, or onto none, it ends and tells
whether the two stacks have the same states.
-/

set_option autoImplicit false
set_option relaxedAutoImplicit false

namespace GeneralizedLR.Arena

variable {K V : Type}

/-- The way down from `id` ends at a node that stands on none, and from there up to `id` the states
are these. -/
inductive Traces (a : Arena K V) : NodeId → List Nat → Prop
  | root {id : NodeId} {node : Node K V} :
      a.node? id = some node → node.below = none → Traces a id [node.state]
  | above {id below : NodeId} {node : Node K V} {states : List Nat} :
      a.node? id = some node → node.below = some below → Traces a below states →
        Traces a id (states ++ [node.state])

section Compare

variable {a : Arena K V} {id left right : NodeId} {node node' : Node K V} {states states' : List Nat}

theorem Traces.exists_node? (traces : a.Traces id states) : ∃ node, a.node? id = some node := by
  cases traces with
  | root found _ => exact ⟨_, found⟩
  | above found _ _ => exact ⟨_, found⟩

theorem Traces.ne_nil (traces : a.Traces id states) : states ≠ [] := by
  cases traces with
  | root => exact List.cons_ne_nil _ _
  | above => exact List.concat_ne_nil _ _

theorem Traces.getLast? (traces : a.Traces id states) (found : a.node? id = some node) :
    states.getLast? = some node.state := by
  cases traces with
  | root found' _ =>
    cases found.symm.trans found'
    rfl
  | above found' _ _ =>
    cases found.symm.trans found'
    exact List.getLast?_concat

theorem Traces.unique (traces : a.Traces id states) (also : a.Traces id states') :
    states = states' := by
  induction traces generalizing states' with
  | root found bottom =>
    cases also with
    | root found' _ => cases found.symm.trans found'; rfl
    | above found' stands _ =>
      cases found.symm.trans found'
      cases bottom.symm.trans stands
  | above found stands _ ih =>
    cases also with
    | root found' bottom =>
      cases found.symm.trans found'
      cases bottom.symm.trans stands
    | above found' stands' rest =>
      cases found.symm.trans found'
      cases stands.symm.trans stands'
      rw [ih rest]

theorem Linked.length_traced (linked : a.Linked) (traces : a.Traces id states)
    (found : a.node? id = some node) : states.length = node.depth + 1 := by
  induction traces generalizing node with
  | root found' bottom =>
    cases found.symm.trans found'
    obtain ⟨-, flat⟩ | ⟨below, base, stands, -, -⟩ := linked _ _ found
    · rw [flat, List.length_singleton]
    · cases bottom.symm.trans stands
  | above found' stands _ ih =>
    cases found.symm.trans found'
    obtain ⟨bottom, -⟩ | ⟨below, base, stands', under, deeper⟩ := linked _ _ found
    · cases bottom.symm.trans stands
    · cases stands.symm.trans stands'
      rw [List.length_append, ih under, deeper, List.length_singleton]

theorem Linked.traces (linked : a.Linked) (found : a.node? id = some node) :
    a.Traces id (a.path id) := by
  induction deep : node.depth generalizing id node with
  | zero =>
    obtain ⟨bottom, -⟩ | ⟨below, base, -, -, deeper⟩ := linked id node found
    · rw [linked.path_eq found, bottom]
      exact .root found bottom
    · omega
  | succ depth ih =>
    obtain ⟨-, flat⟩ | ⟨below, base, stands, under, deeper⟩ := linked id node found
    · omega
    · rw [linked.path_eq found, stands]
      exact .above found stands (ih under (by omega))

private theorem sameWithin_succ (found : a.node? left = some node)
    (found' : a.node? right = some node') (limit : Nat) :
    a.sameWithin (limit + 1) (some left) (some right) =
      if left = right then some true
      else if node.state ≠ node'.state ∨ node.depth ≠ node'.depth then some false
      else a.sameWithin limit node.below node'.below := by
  simp only [sameWithin, entry?, Option.bind_some, found, found', Option.map_some]

private theorem Traces.both_cases (traces : a.Traces left states) (traces' : a.Traces right states')
    (found : a.node? left = some node) (found' : a.node? right = some node')
    (length : states.length = states'.length) :
    (node.below = none ∧ node'.below = none ∧ states = [node.state] ∧ states' = [node'.state]) ∨
      ∃ below below' rest rest', node.below = some below ∧ node'.below = some below' ∧
        states = rest ++ [node.state] ∧ states' = rest' ++ [node'.state] ∧
          a.Traces below rest ∧ a.Traces below' rest' := by
  cases traces with
  | root here bottom =>
    cases found.symm.trans here
    cases traces' with
    | root here' bottom' =>
      cases found'.symm.trans here'
      exact .inl ⟨bottom, bottom', rfl, rfl⟩
    | above _ _ rest' =>
      rw [List.length_append] at length
      exact absurd (List.eq_nil_of_length_eq_zero (Nat.succ.inj length).symm) rest'.ne_nil
  | above here stands rest =>
    cases found.symm.trans here
    cases traces' with
    | root =>
      rw [List.length_append] at length
      exact absurd (List.eq_nil_of_length_eq_zero (Nat.succ.inj length)) rest.ne_nil
    | above here' stands' rest' =>
      cases found'.symm.trans here'
      exact .inr ⟨_, _, _, _, stands, stands', rfl, rfl, rest, rest'⟩

/-- Stacks with the same states have the same state on top and are equally deep. -/
theorem Linked.agree (linked : a.Linked) (traces : a.Traces left states)
    (traces' : a.Traces right states) (found : a.node? left = some node)
    (found' : a.node? right = some node') : node.state = node'.state ∧ node.depth = node'.depth := by
  have length := linked.length_traced traces found
  have length' := linked.length_traced traces' found'
  exact ⟨Option.some.inj ((traces.getLast? found).symm.trans (traces'.getLast? found')),
    Nat.succ.inj (length.symm.trans length')⟩

theorem Linked.sameWithin_eq (linked : a.Linked) (traces : a.Traces left states)
    (traces' : a.Traces right states') {limit : Nat} (enough : states.length < limit) :
    a.sameWithin limit (some left) (some right) = some (decide (states = states')) := by
  induction limit generalizing left right states states' with
  | zero => cases enough
  | succ limit ih =>
    obtain ⟨node, found⟩ := traces.exists_node?
    obtain ⟨node', found'⟩ := traces'.exists_node?
    rw [sameWithin_succ found found']
    by_cases shared : left = right
    · subst shared
      rw [if_pos rfl, decide_eq_true (traces.unique traces')]
    by_cases differs : node.state ≠ node'.state ∨ node.depth ≠ node'.depth
    · have different : states ≠ states' := by
        rintro rfl
        obtain ⟨state, depth⟩ := linked.agree traces traces' found found'
        exact differs.elim (· state) (· depth)
      rw [if_neg shared, if_pos differs, decide_eq_false different]
    · rw [if_neg shared, if_neg differs]
      obtain ⟨state, depth⟩ := not_or.mp differs
      rw [not_not] at state depth
      have length : states.length = states'.length := by
        rw [linked.length_traced traces found, linked.length_traced traces' found', depth]
      obtain ⟨bottom, bottom', rfl, rfl⟩ |
        ⟨below, below', rest, rest', stands, stands', rfl, rfl, lower, lower'⟩ :=
          traces.both_cases traces' found found' length
      · obtain ⟨limit, rfl⟩ := Nat.exists_eq_add_one.mpr (Nat.lt_of_succ_lt_succ enough)
        rw [bottom, bottom', state, decide_eq_true rfl]
        rfl
      · have room := Nat.lt_of_succ_lt_succ (List.length_append ▸ enough)
        rw [stands, stands', ih lower lower' room, state]
        simp

theorem Linked.sameWithin_path (linked : a.Linked) (found : a.node? left = some node)
    (found' : a.node? right = some node') {limit : Nat} (enough : node.depth + 1 < limit) :
    a.sameWithin limit (some left) (some right) = some (decide (a.path left = a.path right)) := by
  have traces := linked.traces found
  exact linked.sameWithin_eq traces (linked.traces found') (linked.length_traced traces found ▸ enough)

theorem Linked.sameStates_eq (linked : a.Linked) (found : a.node? left = some node)
    (found' : a.node? right = some node') :
    a.sameStates left right = decide (a.path left = a.path right) := by
  have room := Nat.succ_lt_succ (linked.depth_lt found)
  rw [sameStates, linked.sameWithin_path found found' room, Option.getD_some]

theorem Linked.equivalence_sameStates (linked : a.Linked) :
    Equivalence fun left right : { id // (a.node? id).isSome } => a.sameStates left right = true := by
  have iff : ∀ left right : { id // (a.node? id).isSome },
      a.sameStates left right = true ↔ a.path left = a.path right := by
    rintro ⟨left, live⟩ ⟨right, live'⟩
    obtain ⟨node, found⟩ := Option.isSome_iff_exists.mp live
    obtain ⟨node', found'⟩ := Option.isSome_iff_exists.mp live'
    rw [linked.sameStates_eq found found', decide_eq_true_iff]
  simp only [iff]
  exact ⟨fun _ => rfl, Eq.symm, Eq.trans⟩

end Compare

namespace Ledger

variable {l : Ledger K V} {past : List (Call K V)}

theorem Balanced.known (balanced : l.Balanced) {call : Call K V} (supported : call.Supported l) :
    call.Known l := by
  cases call with
  | push state value below =>
    intro id named
    obtain ⟨node, found⟩ := Option.isSome_iff_exists.mp (supported id named)
    exact (balanced.mem_pushed_iff id).mpr (lt_size_of_node? found)
  | sweep roots => exact supported

theorem linked_make (balanced : l.Balanced) (linked : l.arena.Linked) {call : Call K V}
    (supported : call.Supported l) : (call.make l).arena.Linked := by
  cases call with
  | push state value below =>
    refine linked.push balanced.tidy state value fun id same => ?_
    exact Option.isSome_iff_exists.mp (supported id (Option.mem_toList.mpr same))
  | sweep roots =>
    exact linked.sweep fun root member => (balanced.mem_pushed_iff root).mp (supported root member)

/-- Where nothing was ever pushed onto a node that was freed, every stack goes down to a root. -/
theorem Reached.linked (reached : l.Reached Call.Supported past) : l.Balanced ∧ l.arena.Linked := by
  induction reached with
  | start =>
    refine ⟨balanced_start, fun id node found => ?_⟩
    cases lt_size_of_node? found
  | call _ supported ih =>
    obtain ⟨balanced, linked⟩ := ih
    exact ⟨balanced.make (balanced.known supported), linked_make balanced linked supported⟩

/-- If nothing was pushed onto a node that was freed, the comparison of any two nodes ends, at the latest
one step below the root of the first, and it tells whether the states down to their roots are the same.
So it is an equivalence, and nodes that it finds the same have the same state and the same depth. -/
theorem Reached.sameStates_exact (reached : l.Reached Call.Supported past) :
    (∀ left right node node', l.arena.node? left = some node → l.arena.node? right = some node' →
      l.arena.Traces left (l.arena.path left) ∧ l.arena.Traces right (l.arena.path right) ∧
        (∀ limit, node.depth + 1 < limit →
          l.arena.sameWithin limit (some left) (some right) =
            some (l.arena.sameStates left right)) ∧
        (l.arena.sameStates left right = true ↔ l.arena.path left = l.arena.path right) ∧
        (l.arena.sameStates left right = true →
          node.state = node'.state ∧ node.depth = node'.depth)) ∧
      Equivalence fun left right : { id // (l.arena.node? id).isSome } =>
        l.arena.sameStates left right = true := by
  obtain ⟨-, linked⟩ := reached.linked
  refine ⟨fun left right node node' found found' => ?_, linked.equivalence_sameStates⟩
  have same := linked.sameStates_eq found found'
  rw [same, decide_eq_true_iff]
  refine ⟨linked.traces found, linked.traces found', fun limit enough => ?_, Iff.rfl, ?_⟩
  · exact linked.sameWithin_path found found' enough
  · intro paths
    exact linked.agree (linked.traces found) (paths ▸ linked.traces found') found found'

/-- Two stacks of the same states that share their root only, and a shorter one in a slot that was
freed. -/
def forked : List (Call Nat Nat) :=
  [.push 2 (some (.lexeme 6)) (some 0), .sweep [3, 4], .push 5 (some (.lexeme 5)) (some 2),
    .push 2 (some (.lexeme 4)) (some 2), .push 2 (some (.lexeme 4)) (some 1),
    .push 1 (some (.reduced 3)) (some 0), .push 1 (some (.lexeme 2)) (some 0), .push 0 none none]

theorem exists_forked : ∃ l : Ledger Nat Nat, l.Reached Call.Supported forked ∧
    l.arena = ⟨#[some ⟨0, none, none, 0⟩, some ⟨1, some (.lexeme 2), some 0, 1⟩,
      some ⟨1, some (.reduced 3), some 0, 1⟩, some ⟨2, some (.lexeme 4), some 1, 2⟩,
      some ⟨2, some (.lexeme 4), some 2, 2⟩, some ⟨2, some (.lexeme 6), some 0, 1⟩], []⟩ := by
  refine ⟨_, .call (.call (.call (.call (.call (.call (.call (.call .start ?_) ?_) ?_) ?_) ?_) ?_) ?_)
    ?_, rfl⟩
  all_goals decide

theorem Reached.sameStates_exact_forked :
    ∃ l : Ledger Nat Nat, l.Reached Call.Supported forked ∧ l.arena.path 3 = [0, 1, 2] ∧
      l.arena.path 5 = [0, 2] ∧ l.arena.Traces 3 (l.arena.path 3) ∧
      l.arena.sameWithin 4 (some 3) (some 4) = some true ∧ l.arena.sameStates 3 5 = false ∧
      Equivalence fun left right : { id // (l.arena.node? id).isSome } =>
        l.arena.sameStates left right = true := by
  obtain ⟨l, reached, arena⟩ := exists_forked
  have found : l.arena.node? 3 = some ⟨2, some (.lexeme 4), some 1, 2⟩ := by rw [arena]; rfl
  have found' : l.arena.node? 4 = some ⟨2, some (.lexeme 4), some 2, 2⟩ := by rw [arena]; rfl
  have short : l.arena.node? 5 = some ⟨2, some (.lexeme 6), some 0, 1⟩ := by rw [arena]; rfl
  have path : l.arena.path 3 = [0, 1, 2] := by rw [arena]; rfl
  have path' : l.arena.path 4 = [0, 1, 2] := by rw [arena]; rfl
  obtain ⟨compared, equivalence⟩ := reached.sameStates_exact
  obtain ⟨traces, -, ends, same, -⟩ := compared 3 4 _ _ found found'
  obtain ⟨-, -, -, -, agree⟩ := compared 3 5 _ _ found short
  refine ⟨l, reached, path, by rw [arena]; rfl, traces, ?_, ?_, equivalence⟩
  · rw [ends 4 (by decide), same.mpr (path.trans path'.symm)]
  · exact Bool.eq_false_iff.mpr fun equal => absurd (agree equal).2 (by decide)

end Ledger

end GeneralizedLR.Arena
