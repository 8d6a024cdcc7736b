import GeneralizedLR.Head.Merge
import GeneralizedLR.Proofs.Outcome
import GeneralizedLR.Proofs.Stack.Shape

/-!
The shape of a head: what is left of it without the places and the texts of its errors. Heads of the
same shapes on stacks of the same shapes shift, reduce and are merged alike.
-/

set_option autoImplicit false
set_option relaxedAutoImplicit false

namespace GeneralizedLR

variable {K V K' V' : Type}

def ErrorRecord.shape (record : ErrorRecord) : ErrorRecord := ⟨record.kind, none, none⟩

def Head.shape (h : Head) : Head := { h with errors := h.errors.map ErrorRecord.shape }

namespace Head

variable {a : Arena K V} {a' : Arena K' V'} {h h' : Head}

theorem shape_eq_iff : h.shape = h'.shape ↔ h.top = h'.top ∧
    h.errors.map ErrorRecord.shape = h'.errors.map ErrorRecord.shape ∧ h.level = h'.level ∧
      h.accepted = h'.accepted ∧ h.serial = h'.serial := by
  simp [shape]

theorem top_of_shape (same : h.shape = h'.shape) : h.top = h'.top :=
  (shape_eq_iff.mp same).1

theorem fork_of_shape (same : h.shape = h'.shape) {serial serial' : Nat} (number : serial = serial') :
    (h.fork serial).shape = (h'.fork serial').shape := by
  obtain ⟨top, errors, level, accepted, -⟩ := shape_eq_iff.mp same
  exact shape_eq_iff.mpr ⟨top, errors, level, accepted, number⟩

theorem repaired_of_shape (same : h.shape = h'.shape) (kind : Option ErrorKind)
    (span span' : Option Span) (argument argument' : Option String) :
    (h.raise.addError ⟨kind, span, argument⟩).shape =
      (h'.raise.addError ⟨kind, span', argument'⟩).shape := by
  obtain ⟨top, errors, level, accepted, serial⟩ := shape_eq_iff.mp same
  refine shape_eq_iff.mpr ⟨top, ?_, congrArg (· + 1) level, accepted, serial⟩
  simp [addError, raise, errors, ErrorRecord.shape]

theorem shift_of_shape (same : a.shape = a'.shape) (heads : h.shape = h'.shape) (token : K)
    (token' : K') (target : Nat) :
    (h.shift a token target).1.shape = (h'.shift a' token' target).1.shape ∧
      (h.shift a token target).2.shape = (h'.shift a' token' target).2.shape := by
  obtain ⟨top, errors, level, accepted, serial⟩ := shape_eq_iff.mp heads
  obtain ⟨arena, new⟩ := Arena.push_of_shape same target
    (show (some (.lexeme token)).map Content.shape = (some (.lexeme token')).map Content.shape from rfl)
    (some h.top)
  unfold shift
  rw [← top]
  exact ⟨shape_eq_iff.mpr ⟨new, errors, level, accepted, serial⟩, arena⟩

theorem replace_of_shape (same : a.shape = a'.shape) (heads : h.shape = h'.shape) (value : V)
    (value' : V') (base : NodeId) (state : Nat) (ends : Bool) :
    (h.replace a ⟨value, base, state, ends⟩).1.shape =
        (h'.replace a' ⟨value', base, state, ends⟩).1.shape ∧
      (h.replace a ⟨value, base, state, ends⟩).2.shape =
        (h'.replace a' ⟨value', base, state, ends⟩).2.shape := by
  obtain ⟨top, errors, level, accepted, serial⟩ := shape_eq_iff.mp heads
  obtain ⟨arena, new⟩ := Arena.push_of_shape same state
    (show (some (.reduced value)).map Content.shape = (some (.reduced value')).map Content.shape
      from rfl) (some base)
  exact ⟨shape_eq_iff.mpr ⟨new, errors, level, congrArg (· || ends) accepted, serial⟩, arena⟩

theorem reduction_of_shape (same : a.shape = a'.shape) (heads : h.shape = h'.shape) (table : Table)
    (reducer : Reducer K V) (reducer' : Reducer K' V') (production : Nat) (lookahead : K)
    (lookahead' : K') :
    (∃ cause, h.reduction a table reducer production lookahead = .error cause ∧
      h'.reduction a' table reducer' production lookahead' = .error cause) ∨
    ∃ value value' base state ends,
      h.reduction a table reducer production lookahead = .ok ⟨value, base, state, ends⟩ ∧
        h'.reduction a' table reducer' production lookahead' = .ok ⟨value', base, state, ends⟩ := by
  unfold reduction
  rw [top_of_shape heads]
  cases table.production? production with
  | none => exact .inl ⟨_, rfl, rfl⟩
  | some rule =>
    simp only
    rcases Arena.pop_of_shape same rule.arity h'.top with
      ⟨cause, failed, failed'⟩ | ⟨values, values', base, popped, popped'⟩
    · exact .inl ⟨cause, by rw [failed]; rfl, by rw [failed']; rfl⟩
    · simp only [popped, popped', bind, Except.bind, Arena.state_of_shape same base]
      cases a'.state base with
      | error cause => exact .inl ⟨cause, rfl, rfl⟩
      | ok uncovered =>
        simp only
        cases table.landing rule uncovered with
        | error cause => exact .inl ⟨cause, rfl, rfl⟩
        | ok state => exact .inr ⟨_, _, base, state, rule.isStart, rfl, rfl⟩

end Head

section Merging

private def Merging.shape (m : Merging) : Merging :=
  { m with
    target := m.target.map Head.shape
    pairs := m.pairs.map (Prod.map Head.shape Head.shape) }

private theorem Merging.meets?_shape (a : Arena K V) (m : Merging) (top : NodeId) :
    m.shape.meets? a.shape top =
      Option.map (fun met => (met.1, met.2.shape)) ∘ m.meets? a top := by
  funext place
  simp only [meets?, shape, Array.getElem?_map, Function.comp_apply]
  cases m.target[place]? with
  | none => rfl
  | some kept =>
    simp only [Option.map_some, Option.bind_some, Arena.sameStates_shape, Head.shape]
    split <;> rfl

private theorem Merging.add_shape (a : Arena K V) (m : Merging) (head : Head) :
    m.shape.add a.shape head.shape = (m.add a head).shape := by
  have top : head.shape.top = head.top := rfl
  have preferred : ∀ kept : Head, head.shape.isPreferred kept.shape = head.isPreferred kept :=
    fun _ => rfl
  unfold Merging.add
  rw [top, Arena.node?_shape]
  cases a.node? head.top with
  | none => simp [shape]
  | some node =>
    have bucket : m.shape.bucket = m.bucket := rfl
    simp only [Option.map_some, Node.shape, bucket, meets?_shape, ← List.map_findSome?]
    cases (m.bucket node.state node.depth).findSome? (m.meets? a head.top) with
    | none => simp [shape]
    | some met =>
      simp only [Option.map_some, preferred]
      split <;> simp [shape, Array.map_setIfInBounds]

private theorem Merged.ofHeads_shape (a : Arena K V) (heads : List Head) :
    ofHeads a.shape (heads.map Head.shape) =
      { heads := (ofHeads a heads).heads.map Head.shape
        pairs := (ofHeads a heads).pairs.map (Prod.map Head.shape Head.shape) } := by
  have merged : ∀ m : Merging, (heads.map Head.shape).foldl (Merging.add a.shape) m.shape =
      (heads.foldl (Merging.add a) m).shape := by
    induction heads with
    | nil => exact fun _ => rfl
    | cons head rest ih =>
      intro m
      rw [List.map_cons, List.foldl_cons, Merging.add_shape, ih, List.foldl_cons]
  have start : Merging.shape { target := [].toArray } = { target := [].toArray } := by
    simp [Merging.shape]
  rw [ofHeads, onto, ← start, merged]
  simp [ofHeads, onto, Merging.finish, Merging.shape]

theorem Merged.ofHeads_of_shape {a : Arena K V} {a' : Arena K' V'} (same : a.shape = a'.shape)
    {heads heads' : List Head} (alike : heads.map Head.shape = heads'.map Head.shape) :
    (ofHeads a heads).heads.map Head.shape = (ofHeads a' heads').heads.map Head.shape ∧
      (ofHeads a heads).pairs.length = (ofHeads a' heads').pairs.length := by
  have merged := ofHeads_shape a heads
  rw [same, alike, ofHeads_shape, Merged.mk.injEq] at merged
  refine ⟨merged.1.symm, ?_⟩
  simpa using (congrArg List.length merged.2).symm

end Merging

end GeneralizedLR
