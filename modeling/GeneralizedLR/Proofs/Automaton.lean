import GeneralizedLR.Proofs.Engine.Moves
import Mathlib.Logic.Relation

/-!
The nondeterministic shift/reduce automaton of a table. Its stacks are lists of states from the top
down to the root, and it knows neither heads nor values nor repairs. A stack of frames moves as its
states do.
-/

set_option autoImplicit false
set_option relaxedAutoImplicit false

namespace GeneralizedLR

section Automaton

variable {K : Type} [Token K]

/-- A stack shifts a token, classified by the shift channel of its top state. -/
inductive Table.Shifts (t : Table) (token : K) : List Nat → List Nat → Prop
  | intro {state target : Nat} {below : List Nat} :
      target ∈ t.shifts state (Token.classify (t.shiftChannel? state) token) →
        Table.Shifts t token (state :: below) (target :: state :: below)

/-- A production is listed before a token, classified by the reduce channel of the top state, and
taking its values off the stack uncovers a base. -/
inductive Table.Uncovers (t : Table) (token : K) (rule : Production) : List Nat → List Nat → Prop
  | intro {state number : Nat} {below taken base : List Nat} :
      number ∈ t.reduces state (Token.classify (t.reduceChannel? state) token) →
        t.production? number = some rule → state :: below = taken ++ base →
          taken.length = rule.arity → base ≠ [] → Table.Uncovers t token rule (state :: below) base

/-- A stack is reduced by a production that does not end the parse. -/
inductive Table.Reduces (t : Table) (token : K) : List Nat → List Nat → Prop
  | intro {rule : Production} {stack base : List Nat} {state target : Nat} :
      Table.Uncovers t token rule stack (state :: base) → rule.isStart = false →
        t.goto? state rule.nonterminal = some target →
          Table.Reduces t token stack (target :: state :: base)

def Table.Ends (t : Table) (token : K) (stack : List Nat) : Prop :=
  ∃ rule base, t.Uncovers token rule stack base ∧ rule.isStart = true

/-- The stacks after the tokens: each token is shifted, after any number of reductions. -/
inductive Table.Reaches (t : Table) : List K → List Nat → Prop
  | start : Table.Reaches t [] [0]
  | consume {past : List K} {token : K} {stack ready after : List Nat} : Table.Reaches t past stack →
      Relation.ReflTransGen (t.Reduces token) stack ready → t.Shifts token ready after →
        Table.Reaches t (past ++ [token]) after

theorem Table.Reaches.exists_of_concat {t : Table} {past : List K} {token : K} {after : List Nat}
    (reached : t.Reaches (past ++ [token]) after) :
    ∃ stack ready, t.Reaches past stack ∧ Relation.ReflTransGen (t.Reduces token) stack ready ∧
      t.Shifts token ready after := by
  generalize all : past ++ [token] = tokens at reached
  cases reached with
  | start => simp at all
  | consume reached chain shifts =>
    obtain ⟨rfl, same⟩ := List.append_inj' all rfl
    cases same
    exact ⟨_, _, reached, chain, shifts⟩

/-- Before one of the tokens, and after any number of reductions, the parse can end. -/
def Table.Accepts (t : Table) (tokens : List K) : Prop :=
  ∃ past token future stack ready, tokens = past ++ token :: future ∧ t.Reaches past stack ∧
    Relation.ReflTransGen (t.Reduces token) stack ready ∧ t.Ends token ready

theorem Table.Accepts.append {t : Table} {tokens : List K} (accepts : t.Accepts tokens)
    (more : List K) : t.Accepts (tokens ++ more) := by
  obtain ⟨past, token, future, stack, ready, rfl, reached⟩ := accepts
  exact ⟨past, token, future ++ more, stack, ready, by simp, reached⟩

theorem Table.accepts_concat_iff {t : Table} {tokens : List K} {token : K} :
    t.Accepts (tokens ++ [token]) ↔ t.Accepts tokens ∨ ∃ stack ready, t.Reaches tokens stack ∧
      Relation.ReflTransGen (t.Reduces token) stack ready ∧ t.Ends token ready := by
  constructor
  · rintro ⟨past, last, future, stack, ready, split, reached⟩
    rcases List.eq_nil_or_concat future with rfl | ⟨rest, final, rfl⟩
    · obtain ⟨rfl, same⟩ := List.append_inj' split rfl
      cases same
      exact .inr ⟨stack, ready, reached⟩
    · rw [List.concat_eq_append, ← List.cons_append, ← List.append_assoc] at split
      obtain ⟨rfl, -⟩ := List.append_inj' split rfl
      exact .inl ⟨past, last, rest, stack, ready, rfl, reached⟩
  · rintro (accepts | ⟨stack, ready, reached⟩)
    · exact accepts.append [token]
    · exact ⟨tokens, token, [], stack, ready, rfl, reached⟩

end Automaton

section Frames

variable {K V : Type}

def Frame.states (frames : List (Frame K V)) : List Nat :=
  frames.map (·.state) ++ [0]

theorem Frame.path_eq_reverse (frames : List (Frame K V)) :
    Frame.path frames = (Frame.states frames).reverse := by
  simp [Frame.path, Frame.states]

@[simp] theorem Frame.states_nil : Frame.states ([] : List (Frame K V)) = [0] := rfl

@[simp] theorem Frame.states_cons (frame : Frame K V) (below : List (Frame K V)) :
    Frame.states (frame :: below) = frame.state :: Frame.states below := rfl

theorem Frame.exists_states_eq_cons (frames : List (Frame K V)) :
    ∃ below, Frame.states frames = Frame.top frames :: below := by
  cases frames with
  | nil => exact ⟨[], rfl⟩
  | cons frame below => exact ⟨Frame.states below, rfl⟩

theorem Frame.states_eq_append_iff {frames : List (Frame K V)} {base : List Nat} {count : Nat} :
    (∃ taken : List Nat, taken.length = count ∧ Frame.states frames = taken ++ base ∧ base ≠ []) ↔
      count ≤ frames.length ∧ base = Frame.states (frames.drop count) := by
  constructor
  · rintro ⟨taken, rfl, split, rest⟩
    have lengths := congrArg List.length split
    have filled := List.length_pos_iff.mpr rest
    simp only [Frame.states, List.length_append, List.length_map, List.length_singleton] at lengths
    have enough : taken.length ≤ frames.length := by omega
    have dropped := congrArg (List.drop taken.length) split
    rw [List.drop_left, Frame.states, List.drop_append_of_le_length (by simpa using enough),
      ← List.map_drop] at dropped
    exact ⟨enough, dropped.symm⟩
  · rintro ⟨enough, rfl⟩
    refine ⟨(frames.take count).map (·.state), by simp [enough], ?_, by simp [Frame.states]⟩
    rw [Frame.states, Frame.states, ← List.append_assoc, ← List.map_append, List.take_append_drop]

theorem Branch.exists_mem_merge {branches : List (Branch K V)} {b : Branch K V}
    (member : b ∈ branches) :
    ∃ kept ∈ (Branch.merge branches).1,
      Frame.states kept.frames = Frame.states b.frames ∧ kept.level ≤ b.level := by
  obtain ⟨kept, survives, paths, ranks⟩ :=
    exists_survivor_le Branch.path Branch.rank member
  refine ⟨kept, survives, ?_, ?_⟩
  · simpa [Branch.path, Frame.path_eq_reverse] using paths
  · rcases Prod.Lex.le_iff.mp ranks with less | ⟨same, -⟩
    · exact le_of_lt less
    · exact le_of_eq same

variable [Token K] {p : Parser K V} {token : K} {frames : List (Frame K V)}

theorem Parser.shifts_states_iff {after : List Nat} :
    p.table.Shifts token (Frame.states frames) after ↔
      ∃ target ∈ p.targets token frames, after = target :: Frame.states frames := by
  obtain ⟨below, top⟩ := Frame.exists_states_eq_cons frames
  rw [top]
  constructor
  · rintro ⟨entry⟩
    exact ⟨_, entry, rfl⟩
  · rintro ⟨target, entry, rfl⟩
    exact .intro entry

private theorem Parser.uncovers_states_iff {rule : Production} {base : List Nat} :
    p.table.Uncovers token rule (Frame.states frames) base ↔
      (∃ number ∈ p.rules token frames, p.table.production? number = some rule) ∧
        rule.arity ≤ frames.length ∧ base = Frame.states (frames.drop rule.arity) := by
  rw [← Frame.states_eq_append_iff]
  obtain ⟨below, top⟩ := Frame.exists_states_eq_cons frames
  rw [top]
  constructor
  · rintro ⟨entry, listed, split, arity, rest⟩
    exact ⟨⟨_, entry, listed⟩, _, arity, split, rest⟩
  · rintro ⟨⟨number, entry, listed⟩, taken, arity, split, rest⟩
    exact .intro entry listed split arity rest

theorem Parser.reduces_states_iff {after : List Nat} :
    p.table.Reduces token (Frame.states frames) after ↔ ∃ production ∈ p.rules token frames,
      ∃ frames', p.reduct token frames production = .ok (.waiting, frames') ∧
        after = Frame.states frames' := by
  constructor
  · intro reduces
    generalize stack : Frame.states frames = states at reduces
    obtain @⟨rule, _, base, state, target, uncovers, goes, found⟩ := reduces
    rw [← stack, Parser.uncovers_states_iff] at uncovers
    obtain ⟨⟨number, entry, listed⟩, arity, split⟩ := uncovers
    obtain ⟨below, top⟩ := Frame.exists_states_eq_cons (frames.drop rule.arity)
    rw [top] at split
    cases split
    refine ⟨number, entry, _,
      Parser.reduct_waiting_iff.mpr ⟨rule, target, listed, arity, goes, found, rfl⟩, ?_⟩
    rw [Frame.states_cons, top]
  · rintro ⟨number, entry, frames', reduced, rfl⟩
    obtain ⟨rule, target, listed, arity, goes, found, rfl⟩ := Parser.reduct_waiting_iff.mp reduced
    obtain ⟨below, top⟩ := Frame.exists_states_eq_cons (frames.drop rule.arity)
    rw [Frame.states_cons, top]
    refine .intro (Parser.uncovers_states_iff.mpr ⟨⟨number, entry, listed⟩, arity, top.symm⟩) goes
      found

theorem Parser.ends_states_iff :
    p.table.Ends token (Frame.states frames) ↔ ∃ production ∈ p.rules token frames,
      ∃ frames', p.reduct token frames production = .ok (.accepted, frames') := by
  constructor
  · rintro ⟨rule, base, uncovers, start⟩
    rw [Parser.uncovers_states_iff] at uncovers
    obtain ⟨⟨number, entry, listed⟩, arity, -⟩ := uncovers
    exact ⟨number, entry, _, Parser.reduct_accepted_iff.mpr ⟨rule, listed, arity, start, rfl⟩⟩
  · rintro ⟨number, entry, frames', reduced⟩
    obtain ⟨rule, listed, arity, start, -⟩ := Parser.reduct_accepted_iff.mp reduced
    exact ⟨rule, _, Parser.uncovers_states_iff.mpr ⟨⟨number, entry, listed⟩, arity, rfl⟩, start⟩

end Frames

end GeneralizedLR
