import GeneralizedLR.Proofs.Engine.Reductions
import Mathlib.Data.List.DropRight

/-!
One reduction of a head. It succeeds exactly if the table has the production, the stack is deep enough
and the table says where the production leads from the state that it uncovers; then one node is pushed
and no other stack sees it. Otherwise the first thing that is missing is reported and nothing changes.
-/

set_option autoImplicit false
set_option relaxedAutoImplicit false

namespace GeneralizedLR

variable {K V : Type}

/-- A start production stays in the state that it uncovers; the goto of that state leads any other
one on. -/
def Table.Lands (t : Table) (rule : Production) (state target : Nat) : Prop :=
  if rule.isStart then target = state else t.goto? state rule.nonterminal = some target

theorem Table.landing_cases (t : Table) (rule : Production) (state : Nat) :
    (∃ target, t.Lands rule state target ∧ t.landing rule state = .ok target) ∨
      rule.isStart = false ∧ t.goto? state rule.nonterminal = none ∧
        t.landing rule state = .error (.missingGoto state rule.nonterminal) := by
  unfold Table.Lands Table.landing
  cases start : rule.isStart with
  | true => exact .inl ⟨state, by simp⟩
  | false =>
    cases leads : t.goto? state rule.nonterminal with
    | none => exact .inr (by simp)
    | some target => exact .inl ⟨target, by simp⟩

theorem Table.Lands.leads {t : Table} {rule : Production} {state target : Nat}
    (lands : t.Lands rule state target) :
    rule.isStart = true ∨ (t.goto? state rule.nonterminal).isSome := by
  unfold Table.Lands at lands
  split at lands
  · next start => exact .inl start
  · exact .inr (Option.isSome_of_eq_some lands)

/-- The state on top of a stack once its `count` topmost nodes are gone. -/
def Arena.uncovered (a : Arena K V) (top : NodeId) (count : Nat) : Nat :=
  ((a.path top).rdrop count).getLastD 0

namespace Frame

theorem path_cons (frame : Frame K V) (below : List (Frame K V)) :
    path (frame :: below) = path below ++ [frame.state] := by
  simp [path]

theorem path_drop {frames : List (Frame K V)} {count : Nat} (enough : count ≤ frames.length) :
    path (frames.drop count) = (path frames).rdrop count := by
  induction count generalizing frames with
  | zero => simp
  | succ count ih =>
    cases frames with
    | nil => cases enough
    | cons frame below =>
      rw [List.drop_succ_cons, path_cons, List.rdrop_concat_succ, ih (Nat.le_of_succ_le_succ enough)]

theorem getLastD_path (frames : List (Frame K V)) : (path frames).getLastD 0 = top frames := by
  cases frames with
  | nil => rfl
  | cons frame below =>
    rw [path_cons, List.getLastD_concat]
    rfl

end Frame

namespace Arena.Holds

variable {a : Arena K V} {id : NodeId} {frames : List (Frame K V)} {count : Nat}

theorem uncovered (held : a.Holds id frames) (enough : count ≤ frames.length) :
    a.uncovered id count = Frame.top (frames.drop count) := by
  rw [Arena.uncovered, held.path, ← Frame.path_drop enough, Frame.getLastD_path]

theorem rtake_contents (held : a.Holds id frames) (count : Nat) :
    (a.contents id).rtake count = (frames.take count).reverse.map (·.content) := by
  rw [held.contents, List.rtake_eq_reverse_take_reverse, List.map_reverse, List.reverse_reverse,
    List.map_reverse, List.map_take]

end Arena.Holds

namespace Head

variable {a : Arena K V} {h : Head} {frames : List (Frame K V)} {t : Table} {reducer : Reducer K V}
  {production : Nat} {lookahead : K}

/-- What keeps the head `h` from reducing `production`: of several things the first one. -/
inductive Blocked (a : Arena K V) (h : Head) (t : Table) (production : Nat) : Fault → Prop
  | unknown : t.production? production = none →
      Blocked a h t production (.unknownProduction production)
  | shallow {rule : Production} {top : Node K V} : t.production? production = some rule →
      a.node? h.top = some top → top.depth < rule.arity →
        Blocked a h t production (.stackUnderflow rule.arity)
  | stuck {rule : Production} {top : Node K V} : t.production? production = some rule →
      a.node? h.top = some top → rule.arity ≤ top.depth → rule.isStart = false →
        t.goto? (a.uncovered h.top rule.arity) rule.nonterminal = none →
          Blocked a h t production
            (.missingGoto (a.uncovered h.top rule.arity) rule.nonterminal)

/-- A head whose stack has these frames is blocked, or it reduces to a node that the arena has. -/
theorem reduction_cases (held : a.Holds h.top frames) (t : Table) (reducer : Reducer K V)
    (production : Nat) (lookahead : K) :
    (∃ cause, h.Blocked a t production cause ∧
      h.reduction a t reducer production lookahead = .error cause) ∨
    ∃ rule state base, t.production? production = some rule ∧ rule.arity ≤ frames.length ∧
      t.Lands rule (a.uncovered h.top rule.arity) state ∧
      a.Holds base (frames.drop rule.arity) ∧
      h.reduction a t reducer production lookahead =
        .ok ⟨reducer production ((a.contents h.top).rtake rule.arity) lookahead, base, state,
          rule.isStart⟩ := by
  obtain ⟨top, filled, -, depth⟩ := held.node?
  unfold reduction
  -- What can be missing is looked for in turn: the production, its values, the goto.
  cases known : t.production? production with
  | none => exact .inl ⟨_, .unknown known, rfl⟩
  | some rule =>
    by_cases short : frames.length < rule.arity
    · simp only [held.pop_eq_error short]
      exact .inl ⟨_, .shallow known filled (depth ▸ short), rfl⟩
    · have enough : rule.arity ≤ frames.length := Nat.le_of_not_lt short
      obtain ⟨base, uncovers, popped⟩ := held.pop_eq_ok enough
      simp only [popped, uncovers.state, bind, Except.bind, ← held.uncovered enough]
      rcases t.landing_cases rule (a.uncovered h.top rule.arity) with
        ⟨state, lands, landing⟩ | ⟨inner, missing, landing⟩
      · refine .inr ⟨rule, state, base, rfl, enough, lands, uncovers, ?_⟩
        rw [landing, held.rtake_contents]
        rfl
      · rw [landing]
        exact .inl ⟨_, .stuck known filled (depth ▸ enough) inner missing, rfl⟩

end Head

section Arises

variable [Token K] {p : Parser K V}

/-- The arenas of an engine: those between two calls, those at which a call comes to a reduction, and
what becomes of them when heads shift and reduce. -/
inductive Arena.Arises (p : Parser K V) : Arena K V → Prop
  | idle {past : List K} {e : Engine K V} : Engine.Reached p past e → Arises p e.arena
  | within {past : List K} {e x : Engine K V} {token : K} {h : Head} {production : Nat} :
      Engine.Reached p past e → e.Reduces p token h production x → Arises p x.arena
  | shift {a : Arena K V} {h : Head} {top : Node K V} (token : K) (target : Nat) :
      Arises p a → a.node? h.top = some top → Arises p (h.shift a token target).2
  | reduce {a b : Arena K V} {h h' : Head} {top : Node K V} {production : Nat} {lookahead : K} :
      Arises p a → a.node? h.top = some top →
        h.reduce a p.table p.reducer production lookahead = .ok (h', b) → Arises p b

theorem Arena.Arises.sound {a : Arena K V} (arises : a.Arises p) : a.Sound := by
  induction arises with
  | idle reached =>
    obtain ⟨s, -, shows⟩ := reached.shows
    exact shows.sound
  | within reached reduces =>
    obtain ⟨s, found, shows⟩ := reached.shows
    exact (shows.reduces (p.contract_reduced _) found.idle (fun _ _ => trivial) found.reduced
      reduces).1
  | shift token target _ live sound =>
    obtain ⟨frames, held⟩ := sound.exists_holds live
    exact held.sound_push sound target (.lexeme token)
  | @reduce a b h h' top production lookahead _ live reduces sound =>
    obtain ⟨frames, held⟩ := sound.exists_holds live
    unfold Head.reduce at reduces
    rcases h.reduction_cases held p.table p.reducer production lookahead with
      ⟨cause, -, failed⟩ | ⟨rule, state, base, -, -, -, uncovers, made⟩
    · rw [failed] at reduces
      cases reduces
    · rw [made] at reduces
      cases reduces
      exact uncovers.sound_push sound state _

variable {a : Arena K V} {h : Head} {top : Node K V}

end Arises

end GeneralizedLR
