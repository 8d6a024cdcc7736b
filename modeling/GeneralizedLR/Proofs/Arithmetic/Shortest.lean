import GeneralizedLR.Proofs.Arithmetic.Transitions
import GeneralizedLR.Proofs.Engine.Front

/-!
The shortest stacks of arithmetic without precedence. A stack that is reduced before every operator has
at most one operator in each pair of parentheses. All other stacks after the same tokens have the same
parentheses open and at least one operator where it has one, so that they are longer.

An operand is expected at the root 0, behind an open parenthesis 2 and behind the operators 5 and 6.
The states behind them are 3, 4, 8 and 9; 1 is a number and 7 a closed parenthesis.
-/

set_option autoImplicit false
set_option relaxedAutoImplicit false

namespace GeneralizedLR.Arithmetic

open Relation (ReflTransGen)

section Reductions

variable {g : Grouping} {token : Lexeme} {stack stack' : List Nat}

/-- The length of a stack; a number on top counts as three states, so that every reduction shortens a
stack by two. -/
def extent (stack : List Nat) : Nat :=
  stack.length + if stack.head? = some 1 then 2 else 0

theorem behind_mem {state : Nat} (operand : state ∈ [0, 2, 5, 6]) : behind state ∈ [3, 4, 8, 9] := by
  simp only [List.mem_cons, List.not_mem_nil, or_false] at operand
  rcases operand with rfl | rfl | rfl | rfl <;> decide

theorem behind_ne_one {state : Nat} (operand : state ∈ [0, 2, 5, 6]) : behind state ≠ 1 := by
  intro single
  have member := behind_mem operand
  rw [single] at member
  simp at member

theorem not_operator_of_outside {state : Nat} (outside : state ∈ [0, 2]) : state ∉ [5, 6] := by
  simp only [List.mem_cons, List.not_mem_nil, or_false] at outside
  rcases outside with rfl | rfl <;> decide

theorem not_closes_behind {state : Nat} (outside : state ∈ [0, 2]) : behind state ∉ [7, 8, 9] := by
  simp only [List.mem_cons, List.not_mem_nil, or_false] at outside
  rcases outside with rfl | rfl <;> decide

theorem classify_eq (channel : Option Nat) (token : Lexeme) :
    Token.classify channel token = token.terminal.index := by
  cases channel <;> rfl

theorem Terminal.index_inj {c c' : Terminal} (same : c.index = c'.index) : c = c' := by
  have back := congrArg Terminal.ofIndex? same
  rw [Terminal.ofIndex?_index, Terminal.ofIndex?_index] at back
  exact Option.some.inj back

theorem reduceEntries_eq (g : Grouping) : ∀ entry ∈ (table g).reduceEntries,
    (entry.state, entry.target) ∈ [(1, 4), (7, 3), (8, 1), (9, 2), (3, 0)] ∧
      entry.symbol ∈ lookaheads.map Terminal.index := by
  cases g <;> decide

theorem goto?_eq_some {g : Grouping} {state target : Nat}
    (found : (table g).goto? state expression = some target) :
    state ∈ [0, 2, 5, 6] ∧ target = behind state := by
  have entries : ∀ entry ∈ (table g).gotoEntries,
      entry.state ∈ [0, 2, 5, 6] ∧ entry.target = behind entry.state := by
    cases g <;> decide
  unfold Table.goto? at found
  obtain ⟨entry, first, rfl⟩ := Option.map_eq_some_iff.mp found
  have there := List.find?_some first
  simp only [Transition.isAt, Bool.and_eq_true, beq_iff_eq] at there
  obtain ⟨rfl, -⟩ := there
  exact entries entry (List.mem_of_find?_eq_some first)

private theorem operation {number top state target : Nat} {rule : Production}
    {below base taken : List Nat} (three : emptyTable.production? number = some ⟨expression, 3, false⟩)
    (listed : emptyTable.production? number = some rule)
    (split : top :: below = taken ++ state :: base) (arity : taken.length = rule.arity)
    (found : (table g).goto? state rule.nonterminal = some target) (which : top ∈ [7, 8, 9]) :
    ∃ state' below', state' ∈ [0, 2, 5, 6] ∧
      target :: state :: base = behind state' :: state' :: below' ∧
        (top :: below = 1 :: state' :: below' ∨ ∃ top' inner lowest, top' ∈ [7, 8, 9] ∧
          top :: below = top' :: inner :: lowest :: state' :: below') := by
  rw [three] at listed
  cases listed
  obtain ⟨first, inner, lowest, rfl⟩ := List.length_eq_three.mp arity
  obtain ⟨operand, rfl⟩ := goto?_eq_some found
  cases split
  exact ⟨state, base, operand, rfl, .inr ⟨top, inner, lowest, which, rfl⟩⟩

/-- A reduction replaces a number, a group or an operation by an expression, and the token stands behind
expressions. -/
theorem reduces_cases (reduces : (table g).Reduces token stack stack') :
    token.terminal ∈ lookaheads ∧ ∃ state below, state ∈ [0, 2, 5, 6] ∧
      stack' = behind state :: state :: below ∧ (stack = 1 :: state :: below ∨
        ∃ top inner lowest, top ∈ [7, 8, 9] ∧ stack = top :: inner :: lowest :: state :: below) := by
  obtain @⟨rule, _, base, state, target, uncovers, goes, found⟩ := reduces
  obtain @⟨top, number, below, taken, _, entry, listed, split, arity, -⟩ := uncovers
  rw [classify_eq, Table.reduces, Transition.mem_targets_iff] at entry
  rw [production?_eq] at listed
  obtain ⟨which, symbol⟩ := reduceEntries_eq g _ entry
  refine ⟨?_, ?_⟩
  · obtain ⟨c, member, same⟩ := List.mem_map.mp symbol
    exact Terminal.index_inj same ▸ member
  · simp only [List.mem_cons, List.not_mem_nil, or_false, Prod.mk.injEq] at which
    rcases which with ⟨rfl, rfl⟩ | ⟨rfl, rfl⟩ | ⟨rfl, rfl⟩ | ⟨rfl, rfl⟩ | ⟨rfl, rfl⟩
    · cases listed
      obtain ⟨only, rfl⟩ := List.length_eq_one_iff.mp arity
      obtain ⟨operand, rfl⟩ := goto?_eq_some found
      cases split
      exact ⟨state, base, operand, rfl, .inl rfl⟩
    · exact operation rfl listed split arity found (by simp)
    · exact operation rfl listed split arity found (by simp)
    · exact operation rfl listed split arity found (by simp)
    · cases listed
      cases goes

theorem paced (token : Lexeme) : (table g).Paced token extent 2 where
  positive := by decide
  reduces := by
    intro stack stack' reduces
    obtain ⟨-, state, below, operand, rfl, shape⟩ := reduces_cases reduces
    have settled := behind_ne_one operand
    rcases shape with rfl | ⟨top, inner, lowest, which, rfl⟩
    · simp [extent, settled]
    · have other : top ≠ 1 := by
        rintro rfl
        simp at which
      simp [extent, settled, other]

theorem eq_of_reduces_primary {primary : List Nat} (which : primary ∈ [[1], [7, 4, 2]])
    {state : Nat} {below : List Nat}
    (reduces : (table g).Reduces token (primary ++ state :: below) stack') :
    stack' = behind state :: state :: below := by
  obtain ⟨-, state', below', -, rfl, shape⟩ := reduces_cases reduces
  simp only [List.mem_cons, List.not_mem_nil, or_false] at which
  rcases which with rfl | rfl
  · rcases shape with same | ⟨top, inner, lowest, top_mem, same⟩
    · cases same
      rfl
    · cases same
      simp at top_mem
  · rcases shape with same | ⟨top, inner, lowest, top_mem, same⟩
    · cases same
    · cases same
      rfl

theorem not_reduces_operand {state : Nat} (operand : state ∈ [0, 2, 5, 6]) (below : List Nat) :
    ¬ (table g).Reduces token (state :: below) stack' := by
  intro reduces
  obtain ⟨-, _, _, -, -, shape⟩ := reduces_cases reduces
  rcases shape with same | ⟨top, _, _, which, same⟩
  · rw [(List.cons.inj same).1] at operand
    simp at operand
  · rw [(List.cons.inj same).1] at operand
    revert which operand
    simp only [List.mem_cons, List.not_mem_nil, or_false]
    omega

theorem not_reduces_outside {state : Nat} (outside : state ∈ [0, 2]) (below : List Nat) :
    ¬ (table g).Reduces token (behind state :: below) stack' := by
  intro reduces
  obtain ⟨-, _, _, -, -, shape⟩ := reduces_cases reduces
  have operand : state ∈ [0, 2, 5, 6] := List.mem_append_left [5, 6] outside
  rcases shape with same | ⟨top, _, _, which, same⟩
  · exact behind_ne_one operand (List.cons.inj same).1
  · rw [← (List.cons.inj same).1] at which
    exact not_closes_behind outside which

theorem eq_of_reduces_operation {operator part state : Nat} {below : List Nat}
    (operand : operator ∈ [0, 2, 5, 6])
    (reduces : (table g).Reduces token (behind operator :: operator :: part :: state :: below) stack') :
    stack' = behind state :: state :: below := by
  obtain ⟨-, _, _, -, rfl, shape⟩ := reduces_cases reduces
  rcases shape with same | ⟨_, _, _, -, same⟩
  · exact absurd (List.cons.inj same).1 (behind_ne_one operand)
  · cases same
    rfl

theorem reduces_operation (follows : token.terminal ∈ lookaheads) {operator part state : Nat}
    (which : operator ∈ [5, 6]) (operand : state ∈ [0, 2, 5, 6]) (below : List Nat) :
    (table .ambiguous).Reduces token (behind operator :: operator :: part :: state :: below)
      (behind state :: state :: below) := by
  have uncovers {top number : Nat}
      (entry : (table .ambiguous).reduces top token.terminal.index = [number])
      (listed : (table .ambiguous).production? number = some ⟨expression, 3, false⟩) :
      (table .ambiguous).Uncovers token ⟨expression, 3, false⟩
        (top :: operator :: part :: state :: below) (state :: below) := by
    have member : number ∈ (table .ambiguous).reduces top token.terminal.index := by simp [entry]
    exact .intro ((classify_eq _ token).symm ▸ member) listed
      (show _ = [top, operator, part] ++ _ from rfl) rfl (List.cons_ne_nil state below)
  obtain ⟨-, -, products, sums⟩ := reduces_lookahead (g := .ambiguous) follows
  have goes := goto?_operand .ambiguous operand
  simp only [List.mem_cons, List.not_mem_nil, or_false] at which
  rcases which with rfl | rfl
  · exact .intro (uncovers (sums (.inl rfl)) rfl) rfl goes
  · exact .intro (uncovers products rfl) rfl goes

def entered : Terminal → Nat
  | .number => 1
  | .leftParen => 2
  | .plus => 5
  | .star => 6
  | .rightParen => 7
  | .endOfInput => 0

theorem eq_of_shifts (shifts : (table g).Shifts token stack stack') :
    stack' = entered token.terminal :: stack := by
  have entries : ∀ c, ∀ entry ∈ (table g).shiftEntries, entry.symbol = c.index →
      entry.target = entered c := by
    intro c
    cases g <;> cases c <;> decide
  obtain ⟨listed⟩ := shifts
  rw [classify_eq, Table.shifts, Transition.mem_targets_iff] at listed
  rw [← entries token.terminal _ listed rfl]

theorem terminal_of_shifts_operand {state : Nat} (operand : state ∈ [0, 2, 5, 6]) {below : List Nat}
    (shifts : (table g).Shifts token (state :: below) stack') :
    token.terminal = .number ∨ token.terminal = .leftParen := by
  obtain ⟨entry⟩ := shifts
  rw [classify_eq, shifts_operand g operand] at entry
  cases kind : token.terminal with
  | number => exact .inl rfl
  | leftParen => exact .inr rfl
  | _ =>
    rw [kind] at entry
    cases entry

theorem not_shifts_primary {primary : List Nat} (which : primary ∈ [[1], [7, 4, 2]])
    (below : List Nat) : ¬ (table g).Shifts token (primary ++ below) stack' := by
  obtain ⟨single, closed, -⟩ := shifts_eq g token.terminal
  intro shifts
  simp only [List.mem_cons, List.not_mem_nil, or_false] at which
  rcases which with rfl | rfl
  · obtain ⟨entry⟩ := shifts
    rw [classify_eq, single] at entry
    cases entry
  · obtain ⟨entry⟩ := shifts
    rw [classify_eq, closed] at entry
    cases entry

/-- Behind an expression operators are shifted, and closing parentheses if one is open. -/
theorem terminal_of_shifts_expression {state : Nat} (operand : state ∈ [0, 2, 5, 6])
    {below : List Nat} (shifts : (table g).Shifts token (behind state :: below) stack') :
    entered token.terminal ∈ [5, 6] ∨ token.terminal = .rightParen ∧ state = 2 := by
  obtain ⟨-, -, others⟩ := shifts_eq g token.terminal
  obtain @⟨_, target, _, entry⟩ := shifts
  rw [classify_eq] at entry
  rcases others _ (behind_mem operand) target entry with ⟨-, kind⟩ | ⟨-, kind⟩ | ⟨inside, -, kind⟩
  · exact .inl (by simp [kind, entered])
  · exact .inl (by simp [kind, entered])
  · refine .inr ⟨kind, ?_⟩
    revert inside
    simp only [List.mem_cons, List.not_mem_nil, or_false] at operand
    rcases operand with rfl | rfl | rfl | rfl <;> decide

end Reductions

section Stretches

/-- Two stacks after the same tokens, on which an operand is expected. The first one has at most one
operator behind each parenthesis that is open, and the second one as many of them as were not reduced. -/
inductive Stretches : List Nat → List Nat → Prop
  | root : Stretches [0] [0]
  | paren {lead stack : List Nat} : Stretches lead stack → Stretches (2 :: lead) (2 :: stack)
  | first {state operator : Nat} {lead stack : List Nat} : state ∈ [0, 2] → operator ∈ [5, 6] →
      Stretches (state :: lead) (state :: stack) →
        Stretches (operator :: behind state :: state :: lead)
          (operator :: behind state :: state :: stack)
  | again {before operator : Nat} {lead stack : List Nat} : before ∈ [5, 6] → operator ∈ [5, 6] →
      Stretches (before :: lead) (before :: stack) →
        Stretches (operator :: lead) (operator :: behind before :: before :: stack)

/-- Two stacks after the same tokens: an operand is expected, or they have the same one on top. -/
inductive Beside : List Nat → List Nat → Prop
  | awaiting {lead stack : List Nat} : Stretches lead stack → Beside lead stack
  | primary {primary lead stack : List Nat} : primary ∈ [[1], [7, 4, 2]] → Stretches lead stack →
      Beside (primary ++ lead) (primary ++ stack)

/-- Behind the state there is no operator in the first stack, or just one. -/
def Rests (state : Nat) (lead stack : List Nat) : Prop :=
  Stretches (state :: lead) stack ∨
    ∃ operator ∈ [5, 6], Stretches (operator :: behind state :: state :: lead) stack

namespace Stretches

variable {lead stack : List Nat}

theorem exists_top (stretches : Stretches lead stack) : ∃ state lead' stack',
    lead = state :: lead' ∧ stack = state :: stack' ∧ state ∈ [0, 2, 5, 6] := by
  cases stretches with
  | root => exact ⟨0, [], [], rfl, rfl, by simp⟩
  | paren => exact ⟨2, _, _, rfl, rfl, by simp⟩
  | first _ which => exact ⟨_, _, _, rfl, rfl, List.mem_append_right [0, 2] which⟩
  | again _ which => exact ⟨_, _, _, rfl, rfl, List.mem_append_right [0, 2] which⟩

theorem top_eq {state top : Nat} (stretches : Stretches (state :: lead) (top :: stack)) :
    top = state ∧ state ∈ [0, 2, 5, 6] := by
  obtain ⟨_, _, _, same, same', operand⟩ := stretches.exists_top
  cases same
  cases same'
  exact ⟨rfl, operand⟩

theorem shorter (stretches : Stretches lead stack) : stack = lead ∨ lead.length < stack.length := by
  induction stretches with
  | root => exact .inl rfl
  | paren _ ih =>
    rcases ih with rfl | less
    · exact .inl rfl
    · exact .inr (Nat.succ_lt_succ less)
  | first _ _ _ ih =>
    rcases ih with same | less
    · cases same
      exact .inl rfl
    · refine .inr ?_
      simp only [List.length_cons] at less ⊢
      omega
  | again _ _ _ ih =>
    refine .inr ?_
    rcases ih with same | less
    · cases same
      simp
    · simp only [List.length_cons] at less ⊢
      omega

theorem exists_base (stretches : Stretches lead stack) :
    ∃ state base, state ∈ [0, 2] ∧ (lead = state :: base ∨
      ∃ operator ∈ [5, 6], lead = operator :: behind state :: state :: base) := by
  induction stretches with
  | root => exact ⟨0, [], by simp, .inl rfl⟩
  | paren _ => exact ⟨2, _, by simp, .inl rfl⟩
  | first outside which _ => exact ⟨_, _, outside, .inr ⟨_, which, rfl⟩⟩
  | @again before operator lead stack earlier which _ ih =>
    obtain ⟨state, base, outside, same | ⟨operator', -, same⟩⟩ := ih
    · obtain rfl := (List.cons.inj same).1
      exact absurd earlier (not_operator_of_outside outside)
    · cases same
      exact ⟨state, base, outside, .inr ⟨operator, which, rfl⟩⟩

end Stretches

namespace Rests

variable {state : Nat} {base : List Nat}

theorem operand {top : Nat} {below : List Nat} (rests : Rests state base (top :: below)) :
    top ∈ [0, 2, 5, 6] := by
  rcases rests with stretches | ⟨operator, -, stretches⟩
  · obtain ⟨rfl, operand⟩ := stretches.top_eq
    exact operand
  · obtain ⟨rfl, operand⟩ := stretches.top_eq
    exact operand

/-- Reducing the last operation leaves one of the operators before it, or none. -/
theorem reduces {token : Lexeme} {top : Nat} {below stack' : List Nat} (outside : state ∈ [0, 2])
    (rests : Rests state base (top :: below))
    (reduces : (table .ambiguous).Reduces token (behind top :: top :: below) stack') :
    ∃ top' below', stack' = behind top' :: top' :: below' ∧ Rests state base (top' :: below') := by
  rcases rests with stretches | ⟨operator, which, stretches⟩
  · obtain ⟨rfl, -⟩ := stretches.top_eq
    exact absurd reduces (not_reduces_outside outside _)
  · obtain ⟨rfl, operand⟩ := stretches.top_eq
    generalize same : _ :: behind state :: state :: base = lead at stretches
    cases stretches with
    | root => simp at which
    | paren => simp at which
    | first _ _ stretches =>
      simp only [List.cons.injEq] at same
      obtain ⟨-, -, rfl, rfl⟩ := same
      exact ⟨_, _, eq_of_reduces_operation operand reduces, .inl stretches⟩
    | again earlier _ stretches =>
      cases same
      exact ⟨_, _, eq_of_reduces_operation operand reduces, .inr ⟨_, earlier, stretches⟩⟩

/-- An operator is the first one behind the state, or it comes behind another one. -/
theorem operator {top operator : Nat} {below : List Nat} (outside : state ∈ [0, 2])
    (which : operator ∈ [5, 6]) (rests : Rests state base (top :: below)) :
    Stretches (operator :: behind state :: state :: base) (operator :: behind top :: top :: below) := by
  rcases rests with stretches | ⟨before, earlier, stretches⟩
  · obtain ⟨rfl, -⟩ := stretches.top_eq
    exact .first outside which stretches
  · obtain ⟨rfl, -⟩ := stretches.top_eq
    exact .again earlier which stretches

theorem paren {below : List Nat} (rests : Rests 2 base (2 :: below)) : Stretches base below := by
  rcases rests with stretches | ⟨operator, which, stretches⟩
  · cases stretches with
    | paren stretches => exact stretches
    | first _ which => simp at which
    | again _ which => simp at which
  · obtain ⟨rfl, -⟩ := stretches.top_eq
    simp at which

end Rests

variable {token : Lexeme} {lead stack ready : List Nat}

theorem Stretches.rests (stretches : Stretches lead stack) :
    ∃ state base, state ∈ [0, 2] ∧ Rests state base stack ∧ (lead = state :: base ∨
      ∃ operator ∈ [5, 6], lead = operator :: behind state :: state :: base) := by
  obtain ⟨state, base, outside, shape⟩ := stretches.exists_base
  refine ⟨state, base, outside, ?_, shape⟩
  rcases shape with rfl | ⟨operator, which, rfl⟩
  · exact .inl stretches
  · exact .inr ⟨operator, which, stretches⟩

theorem Rests.of_reductions {state top : Nat} {base below : List Nat} (outside : state ∈ [0, 2])
    (rests : Rests state base (top :: below))
    (chain : ReflTransGen ((table .ambiguous).Reduces token) (behind top :: top :: below) ready) :
    ∃ top' below', ready = behind top' :: top' :: below' ∧ Rests state base (top' :: below') := by
  induction chain with
  | refl => exact ⟨top, below, rfl, rests⟩
  | tail _ reduces ih =>
    obtain ⟨top', below', rfl, rests'⟩ := ih
    exact rests'.reduces outside reduces

theorem Beside.shorter (beside : Beside lead stack) : stack = lead ∨ extent lead < extent stack := by
  cases beside with
  | awaiting stretches =>
    obtain ⟨state, _, _, rfl, rfl, -⟩ := stretches.exists_top
    rcases stretches.shorter with same | less
    · exact .inl same
    · exact .inr (Nat.add_lt_add_right less _)
  | @primary primary lead stack which stretches =>
    rcases stretches.shorter with rfl | less
    · exact .inl rfl
    · simp only [List.mem_cons, List.not_mem_nil, or_false] at which
      rcases which with rfl | rfl
      · exact .inr (Nat.add_lt_add_right (Nat.add_lt_add_right less 1) _)
      · exact .inr (Nat.add_lt_add_right (Nat.add_lt_add_right less 3) _)

theorem Stretches.exists_ready (stretches : Stretches lead stack) {primary after : List Nat}
    (which : primary ∈ [[1], [7, 4, 2]])
    (chain : ReflTransGen ((table .ambiguous).Reduces token) (primary ++ lead) ready)
    (still : ∀ next, ¬ (table .ambiguous).Reduces token ready next)
    (shifts : (table .ambiguous).Shifts token ready after) :
    ∃ state base, state ∈ [0, 2] ∧ Rests state base stack ∧
      ready = behind state :: state :: base := by
  obtain ⟨state, base, outside, rests, shape⟩ := stretches.rests
  refine ⟨state, base, outside, rests, ?_⟩
  have settled : ∀ next, ¬ (table .ambiguous).Reduces token (behind state :: state :: base) next :=
    fun _ => not_reduces_outside outside (state :: base)
  rcases chain.cases_head with rfl | ⟨next, reduces, chain⟩
  · exact absurd shifts (not_shifts_primary which _)
  have follows := (reduces_cases reduces).1
  rcases shape with rfl | ⟨operator, isOperator, rfl⟩
  · obtain rfl := eq_of_reduces_primary which reduces
    exact (Relation.reflTransGen_iff_eq settled).mp chain
  · obtain rfl := eq_of_reduces_primary which reduces
    rcases chain.cases_head with rfl | ⟨next, reduces, chain⟩
    · exact absurd (reduces_operation follows isOperator (List.mem_append_left [5, 6] outside) base)
        (still _)
    · obtain rfl := eq_of_reduces_operation (List.mem_append_right [0, 2] isOperator) reduces
      exact (Relation.reflTransGen_iff_eq settled).mp chain

/-- A token takes two stacks side by side to two stacks side by side, if the first one is reduced as far
as it can be: then an operator that it shifts is its only one behind a parenthesis. -/
theorem Beside.shift {after ready' after' : List Nat} (beside : Beside lead stack)
    (chain : ReflTransGen ((table .ambiguous).Reduces token) lead ready)
    (still : ∀ next, ¬ (table .ambiguous).Reduces token ready next)
    (shifts : (table .ambiguous).Shifts token ready after)
    (chain' : ReflTransGen ((table .ambiguous).Reduces token) stack ready')
    (shifts' : (table .ambiguous).Shifts token ready' after') : Beside after after' := by
  obtain rfl := eq_of_shifts shifts
  obtain rfl := eq_of_shifts shifts'
  cases beside with
  | awaiting stretches =>
    obtain ⟨state, lead', stack', rfl, rfl, operand⟩ := stretches.exists_top
    obtain rfl := (Relation.reflTransGen_iff_eq fun _ => not_reduces_operand operand lead').mp chain
    obtain rfl := (Relation.reflTransGen_iff_eq fun _ => not_reduces_operand operand stack').mp chain'
    rcases terminal_of_shifts_operand operand shifts with kind | kind
    · rw [kind]
      have number : [1] ∈ [[1], [7, 4, 2]] := by simp
      exact .primary number stretches
    · rw [kind]
      exact .awaiting (.paren stretches)
  | @primary primary lead stack which stretches =>
    obtain ⟨state, base, outside, rests, rfl⟩ := stretches.exists_ready which chain still shifts
    have whole : ∃ top below, ready' = behind top :: top :: below ∧ Rests state base (top :: below) := by
      obtain ⟨top, _, below, -, rfl, -⟩ := stretches.exists_top
      rcases chain'.cases_head with rfl | ⟨next, reduces, chain'⟩
      · exact absurd shifts' (not_shifts_primary which _)
      · obtain rfl := eq_of_reduces_primary which reduces
        exact rests.of_reductions outside chain'
    obtain ⟨top, below, rfl, rests⟩ := whole
    rcases terminal_of_shifts_expression (List.mem_append_left [5, 6] outside) shifts with
      operator | ⟨kind, rfl⟩
    · exact .awaiting (rests.operator outside operator)
    · obtain ⟨-, rfl⟩ := (terminal_of_shifts_expression rests.operand shifts').resolve_left
        (by simp [kind, entered])
      rw [kind]
      have group : [7, 4, 2] ∈ [[1], [7, 4, 2]] := by simp
      exact .primary group rests.paren

/-- Before every token the shortest stack is the one that is reduced as far as it can be. -/
theorem outruns : (table .ambiguous).Outruns (K := Lexeme) extent 2 Beside where
  paced := paced
  shorter _ _ beside := beside.shorter
  shift _ _ _ _ _ _ _ beside chain still shifts chain' shifts' :=
    beside.shift chain still shifts chain' shifts'

end Stretches

end GeneralizedLR.Arithmetic
