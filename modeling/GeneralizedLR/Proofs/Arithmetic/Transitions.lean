import GeneralizedLR.Arithmetic.Evaluate
import GeneralizedLR.Proofs.Automaton

/-!
The table of arithmetic at work: what each state shifts and reduces, and what a stack becomes by it.
An operand state expects an operand, and the others stand behind a number, a closed parenthesis or an
expression.
-/

set_option autoImplicit false
set_option relaxedAutoImplicit false

namespace GeneralizedLR.Arithmetic

section Table

/-- The state behind an operand. -/
def behind (state : Nat) : Nat := (operandStates.lookup state).getD 0

theorem shifts_operand (g : Grouping) {state : Nat} (operand : state ∈ [0, 2, 5, 6])
    (c : Terminal) : (table g).shifts state c.index =
      match c with
      | .number => [1]
      | .leftParen => [2]
      | _ => [] := by
  simp only [List.mem_cons, List.not_mem_nil, or_false] at operand
  rcases operand with rfl | rfl | rfl | rfl <;> cases g <;> cases c <;> rfl

theorem reduces_operand (g : Grouping) {state : Nat} (operand : state ∈ [0, 2, 5, 6])
    (c : Terminal) : (table g).reduces state c.index = [] := by
  simp only [List.mem_cons, List.not_mem_nil, or_false] at operand
  rcases operand with rfl | rfl | rfl | rfl <;> cases g <;> cases c <;> rfl

theorem goto?_operand (g : Grouping) {state : Nat} (operand : state ∈ [0, 2, 5, 6]) :
    (table g).goto? state expression = some (behind state) := by
  simp only [List.mem_cons, List.not_mem_nil, or_false] at operand
  rcases operand with rfl | rfl | rfl | rfl <;> cases g <;> rfl

theorem production?_eq (g : Grouping) (number : Nat) :
    (table g).production? number = emptyTable.production? number := by
  cases g <;> rfl

theorem reduces_eq (g : Grouping) (c : Terminal) :
    (∀ n ∈ (table g).reduces 1 c.index, n = 4) ∧ (∀ n ∈ (table g).reduces 7 c.index, n = 3) ∧
      (∀ n ∈ (table g).reduces 9 c.index, n = 2) ∧ (∀ n ∈ (table g).reduces 8 c.index, n = 1) ∧
        (∀ n ∈ (table g).reduces 3 c.index, n = 0 ∧ c = .endOfInput) ∧
          (table g).reduces 4 c.index = [] := by
  cases g <;> cases c <;> decide

/-- What a state shifts behind an expression, and that nothing is shifted on a number or a closed
parenthesis. -/
theorem shifts_eq (g : Grouping) (c : Terminal) :
    (table g).shifts 1 c.index = [] ∧ (table g).shifts 7 c.index = [] ∧
      ∀ state ∈ [3, 4, 8, 9], ∀ target ∈ (table g).shifts state c.index,
        target = 5 ∧ c = .plus ∨ target = 6 ∧ c = .star ∨
          state = 4 ∧ target = 7 ∧ c = .rightParen := by
  cases g <;> cases c <;> decide

theorem mem_insertable_iff (g : Grouping) {terminal : Nat} :
    terminal ∈ (table g).insertable ↔ ∃ c : Terminal, c ≠ .endOfInput ∧ terminal = c.index := by
  have listed : (table g).insertable = [0, 1, 2, 3, 4] := by cases g <;> rfl
  rw [listed]
  constructor
  · intro member
    simp only [List.mem_cons, List.not_mem_nil, or_false] at member
    rcases member with rfl | rfl | rfl | rfl | rfl
    · exact ⟨.number, Terminal.noConfusion, rfl⟩
    · exact ⟨.plus, Terminal.noConfusion, rfl⟩
    · exact ⟨.star, Terminal.noConfusion, rfl⟩
    · exact ⟨.leftParen, Terminal.noConfusion, rfl⟩
    · exact ⟨.rightParen, Terminal.noConfusion, rfl⟩
  · rintro ⟨c, goes, rfl⟩
    cases c <;> first | decide | exact absurd rfl goes

theorem isEnd_eq_true_iff {token : Lexeme} : Token.isEnd token = true ↔ token.terminal = .endOfInput :=
  decide_eq_true_iff

/-- A token that is behind an expression ends it, but with precedence a product goes on behind a sum. -/
theorem reduces_lookahead {g : Grouping} {c : Terminal} (follows : c ∈ lookaheads) :
    (table g).reduces 1 c.index = [Rule.number.index] ∧
      (table g).reduces 7 c.index = [Rule.paren.index] ∧
        (table g).reduces 9 c.index = [Rule.mul.index] ∧
          (g = .ambiguous ∨ c ≠ .star → (table g).reduces 8 c.index = [Rule.add.index]) := by
  revert c
  unfold lookaheads
  simp only [List.mem_cons, List.not_mem_nil, or_false]
  rintro c (rfl | rfl | rfl | rfl) <;> cases g <;> decide

theorem shifts_operator (g : Grouping) : ∀ state ∈ [0, 2],
    ((table g).shifts (behind state) Terminal.plus.index = [5] ∧
      (table g).reduces (behind state) Terminal.plus.index = []) ∧
    (table g).shifts (behind state) Terminal.star.index = [6] ∧
      (table g).reduces (behind state) Terminal.star.index = [] := by
  cases g <;> decide

end Table

section Moves

variable {V : Type} {p : Parser Lexeme V} {g : Grouping} {token : Lexeme}
  {frames : List (Frame Lexeme V)}

theorem targets_eq (grouped : p.table = table g) (token : Lexeme) (frames : List (Frame Lexeme V)) :
    p.targets token frames = (table g).shifts (Frame.top frames) token.terminal.index := by
  unfold Parser.targets
  rw [grouped]
  cases (table g).shiftChannel? (Frame.top frames) <;> rfl

theorem rules_eq (grouped : p.table = table g) (token : Lexeme) (frames : List (Frame Lexeme V)) :
    p.rules token frames = (table g).reduces (Frame.top frames) token.terminal.index := by
  unfold Parser.rules
  rw [grouped]
  cases (table g).reduceChannel? (Frame.top frames) <;> rfl

theorem movesOn_reduce (grouped : p.table = table g) {number : Nat} {move : Move Lexeme V}
    (shifts : (table g).shifts (Frame.top frames) token.terminal.index = [])
    (reduces : (table g).reduces (Frame.top frames) token.terminal.index = [number])
    (reduced : p.reduct token frames number = .ok move) : p.movesOn token frames = .ok [move] :=
  Parser.movesOn_of_rules ((targets_eq grouped token frames).trans shifts)
    ((rules_eq grouped token frames).trans reduces) reduced

theorem reduct_expression (grouped : p.table = table g) (lookahead : Lexeme)
    (taken : List (Frame Lexeme V)) {stack : List (Frame Lexeme V)} {number : Nat} {v : V}
    (listed : (table g).production? number = some ⟨expression, taken.length, false⟩)
    (operand : Frame.top stack ∈ [0, 2, 5, 6])
    (yields : p.reducer number (taken.reverse.map (·.content)) lookahead = v) :
    p.reduct lookahead (taken ++ stack) number =
      .ok (.waiting, ⟨behind (Frame.top stack), .reduced v⟩ :: stack) := by
  have base : (taken ++ stack).drop taken.length = stack := List.drop_left ..
  have values : (taken ++ stack).take taken.length = taken := List.take_left ..
  refine Parser.reduct_waiting_iff.mpr ⟨_, behind (Frame.top stack), grouped ▸ listed,
    by simp, rfl, ?_, ?_⟩
  · rw [grouped, base]
    exact goto?_operand g operand
  · rw [base, values, yields]

theorem reduct_parsed (grouped : p.table = table g) (lookahead : Lexeme)
    (content : Content Lexeme V) :
    p.reduct lookahead [⟨3, content⟩] Rule.start.index =
      .ok (.accepted, [⟨0, .reduced (p.reducer Rule.start.index [content] lookahead)⟩]) :=
  Parser.reduct_accepted_iff.mpr
    ⟨_, grouped ▸ production?_eq g Rule.start.index, Nat.le_refl _, rfl, rfl⟩

end Moves

end GeneralizedLR.Arithmetic
