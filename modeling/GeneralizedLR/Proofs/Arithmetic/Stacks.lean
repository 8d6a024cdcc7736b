import GeneralizedLR.Proofs.Arithmetic.Transitions

/-!
The stacks of arithmetic. Under every expression lies an operand state, so that each reduction finds
its values and knows where to go. A stack also tells how many tokens are missing before the input can
end: one for every open parenthesis, and one if an operand is expected.
-/

set_option autoImplicit false
set_option relaxedAutoImplicit false

namespace GeneralizedLR.Arithmetic

/-- A stack on which an operand is expected, and the number of parentheses that are open in it. -/
inductive Open : Nat → List Nat → Prop
  | root : Open 0 [0]
  | paren {count : Nat} {below : List Nat} : Open count below → Open (count + 1) (2 :: below)
  | operator {count state operator : Nat} {below : List Nat} : Open count (state :: below) →
      operator = 5 ∨ operator = 6 → Open count (operator :: behind state :: state :: below)

/-- A stack of the parser, and the number of tokens that are missing before the input can end. -/
inductive Viable : Nat → List Nat → Prop
  | operand {count : Nat} {stack : List Nat} : Open count stack → Viable (count + 1) stack
  | number {count : Nat} {below : List Nat} : Open count below → Viable count (1 :: below)
  | expression {count state : Nat} {below : List Nat} : Open count (state :: below) →
      Viable count (behind state :: state :: below)
  | paren {count : Nat} {below : List Nat} : Open count below →
      Viable count (7 :: 4 :: 2 :: below)

theorem Open.exists_top {count : Nat} {stack : List Nat} (opened : Open count stack) :
    ∃ state below, stack = state :: below ∧ state ∈ [0, 2, 5, 6] := by
  cases opened with
  | root => exact ⟨0, [], rfl, by simp⟩
  | @paren count below opened => exact ⟨2, below, rfl, by simp⟩
  | @operator count state operator below opened which =>
    exact ⟨operator, _, rfl, by rcases which with rfl | rfl <;> simp⟩

theorem Open.lt_length {count : Nat} {stack : List Nat} (opened : Open count stack) :
    count < stack.length := by
  induction opened with
  | root => simp
  | paren _ ih => simpa using ih
  | operator _ _ ih =>
    simp only [List.length_cons] at ih ⊢
    omega

theorem Viable.le_length {count : Nat} {stack : List Nat} (viable : Viable count stack) :
    count ≤ stack.length := by
  cases viable with
  | operand opened => exact opened.lt_length
  | number opened =>
    have bound := opened.lt_length
    simp only [List.length_cons]
    omega
  | expression opened =>
    have bound := opened.lt_length
    simp only [List.length_cons] at bound ⊢
    omega
  | paren opened =>
    have bound := opened.lt_length
    simp only [List.length_cons]
    omega

section Moves

variable {V : Type} {p : Parser Lexeme V} {g : Grouping}

private theorem exists_reduct (grouped : p.table = table g) {frames : List (Frame Lexeme V)}
    {number state : Nat} (taken : List Nat) {below : List Nat}
    (listed : (table g).production? number = some ⟨expression, taken.length, false⟩)
    (split : Frame.states frames = taken ++ state :: below) (operand : state ∈ [0, 2, 5, 6])
    (lookahead : Lexeme) :
    ∃ frames', p.reduct lookahead frames number = .ok (.waiting, frames') ∧
      Frame.states frames' = behind state :: state :: below ∧
        frames'.length + taken.length = frames.length + 1 := by
  obtain ⟨enough, base⟩ := Frame.states_eq_append_iff.mp ⟨taken, rfl, split, by simp⟩
  obtain ⟨below', top⟩ := Frame.exists_states_eq_cons (frames.drop taken.length)
  rw [top] at base
  cases base
  have count : (frames.take taken.length).length = taken.length := List.length_take_of_le enough
  have reduced := reduct_expression grouped lookahead (frames.take taken.length)
    (count.symm ▸ listed) operand rfl
  rw [List.take_append_drop] at reduced
  refine ⟨_, reduced, by rw [Frame.states_cons, top], ?_⟩
  simp only [List.length_cons, List.length_drop]
  omega

/-- A stack is lighter the fewer frames it has, and if no number is on top. -/
def weight (frames : List (Frame Lexeme V)) : Nat :=
  frames.length + if Frame.top frames = 1 then 1 else 0

private theorem Open.reduct (grouped : p.table = table g) {count state number : Nat}
    {below : List Nat} (opened : Open count (state :: below)) {frames : List (Frame Lexeme V)}
    (taken : List Nat) (listed : (table g).production? number = some ⟨expression, taken.length, false⟩)
    (split : Frame.states frames = taken ++ state :: below) (filled : taken ≠ [])
    (lighter : taken.length = 1 → Frame.top frames = 1) (lookahead : Lexeme) :
    ∃ frames', p.reduct lookahead frames number = .ok (.waiting, frames') ∧
      Viable count (Frame.states frames') ∧ weight frames' < weight frames ∧
        frames'.length ≤ frames.length := by
  obtain ⟨_, _, eq, operand⟩ := opened.exists_top
  cases eq
  obtain ⟨frames', reduced, states, length⟩ :=
    exists_reduct grouped taken listed split operand lookahead
  obtain ⟨_, top⟩ := Frame.exists_states_eq_cons frames'
  rw [states] at top
  have settled : Frame.top frames' ≠ 1 := by
    rw [← (List.cons.inj top).1]
    simp only [List.mem_cons, List.not_mem_nil, or_false] at operand
    rcases operand with rfl | rfl | rfl | rfl <;> decide
  have some := List.length_pos_iff.mpr filled
  refine ⟨frames', reduced, states ▸ .expression opened, ?_, by omega⟩
  unfold weight
  rw [if_neg settled]
  by_cases single : taken.length = 1
  · rw [if_pos (lighter single)]
    omega
  · omega

/-- A reduction keeps the number of missing tokens and makes the stack lighter, or it ends the parse
before the end of the input, when nothing is missing. -/
theorem Viable.reduct (grouped : p.table = table g) {count : Nat} {frames : List (Frame Lexeme V)}
    (viable : Viable count (Frame.states frames)) {c : Terminal} {number : Nat}
    (entry : number ∈ (table g).reduces (Frame.top frames) c.index) (lookahead : Lexeme) :
    (∃ frames', p.reduct lookahead frames number = .ok (.waiting, frames') ∧
      Viable count (Frame.states frames') ∧ weight frames' < weight frames ∧
        frames'.length ≤ frames.length) ∨
    ∃ v, p.reduct lookahead frames number = .ok (.accepted, [⟨0, .reduced v⟩]) ∧
      c = .endOfInput ∧ count = 0 := by
  obtain ⟨rest, head⟩ := Frame.exists_states_eq_cons frames
  obtain ⟨numbers, parens, products, sums, whole, inner⟩ := reduces_eq g c
  generalize stack : Frame.states frames = states at viable
  cases viable with
  | operand opened =>
    obtain ⟨state, below, rfl, operand⟩ := opened.exists_top
    rw [stack] at head
    rw [← (List.cons.inj head).1, reduces_operand g operand] at entry
    cases entry
  | @number count below opened =>
    obtain ⟨state, below, rfl, operand⟩ := opened.exists_top
    rw [stack] at head
    have top : Frame.top frames = 1 := (List.cons.inj head).1.symm
    rw [top] at entry
    obtain rfl := numbers number entry
    exact .inl (opened.reduct grouped [1] (production?_eq g 4) stack (by simp) (fun _ => top) lookahead)
  | @expression count state below opened =>
    rw [stack] at head
    have top : Frame.top frames = behind state := (List.cons.inj head).1.symm
    rw [top] at entry
    cases opened with
    | root =>
      obtain ⟨rfl, ends⟩ := whole number entry
      have length := congrArg List.length stack
      simp only [Frame.states, List.length_append, List.length_map, List.length_cons] at length
      obtain ⟨⟨state, content⟩, rfl⟩ := List.length_eq_one_iff.mp (by omega : frames.length = 1)
      cases stack
      exact .inr ⟨_, reduct_parsed grouped lookahead content, ends, rfl⟩
    | paren opened =>
      rw [show behind 2 = 4 from rfl, inner] at entry
      cases entry
    | operator opened which =>
      rcases which with rfl | rfl
      · obtain rfl := sums number entry
        exact .inl (opened.reduct grouped [8, 5, _] (production?_eq g 1) stack (by simp)
          (by simp) lookahead)
      · obtain rfl := products number entry
        exact .inl (opened.reduct grouped [9, 6, _] (production?_eq g 2) stack (by simp)
          (by simp) lookahead)
  | @paren count below opened =>
    obtain ⟨state, below, rfl, operand⟩ := opened.exists_top
    rw [stack] at head
    have top : Frame.top frames = 7 := (List.cons.inj head).1.symm
    rw [top] at entry
    obtain rfl := parens number entry
    exact .inl (opened.reduct grouped [7, 4, 2] (production?_eq g 3) stack (by simp) (by simp)
      lookahead)

/-- A token that is shifted leads to a stack of the parser; the end of the input is never shifted. -/
theorem Viable.shift {count : Nat} {frames : List (Frame Lexeme V)}
    (viable : Viable count (Frame.states frames)) {c : Terminal} {target : Nat}
    (entry : target ∈ (table g).shifts (Frame.top frames) c.index) :
    c ≠ .endOfInput ∧ ∃ count', Viable count' (target :: Frame.states frames) := by
  obtain ⟨rest, head⟩ := Frame.exists_states_eq_cons frames
  obtain ⟨numbers, parens, others⟩ := shifts_eq g c
  generalize stack : Frame.states frames = states at viable
  rw [stack] at head
  cases viable with
  | operand opened =>
    obtain ⟨state, below, rfl, operand⟩ := opened.exists_top
    rw [← (List.cons.inj head).1, shifts_operand g operand] at entry
    cases c with
    | number =>
      obtain rfl := List.mem_singleton.mp entry
      exact ⟨Terminal.noConfusion, _, .number opened⟩
    | leftParen =>
      obtain rfl := List.mem_singleton.mp entry
      exact ⟨Terminal.noConfusion, _, .operand (.paren opened)⟩
    | _ => cases entry
  | number opened =>
    rw [← (List.cons.inj head).1, numbers] at entry
    cases entry
  | @expression count state below opened =>
    rw [← (List.cons.inj head).1] at entry
    obtain ⟨_, _, eq, operand⟩ := opened.exists_top
    cases eq
    have known : behind state ∈ [3, 4, 8, 9] := by
      simp only [List.mem_cons, List.not_mem_nil, or_false] at operand
      rcases operand with rfl | rfl | rfl | rfl <;> decide
    rcases others _ known target entry with ⟨rfl, rfl⟩ | ⟨rfl, rfl⟩ | ⟨inner, rfl, rfl⟩
    · exact ⟨Terminal.noConfusion, _, .operand (.operator opened (.inl rfl))⟩
    · exact ⟨Terminal.noConfusion, _, .operand (.operator opened (.inr rfl))⟩
    · refine ⟨Terminal.noConfusion, ?_⟩
      cases opened with
      | root => cases inner
      | paren opened => exact ⟨_, .paren opened⟩
      | operator opened which => rcases which with rfl | rfl <;> cases inner
  | paren opened =>
    rw [← (List.cons.inj head).1, parens] at entry
    cases entry

/-- Before the end of the input, a stack that cannot be reduced shifts a token that is missing. -/
theorem Viable.exists_missing {count : Nat} {frames : List (Frame Lexeme V)}
    (viable : Viable count (Frame.states frames))
    (stuck : (table g).reduces (Frame.top frames) Terminal.endOfInput.index = []) :
    ∃ c target count', c ≠ Terminal.endOfInput ∧
      target ∈ (table g).shifts (Frame.top frames) c.index ∧ count = count' + 1 ∧
        Viable count' (target :: Frame.states frames) := by
  obtain ⟨rest, head⟩ := Frame.exists_states_eq_cons frames
  have reduced : ∀ state ∈ [1, 3, 7, 8, 9],
      (table g).reduces state Terminal.endOfInput.index ≠ [] := by
    cases g <;> decide
  generalize stack : Frame.states frames = states at viable
  rw [stack] at head
  cases viable with
  | @operand count stack opened =>
    obtain ⟨state, below, rfl, operand⟩ := opened.exists_top
    obtain rfl := (List.cons.inj head).1
    exact ⟨.number, 1, count, Terminal.noConfusion, by rw [shifts_operand g operand]; simp, rfl,
      .number opened⟩
  | number opened =>
    rw [← (List.cons.inj head).1] at stuck
    exact absurd stuck (reduced 1 (by simp))
  | expression opened =>
    rw [← (List.cons.inj head).1] at stuck ⊢
    cases opened with
    | root => exact absurd stuck (reduced 3 (by simp))
    | @paren count below opened =>
      have entry : 7 ∈ (table g).shifts 4 Terminal.rightParen.index := by
        cases g <;> decide
      exact ⟨.rightParen, 7, count, Terminal.noConfusion, entry, rfl, .paren opened⟩
    | operator opened which =>
      rcases which with rfl | rfl
      · exact absurd stuck (reduced 8 (by simp))
      · exact absurd stuck (reduced 9 (by simp))
  | paren opened =>
    rw [← (List.cons.inj head).1] at stuck
    exact absurd stuck (reduced 7 (by simp))

end Moves

end GeneralizedLR.Arithmetic
