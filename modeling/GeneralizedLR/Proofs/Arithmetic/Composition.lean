import GeneralizedLR.Proofs.Arithmetic.Stacks
import GeneralizedLR.Proofs.Engine.Run

/-!
What expressions are composed of. A branch reads the tokens that it has kept or inserted, and every
expression on its stack is composed of some of them as the grammar says. A result is composed of all
that its branch has read, and it has no value if a number among that is unknown.
-/

set_option autoImplicit false
set_option relaxedAutoImplicit false

namespace GeneralizedLR.Arithmetic

section Expressions

/-- The expression is put together from the tokens as the grammar says. -/
inductive Expr.ComposedOf : Expr → List Lexeme → Prop
  | number {token : Lexeme} : token.terminal = .number → Expr.ComposedOf (.ofNumber token) [token]
  | sum {left right : Expr} {tokens tokens' : List Lexeme} {operator : Lexeme} :
      left.ComposedOf tokens → operator.terminal = .plus → right.ComposedOf tokens' →
        Expr.ComposedOf (left.add right) (tokens ++ operator :: tokens')
  | product {left right : Expr} {tokens tokens' : List Lexeme} {operator : Lexeme} :
      left.ComposedOf tokens → operator.terminal = .star → right.ComposedOf tokens' →
        Expr.ComposedOf (left.mul right) (tokens ++ operator :: tokens')
  | group {inner : Expr} {tokens : List Lexeme} {opening closing : Lexeme} :
      opening.terminal = .leftParen → inner.ComposedOf tokens → closing.terminal = .rightParen →
        Expr.ComposedOf { inner with span := Span.mergeKnown opening.span closing.span }
          (opening :: (tokens ++ [closing]))

/-- What a production takes off a stack, lowest first, and the tokens that this is composed of. -/
inductive Rule.Takes : Rule → List (Content Lexeme Expr) → List Lexeme → Prop
  | start {expr : Expr} {tokens : List Lexeme} : expr.ComposedOf tokens →
      Rule.Takes .start [.reduced expr] tokens
  | add {left right : Expr} {tokens tokens' : List Lexeme} {operator : Lexeme} :
      left.ComposedOf tokens → operator.terminal = .plus → right.ComposedOf tokens' →
        Rule.Takes .add [.reduced left, .lexeme operator, .reduced right]
          (tokens ++ operator :: tokens')
  | mul {left right : Expr} {tokens tokens' : List Lexeme} {operator : Lexeme} :
      left.ComposedOf tokens → operator.terminal = .star → right.ComposedOf tokens' →
        Rule.Takes .mul [.reduced left, .lexeme operator, .reduced right]
          (tokens ++ operator :: tokens')
  | paren {inner : Expr} {tokens : List Lexeme} {opening closing : Lexeme} :
      opening.terminal = .leftParen → inner.ComposedOf tokens → closing.terminal = .rightParen →
        Rule.Takes .paren [.lexeme opening, .reduced inner, .lexeme closing]
          (opening :: (tokens ++ [closing]))
  | number {token : Lexeme} : token.terminal = .number → Rule.Takes .number [.lexeme token] [token]

section Takes

variable {rule : Rule} {values : List (Content Lexeme Expr)} {tokens : List Lexeme}

theorem Rule.Takes.exists_value (takes : rule.Takes values tokens) :
    ∃ expr, rule.value? values = some expr ∧ expr.ComposedOf tokens := by
  cases takes with
  | start composed => exact ⟨_, rfl, composed⟩
  | add left operator right => exact ⟨_, rfl, .sum left operator right⟩
  | mul left operator right => exact ⟨_, rfl, .product left operator right⟩
  | paren opening inner closing => exact ⟨_, rfl, .group opening inner closing⟩
  | number kind => exact ⟨_, rfl, .number kind⟩

theorem Rule.Takes.production? (takes : rule.Takes values tokens) (g : Grouping) :
    (table g).production? rule.index = some
      (if rule = .start then ⟨parsed, values.length, true⟩
      else ⟨expression, values.length, false⟩) := by
  rw [production?_eq]
  cases takes <;> rfl

theorem reducer_of_value? {expr : Expr} (acts : rule.value? values = some expr) (lookahead : Lexeme) :
    reducer rule.index values lookahead = expr := by
  simp [reducer, value?, Rule.ofIndex?_index, acts]

end Takes

/-- The expression has no value, and its text shows a question mark. -/
structure Expr.Unsettled (expr : Expr) : Prop where
  value : expr.value = none
  text : '?' ∈ expr.text.toList

theorem Expr.unsettled_unknown (span : Option Span) : (unknown span).Unsettled :=
  ⟨rfl, by simp [unknown]⟩

theorem Expr.unsettled_binary {symbol : String} {apply : Int64 → Int64 → Option Int64}
    {left right : Expr} (either : left.Unsettled ∨ right.Unsettled) :
    (binary symbol apply left right).Unsettled := by
  rcases either with ⟨value, text⟩ | ⟨value, text⟩
  · exact ⟨by simp [binary, value], by simp [binary, text]⟩
  · exact ⟨by simp [binary, value], by simp [binary, text]⟩

/-- A number token without a number leaves every expression around it unsettled. -/
theorem Expr.ComposedOf.unsettled {expr : Expr} {tokens : List Lexeme} (composed : expr.ComposedOf tokens)
    {token : Lexeme} (member : token ∈ tokens) (kind : token.terminal = .number)
    (unknown : ∀ value, token.payload ≠ .number value) : expr.Unsettled := by
  have other {token' : Lexeme} {terminal : Terminal} (kind' : token'.terminal = terminal)
      (differs : terminal ≠ .number) : token ≠ token' := by
    rintro rfl
    exact differs (kind'.symm.trans kind)
  induction composed with
  | number =>
    obtain rfl := List.mem_singleton.mp member
    have known : ofNumber token = .unknown token.span := by
      unfold ofNumber
      split
      · next value payload => exact absurd payload (unknown value)
      · rfl
    exact known ▸ unsettled_unknown token.span
  | sum _ operator _ left right =>
    rcases List.mem_append.mp member with member | member
    · exact unsettled_binary (.inl (left member))
    · exact unsettled_binary
        (.inr (right ((List.mem_cons.mp member).resolve_left (other operator Terminal.noConfusion))))
  | product _ operator _ left right =>
    rcases List.mem_append.mp member with member | member
    · exact unsettled_binary (.inl (left member))
    · exact unsettled_binary
        (.inr (right ((List.mem_cons.mp member).resolve_left (other operator Terminal.noConfusion))))
  | group opening _ closing ih =>
    have member := (List.mem_cons.mp member).resolve_left (other opening Terminal.noConfusion)
    rcases List.mem_append.mp member with member | member
    · exact { ih member with }
    · exact absurd (List.mem_singleton.mp member) (other closing Terminal.noConfusion)

end Expressions

section Stacks

/-- A stack on which an operand is expected, and the tokens that were read to it. -/
inductive Expecting : List Lexeme → List (Frame Lexeme Expr) → Prop
  | root : Expecting [] []
  | paren {read : List Lexeme} {frames : List (Frame Lexeme Expr)} {opening : Lexeme} :
      Expecting read frames → opening.terminal = .leftParen →
        Expecting (read ++ [opening]) (⟨2, .lexeme opening⟩ :: frames)
  | operator {read tokens : List Lexeme} {frames : List (Frame Lexeme Expr)} {operand : Expr}
      {operator : Lexeme} {state : Nat} : Expecting read frames → operand.ComposedOf tokens →
        (operator.terminal, state) ∈ [(.plus, 5), (.star, 6)] →
          Expecting (read ++ tokens ++ [operator])
            (⟨state, .lexeme operator⟩ :: ⟨behind (Frame.top frames), .reduced operand⟩ :: frames)

inductive Carries : List Lexeme → List (Frame Lexeme Expr) → Prop
  | operand {read : List Lexeme} {frames : List (Frame Lexeme Expr)} :
      Expecting read frames → Carries read frames
  | number {read : List Lexeme} {frames : List (Frame Lexeme Expr)} {token : Lexeme} :
      Expecting read frames → token.terminal = .number →
        Carries (read ++ [token]) (⟨1, .lexeme token⟩ :: frames)
  | expression {read tokens : List Lexeme} {frames : List (Frame Lexeme Expr)} {expr : Expr} :
      Expecting read frames → expr.ComposedOf tokens →
        Carries (read ++ tokens) (⟨behind (Frame.top frames), .reduced expr⟩ :: frames)
  | paren {read tokens : List Lexeme} {frames : List (Frame Lexeme Expr)} {inner : Expr}
      {opening closing : Lexeme} : Expecting read frames → opening.terminal = .leftParen →
        inner.ComposedOf tokens → closing.terminal = .rightParen →
          Carries (read ++ opening :: (tokens ++ [closing]))
            (⟨7, .lexeme closing⟩ :: ⟨4, .reduced inner⟩ :: ⟨2, .lexeme opening⟩ :: frames)

variable {g : Grouping} {codes : ErrorCodes} {read : List Lexeme} {frames : List (Frame Lexeme Expr)}

theorem Expecting.top (expecting : Expecting read frames) : Frame.top frames ∈ [0, 2, 5, 6] := by
  cases expecting with
  | root => simp [Frame.top]
  | paren => simp [Frame.top]
  | operator _ _ which =>
    simp only [List.mem_cons, List.not_mem_nil, or_false, Prod.mk.injEq] at which
    rcases which with ⟨-, rfl⟩ | ⟨-, rfl⟩ <;> simp [Frame.top]

theorem Carries.shift (carries : Carries read frames) {token : Lexeme} {target : Nat}
    (entry : target ∈ (table g).shifts (Frame.top frames) token.terminal.index) :
    Carries (read ++ [token]) (⟨target, .lexeme token⟩ :: frames) := by
  obtain ⟨numbers, parens, others⟩ := shifts_eq g token.terminal
  cases carries with
  | operand expecting =>
    rw [shifts_operand g expecting.top] at entry
    cases kind : token.terminal with
    | number =>
      rw [kind] at entry
      obtain rfl := List.mem_singleton.mp entry
      exact .number expecting kind
    | leftParen =>
      rw [kind] at entry
      obtain rfl := List.mem_singleton.mp entry
      exact .operand (.paren expecting kind)
    | _ =>
      rw [kind] at entry
      cases entry
  | number =>
    rw [Frame.top, numbers] at entry
    cases entry
  | @expression read tokens frames expr expecting composed =>
    have known : behind (Frame.top frames) ∈ [3, 4, 8, 9] := by
      have operand := expecting.top
      simp only [List.mem_cons, List.not_mem_nil, or_false] at operand
      rcases operand with top | top | top | top <;> rw [top] <;> decide
    rcases others _ known target entry with ⟨rfl, kind⟩ | ⟨rfl, kind⟩ | ⟨inner, rfl, kind⟩
    · exact .operand (.operator expecting composed (by simp [kind]))
    · exact .operand (.operator expecting composed (by simp [kind]))
    · cases expecting with
      | root => cases inner
      | @paren read frames opening expecting opens =>
        have spelled : read ++ [opening] ++ tokens ++ [token] = read ++ opening :: (tokens ++ [token]) := by
          simp
        exact spelled ▸ .paren expecting opens composed kind
      | operator _ _ which =>
        simp only [List.mem_cons, List.not_mem_nil, or_false, Prod.mk.injEq] at which
        rcases which with ⟨-, rfl⟩ | ⟨-, rfl⟩ <;> cases inner
  | paren =>
    rw [Frame.top, parens] at entry
    cases entry

/-- A production that the table names takes what stands on top of the stack; below that an operand is
expected, and a start production takes all that there is. -/
theorem Carries.takes (carries : Carries read frames) {c : Terminal} {number : Nat}
    (entry : number ∈ (table g).reduces (Frame.top frames) c.index) :
    ∃ (rule : Rule) (taken below : List (Frame Lexeme Expr)) (before tokens : List Lexeme),
      number = rule.index ∧ frames = taken ++ below ∧ read = before ++ tokens ∧
        Expecting before below ∧ rule.Takes (taken.reverse.map (·.content)) tokens ∧
          (rule = .start → below = [] ∧ c = .endOfInput) := by
  obtain ⟨numbers, parens, products, sums, whole, inner⟩ := reduces_eq g c
  cases carries with
  | operand expecting =>
    rw [reduces_operand g expecting.top] at entry
    cases entry
  | @number read frames token expecting kind =>
    exact ⟨.number, [⟨1, .lexeme token⟩], frames, read, [token], numbers number entry, rfl, rfl,
      expecting, .number kind, Rule.noConfusion⟩
  | @expression read tokens frames expr expecting composed =>
    cases expecting with
    | root =>
      obtain ⟨rfl, ends⟩ := whole number entry
      exact ⟨.start, [⟨3, .reduced expr⟩], [], [], tokens, rfl, rfl, rfl, .root, .start composed,
        fun _ => ⟨rfl, ends⟩⟩
    | paren =>
      rw [Frame.top, show behind (Frame.top (⟨2, _⟩ :: _)) = 4 from rfl, inner] at entry
      cases entry
    | @operator read tokens' frames operand operator state expecting first which =>
      have spelled : read ++ tokens' ++ [operator] ++ tokens = read ++ (tokens' ++ operator :: tokens) := by
        simp
      simp only [List.mem_cons, List.not_mem_nil, or_false, Prod.mk.injEq] at which
      rcases which with ⟨kind, rfl⟩ | ⟨kind, rfl⟩
      · exact ⟨.add, [⟨8, .reduced expr⟩, ⟨5, .lexeme operator⟩,
          ⟨behind (Frame.top frames), .reduced operand⟩], frames, read, _, sums number entry, rfl,
          spelled, expecting, .add first kind composed, Rule.noConfusion⟩
      · exact ⟨.mul, [⟨9, .reduced expr⟩, ⟨6, .lexeme operator⟩,
          ⟨behind (Frame.top frames), .reduced operand⟩], frames, read, _, products number entry, rfl,
          spelled, expecting, .mul first kind composed, Rule.noConfusion⟩
  | @paren read tokens frames inner opening closing expecting opens composed closes =>
    exact ⟨.paren, [⟨7, .lexeme closing⟩, ⟨4, .reduced inner⟩, ⟨2, .lexeme opening⟩], frames, read, _,
      parens number entry, rfl, rfl, expecting, .paren opens composed closes, Rule.noConfusion⟩

/-- A reduction composes an expression of what it takes off the stack, or it ends the parse with one that
is composed of all that was read. -/
theorem Carries.reduct (carries : Carries read frames) {c : Terminal} {number : Nat}
    (entry : number ∈ (table g).reduces (Frame.top frames) c.index) (lookahead : Lexeme) :
    (∃ frames', (parser g codes).reduct lookahead frames number = .ok (.waiting, frames') ∧
      Carries read frames') ∨
    ∃ expr, (parser g codes).reduct lookahead frames number = .ok (.accepted, [⟨0, .reduced expr⟩]) ∧
      expr.ComposedOf read ∧ c = .endOfInput := by
  obtain ⟨rule, taken, below, before, tokens, rfl, rfl, rfl, expecting, takes, whole⟩ :=
    carries.takes entry
  obtain ⟨expr, acts, composed⟩ := takes.exists_value
  have yields := reducer_of_value? acts lookahead
  have listed := takes.production? g
  rw [List.length_map, List.length_reverse] at listed
  by_cases start : rule = .start
  · obtain ⟨rfl, ends⟩ := whole start
    cases expecting
    rw [if_pos start] at listed
    refine .inr ⟨expr, Parser.reduct_accepted_iff.mpr ⟨_, listed, by simp, rfl, ?_⟩, composed, ends⟩
    rw [List.append_nil, List.take_length, List.drop_length]
    exact yields ▸ rfl
  · rw [if_neg start] at listed
    have reduced := reduct_expression (p := parser g codes) rfl lookahead taken listed expecting.top yields
    exact .inl ⟨_, reduced, .expression expecting composed⟩

end Stacks

section Runs

variable {g : Grouping} {codes : ErrorCodes} {past : List Lexeme}

theorem terminal_correction (token : Lexeme) (c : Terminal) (description : String) :
    (Token.correction token c.index description : Lexeme).terminal = c := by
  change (Terminal.ofIndex? c.index).getD .endOfInput = c
  rw [Terminal.ofIndex?_index]
  rfl

def Lexeme.StemsFrom (token : Lexeme) (past : List Lexeme) : Prop :=
  token ∈ past ∨ ∃ description, token.payload = .missing description

theorem Lexeme.StemsFrom.append {token : Lexeme} (stems : token.StemsFrom past) (more : List Lexeme) :
    token.StemsFrom (past ++ more) :=
  stems.imp_left (List.mem_append_left more)

/-- The stack carries what its branch has read, and without repairs that is the given tokens. -/
def Composed (past : List Lexeme) (b : Branch Lexeme Expr) : Prop :=
  ∃ read, Carries read b.frames ∧ (∀ token ∈ read, token.StemsFrom past) ∧ (b.errors = [] → read = past)

/-- At the end of the input the branch has come to an expression of all that it has read. -/
def Resulting (past : List Lexeme) (b : Branch Lexeme Expr) : Prop :=
  ∃ before token future expr read, past = before ++ token :: future ∧ token.terminal = .endOfInput ∧
    b.frames = [⟨0, .reduced expr⟩] ∧ expr.ComposedOf read ∧
      (∀ token ∈ read, token.StemsFrom before) ∧ (b.errors = [] → read = before)

theorem Resulting.append {b : Branch Lexeme Expr} (resulting : Resulting past b) (token : Lexeme) :
    Resulting (past ++ [token]) b := by
  obtain ⟨before, token', future, expr, read, rfl, rest⟩ := resulting
  exact ⟨before, token', future ++ [token], expr, read, by simp, rest⟩

private theorem Carries.reduce {read : List Lexeme} {frames frames' : List (Frame Lexeme Expr)}
    (carries : Carries read frames) {c : Terminal} {number : Nat} {lookahead : Lexeme}
    (entry : number ∈ (table g).reduces (Frame.top frames) c.index)
    (reduced : (parser g codes).reduct lookahead frames number = .ok (.waiting, frames')) :
    Carries read frames' := by
  rcases carries.reduct entry lookahead with ⟨_, reduced', carried⟩ | ⟨_, reduced', -⟩
  · rw [reduced'] at reduced
    cases reduced
    exact carried
  · rw [reduced'] at reduced
    cases reduced

theorem contract_composed (g : Grouping) (codes : ErrorCodes) (past : List Lexeme)
    (token : Lexeme) :
    Branching.Contract (parser g codes) token (Composed past) (fun _ => Composed past) (Composed past)
      (Composed (past ++ [token])) (Resulting (past ++ [token])) where
  shift := by
    rintro b serial ⟨read, carries, stems, kept⟩ target entry
    rw [targets_eq (g := g) rfl] at entry
    have member : token ∈ past ++ [token] := by simp
    exact ⟨read ++ [token], carries.shift entry, List.forall_mem_append.mpr
      ⟨fun other listed => (stems other listed).append [token], by simpa using .inl member⟩,
      fun clean => by rw [kept clean]⟩
  reduce := by
    rintro b serial frames ⟨read, carries, rest⟩ production entry reduced
    rw [rules_eq (g := g) rfl] at entry
    exact ⟨read, carries.reduce entry reduced, rest⟩
  accept := by
    rintro b serial frames ⟨read, carries, rest⟩ production entry reduced
    rw [rules_eq (g := g) rfl] at entry
    rcases carries.reduct entry token with ⟨_, reduced', -⟩ | ⟨expr, reduced', composed, ends⟩
    · rw [reduced'] at reduced
      cases reduced
    · rw [reduced'] at reduced
      cases reduced
      exact ⟨past, token, [], expr, read, rfl, ends, rfl, composed, rest⟩
  delete := by
    rintro b serial ⟨read, carries, stems, -⟩ -
    exact ⟨read, carries, fun other listed => (stems other listed).append [token],
      fun clean => by simp [Branch.repaired] at clean⟩
  queue _ composed _ _ := composed
  prepare := by
    rintro terminal inside b serial frames ⟨read, carries, rest⟩ production entry reduced
    obtain ⟨c, -, rfl⟩ := (mem_insertable_iff g).mp inside
    exact ⟨read, carries.reduce entry reduced, rest⟩
  insert := by
    rintro terminal inside b serial ⟨read, carries, stems, -⟩ target entry
    obtain ⟨c, -, rfl⟩ := (mem_insertable_iff g).mp inside
    refine ⟨_, carries.shift (g := g) ?_, List.forall_mem_append.mpr
      ⟨stems, by simpa using .inr ⟨_, rfl⟩⟩, fun clean => by simp [Branch.repaired] at clean⟩
    rw [terminal_correction]
    exact entry

/-- Every stack is composed of the tokens that its branch has read, and so is every result. -/
theorem composed_of_reached {s : Branching Lexeme Expr}
    (reached : Branching.Reached (parser g codes) past s) :
    (∀ b ∈ s.live, Composed past b) ∧ ∀ b ∈ s.accepted, Resulting past b := by
  exact reached.invariant Composed Resulting ⟨[], .operand .root, by simp, fun _ => rfl⟩
    (fun _ _ _ composed => composed) (contract_composed g codes)
    fun _ token _ resulting => resulting.append token

theorem Resulting.composedOf {tokens : List Lexeme} {last : Lexeme} {b : Branch Lexeme Expr}
    (resulting : Resulting (tokens ++ [last]) b) (goes : ∀ token ∈ tokens, token.terminal ≠ .endOfInput)
    (clean : b.errors = []) : ∃ expr, b.frames = [⟨0, .reduced expr⟩] ∧ expr.ComposedOf tokens := by
  obtain ⟨before, token, future, expr, read, split, ends, frames, composed, -, kept⟩ := resulting
  refine ⟨expr, frames, ?_⟩
  obtain rfl := kept clean
  rcases List.append_eq_append_iff.mp split with ⟨more, rfl, rest⟩ | ⟨more, rfl, rest⟩
  · cases more with
    | nil => simpa using composed
    | cons => simp at rest
  · cases more with
    | nil => simpa using composed
    | cons other more =>
      obtain ⟨rfl, -⟩ := List.cons.inj rest
      exact absurd ends (goes token (by simp))

end Runs

end GeneralizedLR.Arithmetic
