import GeneralizedLR.Combinator
import GeneralizedLR.Proofs.Choice
import GeneralizedLR.Word

/-!
What a parser put together from alternatives does. Without its choices a parser is a list of lines:
sequences of expected tokens with a value for the tokens that are found. To run the parser is to
follow each line from the same cursor to the end of what comes behind it, and to keep the winner. So
the first line that fits the tokens ahead gives the value, and if no line fits, the first line
gives the error.
-/

set_option autoImplicit false
set_option relaxedAutoImplicit false

namespace GeneralizedLR

/-- A parser without a choice: the tokens that it expects, one behind the other, and its value for
them. The value may depend on the tokens, what is expected may not. -/
inductive Line (K : Type) : Type → Type 1 where
  | done {A : Type} (value : A) : Line K A
  | expect {A : Type} (terminal : Nat) (description : String) (next : Line K (K → A)) : Line K A

namespace Line

universe u

variable {K A B R : Type}

def map {A B : Type} (f : A → B) : Line K A → Line K B
  | .done value => .done (f value)
  | .expect terminal description next =>
    .expect terminal description (next.map fun value token => f (value token))

def both {A B : Type} : Line K A → Line K B → Line K (A × B)
  | .done value, second => second.map fun b => (value, b)
  | .expect terminal description next, second =>
    .expect terminal description ((next.both second).map fun (value, b) token => (value token, b))

def steps {A : Type} : Line K A → List (Nat × String)
  | .done _ => []
  | .expect terminal description next => (terminal, description) :: next.steps

def terminals (line : Line K A) : List Nat := line.steps.map Prod.fst

def value {A : Type} : Line K A → List K → Option A
  | .done value, [] => some value
  | .expect _ _ next, token :: tokens => (next.value tokens).map fun value => value token
  | _, _ => none

theorem steps_map {A B : Type} (f : A → B) (line : Line K A) : (line.map f).steps = line.steps := by
  induction line generalizing B with
  | done value => rfl
  | expect terminal description next ih => simp only [map, steps, ih]

theorem steps_both {A B : Type} (first : Line K A) (second : Line K B) :
    (first.both second).steps = first.steps ++ second.steps := by
  induction first with
  | done value => simp only [both, steps_map, steps, List.nil_append]
  | expect terminal description next ih => simp only [both, steps, steps_map, ih, List.cons_append]

theorem value_map {A B : Type} (f : A → B) (line : Line K A) (tokens : List K) :
    (line.map f).value tokens = (line.value tokens).map f := by
  induction line generalizing B tokens with
  | done value => cases tokens <;> rfl
  | expect terminal description next ih =>
    cases tokens with
    | nil => rfl
    | cons token tokens => simp [map, value, ih, Function.comp_def]

theorem value_both {A B : Type} (first : Line K A) (second : Line K B) (tokens rest : List K)
    (enough : tokens.length = first.steps.length) :
    (first.both second).value (tokens ++ rest) =
      (first.value tokens).bind fun a => (second.value rest).map fun b => (a, b) := by
  induction first generalizing tokens with
  | done value =>
    obtain rfl : tokens = [] := by simpa [steps] using enough
    rw [both, List.nil_append, value_map]
    rfl
  | expect terminal description next ih =>
    obtain _ | ⟨token, tokens⟩ := tokens
    · simp [steps] at enough
    · have shorter : tokens.length = next.steps.length := by simpa [steps] using enough
      simp only [both, value, List.cons_append, value_map, ih tokens shorter]
      cases next.value tokens <;> cases second.value rest <;> rfl

section

variable [Token K]

def Fits (line : Line K A) (tokens : List K) : Prop :=
  line.terminals <+: tokens.map Token.terminal

def follow {A : Type} : Line K A → Cursor K → (A → Cursor K → Outcome K R) → Outcome K R
  | .done value, cursor, future => future value cursor
  | .expect terminal description next, cursor, future =>
    match cursor.peek with
    | some token =>
      if Token.terminal token = terminal then
        next.follow cursor.advance fun value cursor => future (value token) cursor
      else Combinator.mismatch description cursor
    | none => Combinator.mismatch description cursor

theorem follow_map {A B : Type} (f : A → B) (line : Line K A) (cursor : Cursor K)
    (future : B → Cursor K → Outcome K R) :
    (line.map f).follow cursor future = line.follow cursor fun value => future (f value) := by
  induction line generalizing B cursor with
  | done value => rfl
  | expect terminal description next ih => simp only [map, follow, ih]

theorem follow_both {A B : Type} (first : Line K A) (second : Line K B) (cursor : Cursor K)
    (future : A × B → Cursor K → Outcome K R) :
    (first.both second).follow cursor future =
      first.follow cursor fun a cursor => second.follow cursor fun b => future (a, b) := by
  induction first generalizing cursor with
  | done value => rw [both, follow_map]; rfl
  | expect terminal description next ih => simp only [both, follow, follow_map, ih]

theorem wins_follow {A : Type} {B : Type u} {members : List B} (occupied : members ≠ [])
    (line : Line K A) (cursor : Cursor K) {future : A → Cursor K → Outcome K R}
    {each : B → A → Cursor K → Outcome K R}
    (wins : ∀ value cursor,
      Outcome.Wins (members.map fun b => each b value cursor) (future value cursor)) :
    Outcome.Wins (members.map fun b => line.follow cursor (each b)) (line.follow cursor future) := by
  induction line generalizing cursor with
  | done value => exact wins value cursor
  | expect terminal description next ih =>
    simp only [follow]
    cases cursor.peek with
    | none => exact Outcome.wins_map_const _ occupied
    | some token =>
      by_cases found : Token.terminal token = terminal
      · simp only [found, if_true]
        exact ih cursor.advance fun value => wins (value token)
      · simp only [found, if_false]
        exact Outcome.wins_map_const _ occupied

theorem follow_of_fits {A : Type} (line : Line K A) (cursor : Cursor K)
    (future : A → Cursor K → Outcome K R) (fits : line.Fits cursor.rest) :
    ∃ value, line.value (cursor.rest.take line.steps.length) = some value ∧
      line.follow cursor future = future value (cursor.advanceBy line.steps.length) := by
  induction line generalizing cursor with
  | done value =>
    exact ⟨value, by simp [Line.value, steps], by simp [follow, steps, Cursor.advanceBy_zero]⟩
  | expect terminal description next ih =>
    obtain ⟨position, rest⟩ := cursor
    cases rest with
    | nil => simp [Fits, terminals, steps] at fits
    | cons token rest =>
      simp only [Fits, terminals, steps, List.map_cons, List.cons_prefix_cons] at fits
      obtain ⟨value, value_eq, follow_eq⟩ :=
        ih ⟨position + 1, rest⟩ (fun value => future (value token)) fits.2
      refine ⟨value token, ?_, ?_⟩
      · simp only at value_eq
        simp [Line.value, steps, value_eq]
      · simp [follow, Cursor.peek, Cursor.advance, fits.1, follow_eq, steps, Cursor.advanceBy_succ]

theorem follow_of_not_fits {A : Type} (line : Line K A) (cursor : Cursor K)
    (future : A → Cursor K → Outcome K R) (unfit : ¬ line.Fits cursor.rest) :
    ∃ found terminal description missed, line.steps = found ++ (terminal, description) :: missed ∧
      found.map Prod.fst <+: cursor.rest.map Token.terminal ∧
      (cursor.rest[found.length]?).map Token.terminal ≠ some terminal ∧
      line.follow cursor future =
        Combinator.mismatch description (cursor.advanceBy found.length) := by
  induction line generalizing cursor with
  | done value => simp [Fits, terminals, steps] at unfit
  | expect terminal description next ih =>
    obtain ⟨position, rest⟩ := cursor
    cases rest with
    | nil =>
      exact ⟨[], terminal, description, next.steps, rfl, by simp, by simp,
        by simp [follow, Cursor.peek, Cursor.advanceBy_zero]⟩
    | cons token rest =>
      by_cases here : Token.terminal token = terminal
      · simp only [Fits, terminals, steps, List.map_cons, List.cons_prefix_cons, here, true_and]
          at unfit
        obtain ⟨found, missing, text, missed, split, before, absent, follow_eq⟩ :=
          ih ⟨position + 1, rest⟩ (fun value => future (value token)) unfit
        refine ⟨(terminal, description) :: found, missing, text, missed, by simp [steps, split], ?_,
          by simpa using absent, ?_⟩
        · simpa [here] using before
        · simp [follow, Cursor.peek, Cursor.advance, here, follow_eq, Cursor.advanceBy_succ]
      · exact ⟨[], terminal, description, next.steps, rfl, by simp, by simpa using here,
          by simp [follow, Cursor.peek, here, Cursor.advanceBy_zero]⟩

end

end Line

namespace Combinator

variable {K A R : Type}

/-- The lines of a parser in the order of its text. In a sequence each line of the first part comes
with all lines of the second. -/
def lines {A : Type} : Combinator K A → List (Line K A)
  | .expect terminal description => [.expect terminal description (.done id)]
  | .both first second => first.lines.flatMap fun line => second.lines.map line.both
  | .map f parser => parser.lines.map (Line.map f)
  | .either first second => first.lines ++ second.lines

theorem lines_ne_nil {A : Type} (parser : Combinator K A) : parser.lines ≠ [] := by
  induction parser with
  | expect terminal description => simp [lines]
  | both first second first_ih second_ih =>
    obtain ⟨line, rest, split⟩ := List.exists_cons_of_ne_nil first_ih
    simp [lines, split, second_ih]
  | map f parser ih => simpa [lines] using ih
  | either first second first_ih second_ih => simp [lines, first_ih]

variable [Token K]

/-- What comes behind a parser ends in an outcome that the count of choices does not change. -/
def Steady (future : A → Cursor K → StateM Nat (Outcome K R))
    (ending : A → Cursor K → Outcome K R) : Prop :=
  ∀ value cursor choices, ((future value cursor).run choices).1 = ending value cursor

theorem wins_run {A : Type} (parser : Combinator K A) (cursor : Cursor K)
    {future : A → Cursor K → StateM Nat (Outcome K R)} {ending : A → Cursor K → Outcome K R}
    (steady : Steady future ending) :
    ∃ winner, Outcome.Wins (parser.lines.map fun line => line.follow cursor ending) winner ∧
      ∀ choices, ((parser.run cursor future).run choices).1 = winner := by
  induction parser generalizing cursor with
  | expect terminal description =>
    refine ⟨_, Outcome.wins_singleton _, fun choices => ?_⟩
    simp only [run, Line.follow, id]
    cases cursor.peek with
    | none => rfl
    | some token =>
      by_cases found : Token.terminal token = terminal
      · simp only [found, if_true]
        exact steady token cursor.advance choices
      · simp only [found, if_false]
        rfl
  | both first second first_ih second_ih =>
    have behind : ∀ a : _, ∀ cursor : Cursor K, ∃ winner,
        Outcome.Wins (second.lines.map fun line => line.follow cursor fun b => ending (a, b))
          winner ∧
        ∀ choices, ((second.run cursor fun b => future (a, b)).run choices).1 = winner :=
      fun a cursor => second_ih cursor fun b => steady (a, b)
    choose middle wins_middle steady_middle using behind
    obtain ⟨winner, wins, run_eq⟩ := first_ih cursor steady_middle
    refine ⟨winner, ?_, run_eq⟩
    rw [lines, List.map_flatMap]
    refine wins.flatMap fun line member => ?_
    rw [List.map_map]
    have followed := Line.wins_follow second.lines_ne_nil line cursor wins_middle
    simpa only [Function.comp_def, Line.follow_both] using followed
  | map f parser ih =>
    obtain ⟨winner, wins, run_eq⟩ := ih cursor fun value => steady (f value)
    refine ⟨winner, ?_, run_eq⟩
    simpa only [lines, List.map_map, Function.comp_def, Line.follow_map] using wins
  | either first second first_ih second_ih =>
    obtain ⟨left, wins_left, left_eq⟩ := first_ih cursor steady
    obtain ⟨right, wins_right, right_eq⟩ := second_ih cursor steady
    refine ⟨left.best right, ?_, fun choices => ?_⟩
    · rw [lines, List.map_append]
      exact wins_left.append wins_right
    · have chosen : ((run (.either first second) cursor future).run choices).1 =
          Outcome.best ((first.run cursor future).run choices).1
            ((second.run cursor future).run ((first.run cursor future).run choices).2).1 := rfl
      rw [chosen, left_eq, right_eq]

/-- The parser succeeds with a line: the value of the line for the tokens ahead, the place behind
them, and no error. -/
def SucceedsWith (line : Line K A) (cursor : Cursor K) (outcome : Outcome K A) : Prop :=
  ∃ value, line.value (cursor.rest.take line.steps.length) = some value ∧
    outcome =
      { value := some value, cursor := cursor.advanceBy line.steps.length, errors := [] }

/-- The parser fails with a line: no value, the place of the first token that is not the one the
line expects, and one error there with the description of what is missing. -/
def FailsWith (line : Line K A) (cursor : Cursor K) (outcome : Outcome K A) : Prop :=
  ∃ found terminal description missed, line.steps = found ++ (terminal, description) :: missed ∧
    found.map Prod.fst <+: cursor.rest.map Token.terminal ∧
    (cursor.rest[found.length]?).map Token.terminal ≠ some terminal ∧
    outcome =
      { value := none
        cursor := cursor.advanceBy found.length
        errors := [⟨some .missing, (cursor.rest[found.length]?).bind Token.span,
          some description⟩] }

omit [Token K] in
private theorem SucceedsWith.rank {line : Line K A} {cursor : Cursor K} {outcome : Outcome K A}
    (succeeds : SucceedsWith line cursor outcome) : outcome.rank = toLex (0, 0) := by
  obtain ⟨value, -, rfl⟩ := succeeds
  rfl

private theorem FailsWith.rank {line : Line K A} {cursor : Cursor K} {outcome : Outcome K A}
    (fails : FailsWith line cursor outcome) : outcome.rank = toLex (1, 1) := by
  obtain ⟨found, terminal, description, missed, -, -, -, rfl⟩ := fails
  rfl

private def ending (value : A) (cursor : Cursor K) : Outcome K A :=
  { value := some value, cursor }

private theorem succeedsWith_follow {line : Line K A} {cursor : Cursor K}
    (fits : line.Fits cursor.rest) : SucceedsWith line cursor (line.follow cursor ending) := by
  obtain ⟨value, value_eq, follow_eq⟩ := line.follow_of_fits cursor ending fits
  exact ⟨value, value_eq, follow_eq⟩

private theorem failsWith_follow {line : Line K A} {cursor : Cursor K}
    (unfit : ¬ line.Fits cursor.rest) : FailsWith line cursor (line.follow cursor ending) := by
  obtain ⟨found, terminal, description, missed, split, before, absent, follow_eq⟩ :=
    line.follow_of_not_fits cursor ending unfit
  refine ⟨found, terminal, description, missed, split, before, absent, ?_⟩
  rw [follow_eq, mismatch, Cursor.peek_advanceBy]

/-- A parser succeeds exactly if one of its lines fits the tokens ahead. The first line that fits
gives the outcome; if none fits, the first line of all gives the failure. -/
theorem parse_first_line (parser : Combinator K A) (cursor : Cursor K) (choices : Nat) :
    let outcome := ((parser.parse cursor).run choices).1
    (outcome.isSuccess = true ↔ ∃ line ∈ parser.lines, line.Fits cursor.rest) ∧
    ((∃ before line after, parser.lines = before ++ line :: after ∧
        (∀ earlier ∈ before, ¬ earlier.Fits cursor.rest) ∧ line.Fits cursor.rest ∧
        SucceedsWith line cursor outcome) ∨
      (∀ line ∈ parser.lines, ¬ line.Fits cursor.rest) ∧
        ∃ first others, parser.lines = first :: others ∧ FailsWith first cursor outcome) := by
  intro outcome
  have wins : Outcome.Wins (parser.lines.map fun line => line.follow cursor ending) outcome := by
    have steady : Steady (fun value cursor => pure { value := some value, cursor })
        (ending : A → Cursor K → Outcome K A) := fun _ _ _ => rfl
    obtain ⟨winner, wins, run_eq⟩ := parser.wins_run cursor steady
    have outcome_eq : outcome = winner := run_eq choices
    rwa [outcome_eq]
  have least := wins.rank_le
  obtain ⟨front, back, split, above, -⟩ := wins
  obtain ⟨before, rest, lines_eq, rfl, rest_eq⟩ := List.map_eq_append_iff.mp split
  obtain ⟨line, after, rfl, line_eq, rfl⟩ := List.map_eq_cons_iff.mp rest_eq
  by_cases fits : line.Fits cursor.rest
  · have succeeds := line_eq ▸ succeedsWith_follow fits
    refine ⟨⟨fun _ => ⟨line, by simp [lines_eq], fits⟩, fun _ => ?_⟩,
      .inl ⟨before, line, after, lines_eq, fun earlier member earlier_fits => ?_, fits, succeeds⟩⟩
    · obtain ⟨value, -, success⟩ := succeeds
      simp [success, Outcome.isSuccess]
    · have lower := above _ (List.mem_map_of_mem member)
      rw [succeeds.rank, (succeedsWith_follow earlier_fits).rank] at lower
      exact lt_irrefl _ lower
  · have fails := line_eq ▸ failsWith_follow fits
    have none_fits : ∀ other ∈ parser.lines, ¬ other.Fits cursor.rest := by
      intro other member other_fits
      have bound := least _ (List.mem_map_of_mem member)
      rw [fails.rank, (succeedsWith_follow other_fits).rank] at bound
      exact absurd bound (by decide)
    have nothing_before : before = [] := by
      rcases List.eq_nil_or_concat before with none | ⟨_, earlier, rfl⟩
      · exact none
      · have member : earlier ∈ parser.lines := by simp [lines_eq]
        have lower := above (earlier.follow cursor ending) (by simp)
        rw [fails.rank, (failsWith_follow (none_fits earlier member)).rank] at lower
        exact absurd lower (lt_irrefl _)
    subst nothing_before
    refine ⟨⟨fun success => ?_, fun ⟨other, member, other_fits⟩ =>
      absurd other_fits (none_fits other member)⟩, .inr ⟨none_fits, line, after, lines_eq, fails⟩⟩
    obtain ⟨found, terminal, description, missed, -, -, -, failure⟩ := fails
    simp [failure, Outcome.isSuccess] at success

example :
    let word (terminal : Nat) : Combinator Word Word := .expect terminal ""
    let short := Combinator.map (fun _ => 1) (word 0)
    let long := Combinator.map (fun _ => 2) (.both (word 0) (word 1))
    let parser := Combinator.map Prod.fst (.both (.either short long) (word 2))
    let tokens : List Word := [{ terminal := 0 }, { terminal := 1 }, { terminal := 2 }]
    ((parser.parse (.ofList tokens)).run 0).1.value = some 2 := by
  decide

end Combinator

end GeneralizedLR
