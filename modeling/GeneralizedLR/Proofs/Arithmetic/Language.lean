import GeneralizedLR.Proofs.Arithmetic.Groupings
import GeneralizedLR.Proofs.Engine.Blame

/-!
The language of arithmetic. A stack spells the terminals that were read: they are what the sentences
on it stand for, with the parentheses and operators between them. Reductions keep what a stack spells,
and every such stack can be completed to a sentence. So the automaton stops exactly where no sentence
goes on as the input does, and the first error of a parse is about the token there.
-/

set_option autoImplicit false
set_option relaxedAutoImplicit false

namespace GeneralizedLR.Arithmetic

open Relation (ReflTransGen)

section Sentence

/-- The sentences of arithmetic. -/
inductive Sentence : List Terminal → Prop
  | number : Sentence [.number]
  | sum {left right : List Terminal} : Sentence left → Sentence right →
      Sentence (left ++ .plus :: right)
  | product {left right : List Terminal} : Sentence left → Sentence right →
      Sentence (left ++ .star :: right)
  | group {inner : List Terminal} : Sentence inner → Sentence (.leftParen :: (inner ++ [.rightParen]))

/-- The terminals are the first ones of a sentence and of the end of the input behind it. -/
def Begins (terminals : List Terminal) : Prop :=
  ∃ sentence, Sentence sentence ∧ terminals <+: sentence ++ [.endOfInput]

def terminals (tokens : List Lexeme) : List Terminal := tokens.map (·.terminal)

theorem terminals_append (left right : List Lexeme) :
    terminals (left ++ right) = terminals left ++ terminals right := List.map_append

theorem Sentence.not_mem_endOfInput {sentence : List Terminal} (derives : Sentence sentence) :
    Terminal.endOfInput ∉ sentence := by
  induction derives with
  | number => decide
  | sum _ _ left right => simp [left, right]
  | product _ _ left right => simp [left, right]
  | group _ inner => simp [inner]

theorem Term.sentence (t : Term) : Sentence (terminals t.yield) := by
  induction t with
  | number value span => exact .number
  | sum left operator right l r =>
    rw [yield, terminals_append]
    exact .sum l r
  | product left operator right l r =>
    rw [yield, terminals_append]
    exact .product l r
  | group opening inner closing ih =>
    have whole : terminals (group opening inner closing).yield =
        .leftParen :: (terminals inner.yield ++ [.rightParen]) := by
      simp [yield, terminals, Mark.token]
    rw [whole]
    exact .group ih

/-- The tokens of every sentence are those of a term, if the numbers among them have values. -/
theorem Sentence.exists_yield {tokens : List Lexeme} (derives : Sentence (terminals tokens))
    (valued : ∀ token ∈ tokens, token.Valued) : ∃ t : Term, t.yield = tokens := by
  have operation {left right : List Terminal} {operator : Terminal} {tokens : List Lexeme}
      (split : left ++ operator :: right = terminals tokens) : ∃ before mark behind,
        tokens = before ++ Mark.token mark operator :: behind ∧ terminals before = left ∧
          terminals behind = right := by
    obtain ⟨before, rest, rfl, first, second⟩ := List.map_eq_append_iff.mp split.symm
    obtain ⟨token, behind, rfl, rfl, last⟩ := List.map_eq_cons_iff.mp second
    exact ⟨before, ⟨token.payload, token.span⟩, behind, rfl, first, last⟩
  generalize all : terminals tokens = sentence at derives
  induction derives generalizing tokens with
  | number =>
    obtain ⟨⟨terminal, payload, span⟩, rfl, kind⟩ := List.map_eq_singleton_iff.mp all
    obtain rfl : terminal = .number := kind
    obtain ⟨value, same⟩ := valued _ (List.mem_singleton_self _) rfl
    obtain rfl : payload = .number value := same
    exact ⟨.number value span, rfl⟩
  | sum _ _ left right =>
    obtain ⟨before, mark, behind, rfl, first, second⟩ := operation all.symm
    obtain ⟨l, rfl⟩ := left (fun token member => valued token (by simp [member])) first
    obtain ⟨r, rfl⟩ := right (fun token member => valued token (by simp [member])) second
    exact ⟨.sum l mark r, rfl⟩
  | product _ _ left right =>
    obtain ⟨before, mark, behind, rfl, first, second⟩ := operation all.symm
    obtain ⟨l, rfl⟩ := left (fun token member => valued token (by simp [member])) first
    obtain ⟨r, rfl⟩ := right (fun token member => valued token (by simp [member])) second
    exact ⟨.product l mark r, rfl⟩
  | group _ inner =>
    obtain ⟨opening, rest, rfl, opens, rest'⟩ := List.map_eq_cons_iff.mp all
    obtain ⟨within, last, rfl, first, second⟩ := List.map_eq_append_iff.mp rest'
    obtain ⟨closing, rfl, closes⟩ := List.map_eq_singleton_iff.mp second
    obtain ⟨t, rfl⟩ := inner (fun token member => valued token (by simp [member])) first
    refine ⟨.group ⟨opening.payload, opening.span⟩ t ⟨closing.payload, closing.span⟩, ?_⟩
    simp [Term.yield, Mark.token, ← opens, ← closes]

theorem Sentence.exists_term {sentence : List Terminal} (derives : Sentence sentence) :
    ∃ t : Term, terminals t.yield = sentence := by
  let token (c : Terminal) : Lexeme := { terminal := c, payload := .number 0 }
  have same : terminals (sentence.map token) = sentence := by
    rw [terminals, List.map_map]
    exact List.map_id sentence
  obtain ⟨t, yields⟩ := Sentence.exists_yield (same.symm ▸ derives) (by simp [Lexeme.Valued, token])
  exact ⟨t, yields ▸ same⟩

end Sentence

section Spelling

/-- A stack on which an operand is expected, and the terminals that it spells. -/
inductive Awaits : List Terminal → List Nat → Prop
  | root : Awaits [] [0]
  | paren {past : List Terminal} {below : List Nat} : Awaits past below →
      Awaits (past ++ [.leftParen]) (2 :: below)
  | operator {past operand : List Terminal} {operator : Terminal} {state top : Nat}
      {below : List Nat} : Awaits past (state :: below) → Sentence operand →
        (operator, top) ∈ [(.plus, 5), (.star, 6)] →
          Awaits (past ++ operand ++ [operator]) (top :: behind state :: state :: below)

/-- A stack of the automaton, and the terminals that it spells. -/
inductive Spells : List Terminal → List Nat → Prop
  | operand {past : List Terminal} {stack : List Nat} : Awaits past stack → Spells past stack
  | number {past : List Terminal} {below : List Nat} : Awaits past below →
      Spells (past ++ [.number]) (1 :: below)
  | expression {past sentence : List Terminal} {state : Nat} {below : List Nat} :
      Awaits past (state :: below) → Sentence sentence →
        Spells (past ++ sentence) (behind state :: state :: below)
  | paren {past inner : List Terminal} {below : List Nat} : Awaits past below → Sentence inner →
      Spells (past ++ .leftParen :: (inner ++ [.rightParen])) (7 :: 4 :: 2 :: below)

variable {past : List Terminal} {stack stack' : List Nat} {g : Grouping} {token : Lexeme}

theorem Awaits.exists_top (awaits : Awaits past stack) :
    ∃ state below, stack = state :: below ∧ state ∈ [0, 2, 5, 6] := by
  cases awaits with
  | root => exact ⟨0, [], rfl, by simp⟩
  | paren => exact ⟨2, _, rfl, by simp⟩
  | operator _ _ which =>
    refine ⟨_, _, rfl, ?_⟩
    simp only [List.mem_cons, List.not_mem_nil, or_false, Prod.mk.injEq] at which
    rcases which with ⟨-, rfl⟩ | ⟨-, rfl⟩ <;> simp

theorem Awaits.exists_rest (awaits : Awaits past stack) {sentence : List Terminal}
    (derives : Sentence sentence) : ∃ rest, Sentence (past ++ sentence ++ rest) := by
  induction awaits generalizing sentence with
  | root => exact ⟨[], by simpa using derives⟩
  | @paren past below _ ih =>
    obtain ⟨rest, whole⟩ := ih (.group derives)
    exact ⟨.rightParen :: rest, by simpa using whole⟩
  | @operator past operand operator state top below _ first which ih =>
    have joined : Sentence (operand ++ operator :: sentence) := by
      simp only [List.mem_cons, List.not_mem_nil, or_false, Prod.mk.injEq] at which
      rcases which with ⟨rfl, -⟩ | ⟨rfl, -⟩
      · exact .sum first derives
      · exact .product first derives
    obtain ⟨rest, whole⟩ := ih joined
    exact ⟨rest, by simpa using whole⟩

theorem Spells.exists_rest (spells : Spells past stack) : ∃ rest, Sentence (past ++ rest) := by
  cases spells with
  | operand awaits =>
    obtain ⟨rest, whole⟩ := awaits.exists_rest .number
    exact ⟨.number :: rest, by simpa using whole⟩
  | number awaits => exact awaits.exists_rest .number
  | expression awaits derives => exact awaits.exists_rest derives
  | paren awaits inner => exact awaits.exists_rest (.group inner)

theorem Spells.shift (spells : Spells past stack) (shifts : (table g).Shifts token stack stack') :
    Spells (past ++ [token.terminal]) stack' := by
  obtain rfl := eq_of_shifts shifts
  cases spells with
  | operand awaits =>
    obtain ⟨state, below, rfl, operand⟩ := awaits.exists_top
    rcases terminal_of_shifts_operand operand shifts with kind | kind
    · rw [kind]
      exact .number awaits
    · rw [kind]
      exact .operand (.paren awaits)
  | number awaits => exact absurd shifts (not_shifts_primary (by simp : [1] ∈ [[1], [7, 4, 2]]) _)
  | @expression past sentence state below awaits derives =>
    obtain ⟨_, _, same, operand⟩ := awaits.exists_top
    cases same
    rcases terminal_of_shifts_expression operand shifts with which | ⟨kind, rfl⟩
    · refine .operand (.operator awaits derives ?_)
      revert which
      cases token.terminal <;> decide
    · rw [kind]
      cases awaits with
      | @paren past below awaits =>
        have closed := Spells.paren awaits derives
        rwa [← List.singleton_append, ← List.append_assoc, ← List.append_assoc] at closed
      | operator _ _ which => simp at which
  | paren awaits => exact absurd shifts (not_shifts_primary (by simp : [7, 4, 2] ∈ [[1], [7, 4, 2]]) _)

theorem Spells.reduce (spells : Spells past stack) (reduces : (table g).Reduces token stack stack') :
    Spells past stack' := by
  cases spells with
  | operand awaits =>
    obtain ⟨state, below, rfl, operand⟩ := awaits.exists_top
    exact absurd reduces (not_reduces_operand operand below)
  | number awaits =>
    obtain ⟨state, below, rfl, -⟩ := awaits.exists_top
    obtain rfl := eq_of_reduces_primary (by simp : [1] ∈ [[1], [7, 4, 2]]) reduces
    exact .expression awaits .number
  | @expression past sentence state below awaits derives =>
    cases awaits with
    | root => exact absurd reduces (not_reduces_outside (by simp) [0])
    | @paren past below awaits => exact absurd reduces (not_reduces_outside (by simp) (2 :: below))
    | @operator past operand operator state _ below awaits first which =>
      simp only [List.mem_cons, List.not_mem_nil, or_false, Prod.mk.injEq] at which
      rw [List.append_assoc, List.append_assoc, List.singleton_append]
      rcases which with ⟨rfl, rfl⟩ | ⟨rfl, rfl⟩
      · obtain rfl := eq_of_reduces_operation (by simp) reduces
        exact .expression awaits (.sum first derives)
      · obtain rfl := eq_of_reduces_operation (by simp) reduces
        exact .expression awaits (.product first derives)
  | @paren past inner below awaits derives =>
    obtain ⟨state, below, rfl, -⟩ := awaits.exists_top
    obtain rfl := eq_of_reduces_primary (by simp : [7, 4, 2] ∈ [[1], [7, 4, 2]]) reduces
    exact .expression awaits (.group derives)

theorem Spells.reductions (spells : Spells past stack)
    (chain : ReflTransGen ((table g).Reduces token) stack stack') : Spells past stack' := by
  induction chain with
  | refl => exact spells
  | tail _ reduces ih => exact ih.reduce reduces

private theorem exists_of_ends (ends : (table g).Ends token stack) :
    token.terminal = .endOfInput ∧ ∃ below, stack = 3 :: below := by
  obtain ⟨rule, base, uncovers, start⟩ := ends
  obtain @⟨top, number, below, taken, _, entry, listed, -, -, -⟩ := uncovers
  rw [classify_eq] at entry
  obtain ⟨which, -⟩ := reduceEntries_eq g _ (Transition.mem_targets_iff.mp entry)
  simp only [List.mem_cons, List.not_mem_nil, or_false, Prod.mk.injEq] at which
  rw [production?_eq] at listed
  rcases which with ⟨-, rfl⟩ | ⟨-, rfl⟩ | ⟨-, rfl⟩ | ⟨-, rfl⟩ | ⟨rfl, rfl⟩
  · cases listed
    cases start
  · cases listed
    cases start
  · cases listed
    cases start
  · cases listed
    cases start
  · obtain ⟨-, -, -, -, whole, -⟩ := reduces_eq g token.terminal
    exact ⟨(whole 0 entry).2, below, rfl⟩

theorem Spells.ends (spells : Spells past stack) (ends : (table g).Ends token stack) :
    token.terminal = .endOfInput ∧ Sentence past := by
  obtain ⟨final, rest, rfl⟩ := exists_of_ends ends
  refine ⟨final, ?_⟩
  generalize shape : 3 :: rest = stack at spells
  cases spells with
  | operand awaits =>
    obtain ⟨state, below, same, operand⟩ := awaits.exists_top
    rw [same] at shape
    rw [← (List.cons.inj shape).1] at operand
    simp at operand
  | number => cases shape
  | expression awaits derives =>
    have top := (List.cons.inj shape).1
    cases awaits with
    | root => exact derives
    | paren => exact absurd top (by decide)
    | operator _ _ which =>
      simp only [List.mem_cons, List.not_mem_nil, or_false, Prod.mk.injEq] at which
      rcases which with ⟨-, rfl⟩ | ⟨-, rfl⟩
      · exact absurd top (by decide)
      · exact absurd top (by decide)
  | paren => cases shape

theorem spells_of_reaches {tokens : List Lexeme} (reached : (table g).Reaches tokens stack) :
    Spells (terminals tokens) stack := by
  induction reached with
  | start => exact .operand .root
  | consume _ chain shifts ih =>
    rw [terminals_append]
    exact (ih.reductions chain).shift shifts

end Spelling

section Recognition

variable {g : Grouping} {token token' last : Lexeme} {tokens others past : List Lexeme}
  {stack stack' : List Nat}

private theorem shifts_congr (same : token.terminal = token'.terminal)
    (shifts : (table g).Shifts token stack stack') : (table g).Shifts token' stack stack' := by
  obtain ⟨entry⟩ := shifts
  rw [classify_eq, same] at entry
  exact .intro ((classify_eq _ token').symm ▸ entry)

private theorem uncovers_congr (same : token.terminal = token'.terminal) {rule : Production}
    (uncovers : (table g).Uncovers token rule stack stack') :
    (table g).Uncovers token' rule stack stack' := by
  obtain ⟨entry, listed, split, arity, rest⟩ := uncovers
  rw [classify_eq, same] at entry
  exact .intro ((classify_eq _ token').symm ▸ entry) listed split arity rest

private theorem reductions_congr (same : token.terminal = token'.terminal)
    (chain : ReflTransGen ((table g).Reduces token) stack stack') :
    ReflTransGen ((table g).Reduces token') stack stack' := by
  refine chain.lift id fun _ _ reduces => ?_
  obtain ⟨uncovers, goes, found⟩ := reduces
  exact .intro (uncovers_congr same uncovers) goes found

private theorem reaches_congr (reached : (table g).Reaches tokens stack)
    (same : terminals tokens = terminals others) : (table g).Reaches others stack := by
  induction reached generalizing others with
  | start =>
    obtain rfl := List.map_eq_nil_iff.mp same.symm
    exact .start
  | consume _ chain shifts ih =>
    rw [terminals_append] at same
    obtain ⟨past', rest, rfl, before, last⟩ := List.map_eq_append_iff.mp same.symm
    obtain ⟨token', rfl, kind⟩ := List.map_eq_singleton_iff.mp last
    exact (ih before.symm).consume (reductions_congr kind.symm chain) (shifts_congr kind.symm shifts)

private theorem admits_congr (same : token.terminal = token'.terminal)
    (before : terminals past = terminals others) (admits : (table g).Admits past token) :
    (table g).Admits others token' := by
  obtain ⟨ready, ⟨stack, reached, chain⟩, goes⟩ := admits
  refine ⟨ready, ⟨stack, reaches_congr reached before, reductions_congr same chain⟩, ?_⟩
  rcases goes with ⟨after, shifts⟩ | ⟨rule, base, uncovers, start⟩
  · exact .inl ⟨after, shifts_congr same shifts⟩
  · exact .inr ⟨rule, base, uncovers_congr same uncovers, start⟩

private theorem accepts_yield (g : Grouping) (t : Term) (ends : last.isEnd = true) :
    (table g).Accepts (t.yield ++ [last]) := by
  have denotes : Denotes g { table := table g, reducer := Term.build } id := Term.denotes_build
  obtain ⟨s, run, -, serial, accepted⟩ := denotes.exists_parse_grouped t ends (Nat.le_refl _)
  have follows := (Branching.Reached.start.parse run).follows.2 _ (accepted ▸ List.mem_singleton_self _)
  rw [List.nil_append] at follows
  exact follows.reached rfl

private theorem accepts_concat_iff (goes : .endOfInput ∉ terminals tokens) :
    (table g).Accepts (tokens ++ [last]) ↔ ∃ stack ready, (table g).Reaches tokens stack ∧
      ReflTransGen ((table g).Reduces last) stack ready ∧ (table g).Ends last ready := by
  rw [Table.accepts_concat_iff, or_iff_right]
  rintro ⟨past, token, future, stack, ready, rfl, -, -, ends⟩
  refine goes (List.mem_map.mpr ⟨token, by simp, (exists_of_ends ends).1⟩)

private theorem admits_end_iff (ends : last.isEnd = true) :
    (table g).Admits tokens last ↔ Sentence (terminals tokens) := by
  have final : last.terminal = .endOfInput := isEnd_eq_true_iff.mp ends
  constructor
  · rintro ⟨ready, ⟨stack, reached, chain⟩, goes⟩
    have spells := (spells_of_reaches reached).reductions chain
    rcases goes with ⟨after, shifts⟩ | ends
    · obtain ⟨rest, derives⟩ := (spells.shift shifts).exists_rest
      exact absurd (by simp [final]) derives.not_mem_endOfInput
    · exact (spells.ends ends).2
  · intro derives
    obtain ⟨t, same⟩ := derives.exists_term
    have goes : Terminal.endOfInput ∉ terminals t.yield := same ▸ derives.not_mem_endOfInput
    obtain ⟨stack, ready, reached, chain, stops⟩ :=
      (accepts_concat_iff goes).mp (accepts_yield g t ends)
    exact admits_congr rfl same ⟨ready, ⟨stack, reached, chain⟩, .inr stops⟩

theorem begins_of_reaches (reached : (table g).Reaches tokens stack) : Begins (terminals tokens) := by
  obtain ⟨rest, derives⟩ := (spells_of_reaches reached).exists_rest
  exact ⟨_, derives, by simp⟩

theorem admits_of_begins (begins : Begins (terminals (past ++ [token]))) :
    (table g).Admits past token := by
  obtain ⟨sentence, derives, first⟩ := begins
  rw [terminals_append] at first
  rcases List.prefix_concat_iff.mp first with whole | ⟨rest, split⟩
  · obtain ⟨same, kind⟩ := List.append_inj' whole rfl
    exact (admits_end_iff (isEnd_eq_true_iff.mpr (List.singleton_inj.mp kind))).mpr (same ▸ derives)
  · obtain ⟨t, rfl⟩ := derives.exists_term
    have ends : Lexeme.isEnd { terminal := .endOfInput } = true := rfl
    obtain ⟨ready, ⟨stack, reached, -⟩, -⟩ := (admits_end_iff (g := g) ends).mpr derives
    obtain ⟨before, others, yields, same, again⟩ := List.map_eq_append_iff.mp split.symm
    obtain ⟨past', one, rfl, before, last⟩ := List.map_eq_append_iff.mp same
    obtain ⟨token', rfl, kind⟩ := List.map_eq_singleton_iff.mp last
    rw [yields, List.append_assoc] at reached
    exact admits_congr kind before reached.admits

theorem errors_eq_nil_iff {V : Type} {p : Parser Lexeme V} (grouped : p.table = table g)
    (goes : .endOfInput ∉ terminals tokens) (ends : last.isEnd = true) {fuel : Nat}
    {s : Branching Lexeme V}
    (run : Branching.parse Branch.merge fuel p (tokens ++ [last]) .start = .ok s)
    {b : Branch Lexeme V} (member : b ∈ s.accepted) :
    b.errors = [] ↔ Sentence (terminals tokens) := by
  constructor
  · intro clean
    have follows := (Branching.Reached.start.parse run).follows.2 b member
    have accepts := follows.reached (by rw [← follows.records, clean]; rfl)
    rw [List.nil_append, grouped, accepts_concat_iff goes] at accepts
    obtain ⟨stack, ready, reached, chain, stops⟩ := accepts
    exact (((spells_of_reaches reached).reductions chain).ends stops).2
  · intro derives
    rcases (Branching.parse_accounted run).2 b member with ⟨clean, -⟩ | blames
    · exact clean
    · obtain ⟨past, token, future, first, rest, split, stops, -⟩ := blames
      have begins : Begins (terminals (past ++ [token])) := by
        refine ⟨_, derives, terminals future, ?_⟩
        rw [← isEnd_eq_true_iff.mp ends, ← terminals_append, List.append_assoc, List.singleton_append,
          ← split, terminals_append]
        rfl
      exact absurd (grouped ▸ admits_of_begins begins) stops.stuck

/-- The parser reports nothing if the tokens are a sentence. If not, the first report is about the
token up to which no sentence begins as the tokens do. -/
theorem parse_language (g : Grouping) (codes : ErrorCodes) (tokens : List Lexeme)
    (goes : ∀ token ∈ tokens, token.isEnd = false) (last : Mark) (more : Nat) :
    ∃ e head expr, Engine.parse (4 * tokens.length + 8 + more) (parser g codes)
        (tokens ++ [last.token .endOfInput]) .start = .ok e ∧
      e.heads = [] ∧ e.accepted = [head] ∧ e.result 0 = .ok expr ∧
      (e.diagnostics codes 0 = [] ↔ Sentence (terminals tokens)) ∧
      (¬ Sentence (terminals tokens) → ∃ past token future first rest,
        tokens ++ [last.token .endOfInput] = past ++ token :: future ∧
          Begins (terminals past) ∧ ¬ Begins (terminals (past ++ [token])) ∧
            e.diagnostics codes 0 = first :: rest ∧ first.span = token.span) := by
  have ends : (last.token .endOfInput).isEnd = true := rfl
  have inside : Terminal.endOfInput ∉ terminals tokens := by
    intro member
    obtain ⟨token, listed, kind⟩ := List.mem_map.mp member
    have final : token.isEnd = true := isEnd_eq_true_iff.mpr kind
    rw [goes token listed] at final
    cases final
  have enough : 4 * (tokens ++ [last.token .endOfInput]).length + 4 ≤ 4 * tokens.length + 8 + more := by
    rw [List.length_append, List.length_singleton]
    omega
  obtain ⟨s, run, -, stage⟩ := exists_parse (p := parser g codes) (g := g) rfl
    (tokens ++ [last.token .endOfInput]) enough
  obtain ⟨e, parsed, shows⟩ := Engine.exists_parse_of_branching run
  rw [List.any_append, show ([last.token .endOfInput] : List Lexeme).any Token.isEnd = true from rfl,
    Bool.or_true] at stage
  cases stage with
  | @finished _ b v live accepted frames =>
    have member : b ∈ s.accepted := accepted ▸ List.mem_singleton_self b
    obtain ⟨head, heads, errors, result⟩ := shows.result accepted frames
    have reports : e.diagnostics codes 0 = b.errors.map (·.diagnostic codes) := by
      simp [Engine.diagnostics, result, heads, errors]
    have clean := errors_eq_nil_iff (g := g) rfl inside ends run member
    refine ⟨e, head, v, parsed, List.forall₂_nil_right_iff.mp (live ▸ shows.live), heads, result, ?_,
      fun wrong => ?_⟩
    · rw [reports, List.map_eq_nil_iff, clean]
    · rcases (Branching.parse_accounted run).2 b member with ⟨none, -⟩ | blames
      · exact absurd (clean.mp none) wrong
      · obtain ⟨past, token, future, first, rest, split, stops, records, repairs⟩ := blames
        obtain ⟨stack, reached⟩ := stops.reaches
        refine ⟨past, token, future, first.diagnostic codes, rest.map (·.diagnostic codes), split,
          begins_of_reaches reached, fun begins => stops.stuck (admits_of_begins begins), ?_,
          repairs.span⟩
        rw [reports, records, List.map_cons]

def oneTooMany : List Lexeme :=
  [numberToken 1 (some ⟨⟨0, 0⟩, ⟨0, 1⟩⟩), { terminal := .rightParen, span := some ⟨⟨0, 1⟩, ⟨0, 2⟩⟩ }]

/-- One number is a sentence, and with a parenthesis behind it the parenthesis is reported: no sentence
begins like that. -/
theorem parse_language_number :
    (∃ e, Engine.parse 12 (parser .ambiguous) [numberToken 1 none, { terminal := .endOfInput }]
      .start = .ok e ∧ e.diagnostics {} 0 = []) ∧
    ∃ e, Engine.parse 16 (parser .ambiguous) (oneTooMany ++ [{ terminal := .endOfInput }])
        .start = .ok e ∧
      e.diagnostics {} 0 = [⟨1, some ⟨⟨0, 1⟩, ⟨0, 2⟩⟩, some ")"⟩] ∧
      ¬ Sentence (terminals oneTooMany) ∧
      Begins [.number] ∧ ¬ Begins [.number, .rightParen] := by
  constructor
  · obtain ⟨e, head, expr, run, -, -, -, clean, -⟩ :=
      parse_language .ambiguous {} [numberToken 1 none] (by decide) {} 0
    exact ⟨e, run, clean.mpr .number⟩
  · obtain ⟨e, head, expr, run, -, -, -, clean, wrong⟩ :=
      parse_language .ambiguous {} oneTooMany (by decide) {} 0
    obtain ⟨e', run', reports⟩ : ∃ e', Engine.parse 16 (parser .ambiguous)
        (oneTooMany ++ [{ terminal := .endOfInput }]) .start = .ok e' ∧
          e'.diagnostics {} 0 = [⟨1, some ⟨⟨0, 1⟩, ⟨0, 2⟩⟩, some ")"⟩] := ⟨_, rfl, rfl⟩
    cases run.symm.trans run'
    have stray : ¬ Sentence (terminals oneTooMany) := by
      rw [← clean, reports]
      exact List.cons_ne_nil _ _
    obtain ⟨past, token, future, first, rest, split, begins, stuck, listed, span⟩ := wrong stray
    obtain ⟨rfl, rfl⟩ := List.cons.inj (reports.symm.trans listed)
    have place : past = [numberToken 1 (some ⟨⟨0, 0⟩, ⟨0, 1⟩⟩)] ∧ token.terminal = .rightParen := by
      rcases past with _ | ⟨one, _ | ⟨two, past⟩⟩
      · cases split
        cases span
      · cases split
        exact ⟨rfl, rfl⟩
      · obtain ⟨-, -, rest⟩ : _ ∧ _ ∧ _ := by simpa [oneTooMany] using split
        rcases past with _ | ⟨three, past⟩
        · cases rest
          cases span
        · simp at rest
    rw [place.1] at begins stuck
    rw [terminals_append] at stuck
    simp only [terminals, List.map_cons, List.map_nil, place.2] at begins stuck
    exact ⟨e, run, reports, stray, begins, stuck⟩

end Recognition

end GeneralizedLR.Arithmetic
