import GeneralizedLR.Proofs.Arithmetic.Language
import GeneralizedLR.Proofs.Engine.Deletion

/-!
A closing parenthesis behind a whole sentence. No stack goes on at it, but all of them are reduced to
one expression before it is dropped. What follows then comes behind that expression as it would come
behind the sentence, unless it is a product and the sentence is a sum.
-/

set_option autoImplicit false
set_option relaxedAutoImplicit false

namespace GeneralizedLR.Arithmetic

open Relation (ReflTransGen)

/-- With precedence, a sum is closed and a product follows. Without the parenthesis only the last operand
of the sum would be multiplied. -/
structure Regroups (g : Grouping) (before : List Terminal) (token : Terminal)
    (behind : List Terminal) : Prop where
  precedence : g = .precedence
  closes : token = .rightParen
  sum : ∃ left right, Sentence left ∧ Sentence right ∧ before = left ++ .plus :: right
  product : ∃ rest, behind = .star :: rest

section Sentence

variable {sentence past : List Terminal} {stack : List Nat} {g : Grouping} {tokens : List Lexeme}
  {token : Lexeme}

private theorem Sentence.exists_last (derives : Sentence sentence) :
    ∃ front final, sentence = front ++ [final] ∧ final ∈ [.number, .rightParen] := by
  induction derives with
  | number => exact ⟨[], .number, rfl, by simp⟩
  | @sum left _ _ _ _ right =>
    obtain ⟨front, final, rfl, which⟩ := right
    exact ⟨left ++ .plus :: front, final, by simp, which⟩
  | @product left _ _ _ _ right =>
    obtain ⟨front, final, rfl, which⟩ := right
    exact ⟨left ++ .star :: front, final, by simp, which⟩
  | @group inner => exact ⟨.leftParen :: inner, .rightParen, rfl, by simp⟩

private theorem Awaits.not_sentence (awaits : Awaits past stack) : ¬ Sentence past := by
  intro derives
  obtain ⟨front, final, split, which⟩ := derives.exists_last
  cases awaits with
  | root => simp at split
  | paren =>
    obtain ⟨-, same⟩ := List.append_inj' split rfl
    rw [← List.singleton_inj.mp same] at which
    simp at which
  | operator _ _ operator =>
    obtain ⟨-, same⟩ := List.append_inj' split rfl
    rw [← List.singleton_inj.mp same] at which
    simp only [List.mem_cons, List.not_mem_nil, or_false, Prod.mk.injEq] at operator
    rcases operator with ⟨rfl, -⟩ | ⟨rfl, -⟩ <;> simp at which

private theorem mem_lookaheads_of_admits (derives : Sentence (terminals tokens))
    (admits : (table g).Admits tokens token) : token.terminal ∈ lookaheads := by
  obtain ⟨ready, ⟨stack, reached, chain⟩, ⟨after, shifts⟩ | ends⟩ := admits
  · have spells := (spells_of_reaches reached).reductions chain
    generalize terminals tokens = past at spells derives
    cases spells with
    | operand awaits => exact absurd derives awaits.not_sentence
    | number => exact absurd shifts (not_shifts_primary (by simp : [1] ∈ [[1], [7, 4, 2]]) _)
    | expression awaits =>
      obtain ⟨_, _, same, operand⟩ := awaits.exists_top
      cases same
      rcases terminal_of_shifts_expression operand shifts with which | ⟨kind, -⟩
      · revert which
        cases token.terminal <;> decide
      · simp [kind, lookaheads]
    | paren => exact absurd shifts (not_shifts_primary (by simp : [7, 4, 2] ∈ [[1], [7, 4, 2]]) _)
  · have final := (((spells_of_reaches reached).reductions chain).ends ends).1
    simp [final, lookaheads]

end Sentence

section Collapse

variable {g : Grouping} {token : Lexeme} {tokens : List Lexeme} {past : List Terminal}
  {stack stack' : List Nat}

private theorem shifts_of_strands {state : Nat} {below : List Nat}
    (strands : (table g).Strands token (state :: below)) :
    (table g).shifts state token.terminal.index = [] ∧
      (table g).reduces state token.terminal.index = [] := by
  obtain ⟨shifts, reduces⟩ := strands
  rw [classify_eq] at shifts reduces
  exact ⟨shifts, reduces⟩

private theorem Spells.eq_of_strands (spells : Spells past stack) (derives : Sentence past)
    (closes : token.terminal = .rightParen) (strands : (table g).Strands token stack) :
    stack = [3, 0] := by
  have follows : token.terminal ∈ lookaheads := by simp [closes, lookaheads]
  obtain ⟨numbers, parens, products, sums⟩ := reduces_lookahead (g := g) follows
  cases spells with
  | operand awaits => exact absurd derives awaits.not_sentence
  | number => simp [(shifts_of_strands strands).2] at numbers
  | @expression _ _ state below awaits =>
    obtain ⟨shifts, reduces⟩ := shifts_of_strands strands
    cases awaits with
    | root => rfl
    | paren =>
      have inner : (table g).shifts (behind 2) Terminal.rightParen.index = [7] := by cases g <;> rfl
      rw [closes, inner] at shifts
      cases shifts
    | operator _ _ which =>
      simp only [List.mem_cons, List.not_mem_nil, or_false, Prod.mk.injEq] at which
      rcases which with ⟨-, rfl⟩ | ⟨-, rfl⟩
      · exact absurd ((sums (.inr (by simp [closes]))).symm.trans reduces) (List.cons_ne_nil _ _)
      · exact absurd (products.symm.trans reduces) (List.cons_ne_nil _ _)
  | paren => simp [(shifts_of_strands strands).2] at parens

private theorem collapses_closing (derives : Sentence (terminals tokens))
    (closes : token.terminal = .rightParen) (stuck : ¬ (table g).Admits tokens token) :
    (table g).Collapses token ((table g).Reaches tokens) [3, 0] where
  still := by
    rintro stack reached ⟨ready, chain, goes⟩
    exact stuck ⟨ready, ⟨stack, reached, chain⟩, goes⟩
  same stack ready reached chain strands :=
    ((spells_of_reaches reached).reductions chain).eq_of_strands derives closes strands
  strands := by
    have none : (table g).shifts 3 Terminal.rightParen.index = [] ∧
        (table g).reduces 3 Terminal.rightParen.index = [] := by cases g <;> exact ⟨rfl, rfl⟩
    refine .intro ?_ ?_
    · rw [classify_eq, closes]
      exact none.1
    · rw [classify_eq, closes]
      exact none.2
  barren := by
    intro terminal insertable ready after chain inserts
    obtain ⟨c, goes, rfl⟩ := (mem_insertable_iff g).mp insertable
    have settled : ∀ next, ¬ (table g).Prepares c.index [3, 0] next := by
      intro next prepares
      obtain @⟨number, _, _, _, _, _, _, _, entry⟩ := prepares
      exact goes ((reduces_eq g c).2.2.2.2.1 number entry).2
    obtain rfl := (Relation.reflTransGen_iff_eq settled).mp chain
    obtain @⟨_, target, _, entry⟩ := inserts
    have operand : target ∈ [0, 2, 5, 6] := by
      rcases (shifts_eq g c).2.2 3 (by simp) target entry with ⟨rfl, -⟩ | ⟨rfl, -⟩ | ⟨inner, -⟩
      · simp
      · simp
      · cases inner
    rintro ⟨last, chain, goes⟩
    obtain rfl := (Relation.reflTransGen_iff_eq fun _ => not_reduces_operand operand _).mp chain
    rcases goes with ⟨next, shifts⟩ | ends
    · rcases terminal_of_shifts_operand operand shifts with kind | kind
      · exact Terminal.noConfusion (kind.symm.trans closes)
      · exact Terminal.noConfusion (kind.symm.trans closes)
    · obtain ⟨rule, base, uncovers, -⟩ := ends
      obtain ⟨entry, -⟩ := uncovers
      rw [classify_eq, reduces_operand g operand] at entry
      cases entry

end Collapse

section Spelling

variable {g : Grouping} {V : Type} {p : Parser Lexeme V} {past : List Terminal} {token : Lexeme}
  {tokens : List Lexeme} {s after : Branching Lexeme V}

def Spelled (past : List Terminal) (b : Branch Lexeme V) : Prop :=
  b.level = 0 → Spells past (Frame.states b.frames)

private theorem contract_spells (grouped : p.table = table g) (past : List Terminal)
    (token : Lexeme) : Branching.Contract p token (Spelled past) (fun _ _ => True)
      (Spelled past) (Spelled (past ++ [token.terminal]))
      (fun b => b.level = 0 → Sentence past) where
  shift := by
    intro b serial spells target entry clean
    have shifts := Parser.shifts_states_iff.mpr ⟨target, entry, rfl⟩
    rw [grouped] at shifts
    exact (spells clean).shift shifts
  reduce := by
    intro b serial frames spells production entry reduced clean
    have reduces := Parser.reduces_states_iff.mpr ⟨production, entry, frames, reduced, rfl⟩
    rw [grouped] at reduces
    exact (spells clean).reduce reduces
  accept := by
    intro b serial frames spells production entry reduced clean
    have ends := Parser.ends_states_iff.mpr ⟨production, entry, frames, reduced⟩
    rw [grouped] at ends
    exact ((spells clean).ends ends).2
  delete _ _ _ _ := fun clean => nomatch clean
  queue _ _ _ _ := trivial
  prepare _ _ _ _ _ _ _ _ _ := trivial
  insert _ _ _ _ _ _ _ := fun clean => nomatch clean

private theorem spells_of_parse (grouped : p.table = table g) (idle : s.Idle)
    (spells : ∀ b ∈ s.live, Spelled past b) {fuel : Nat}
    (run : Branching.parse Branch.merge fuel p tokens s = .ok after) (quiet : after.accepted = []) :
    ∀ b ∈ after.live, Spelled (past ++ terminals tokens) b := by
  induction tokens generalizing s past with
  | nil =>
    cases run
    simpa [terminals] using spells
  | cons token tokens ih =>
    obtain ⟨next, taken, rest⟩ := exists_of_bind_eq_ok run
    have none : s.accepted = [] :=
      Branching.accepted_eq_nil_of_input (Branching.accepted_eq_nil_of_parse quiet rest) taken
    have lives := ((contract_spells grouped past token).input selects_merge idle spells
      (by simp [none]) taken).1
    simpa [terminals] using ih (idle.input taken) lives rest

end Spelling

section Resumption

variable {g : Grouping} {V : Type} {p : Parser Lexeme V} {denote : Term → V}
  {before behind : List Lexeme} {token last : Lexeme} {b : Branch Lexeme V} {fuel : Nat} {t : Term}

/-- A parse is taken up where only one branch is live, behind an expression with the value. -/
structure Resumes (v : V) (s : Branching Lexeme V) : Prop where
  idle : s.Idle
  live : ∃ serial, s.live = [{ frames := [⟨3, .reduced v⟩], serial }]
  accepted : s.accepted = []

namespace Resumes

variable {v w : V} {s after : Branching Lexeme V}

private theorem frames_eq (resumes : Resumes v s) (member : b ∈ s.live) :
    b.frames = [⟨3, .reduced v⟩] := by
  obtain ⟨serial, live⟩ := resumes.live
  rw [live] at member
  rw [List.mem_singleton.mp member]

private theorem stage (resumes : Resumes v s) : Stage 1 false s := by
  obtain ⟨serial, live⟩ := resumes.live
  refine .ongoing (by simp [live]) (fun b member => ?_) resumes.accepted
  have frames := resumes.frames_eq member
  exact ⟨⟨0, by rw [frames]; exact .expression .root⟩, by simp [frames]⟩

private theorem sentence (resumes : Resumes v s) (grouped : p.table = table g)
    {past : List Terminal} (derives : Sentence past) (goes : behind.any Token.isEnd = false)
    (enough : 4 * behind.length + 6 ≤ fuel)
    (run : Branching.parse Branch.merge fuel p (behind ++ [last]) s = .ok after)
    (member : b ∈ after.accepted) (clean : b.level = 0) :
    Sentence (past ++ terminals behind) := by
  rw [Branching.parse_append] at run
  obtain ⟨middle, first, final⟩ := exists_of_bind_eq_ok run
  obtain ⟨_, taken, done⟩ := exists_of_bind_eq_ok final
  cases done
  obtain ⟨_, first', idle, stage⟩ :=
    resumes.stage.parse grouped resumes.idle behind (by omega : _ ≤ fuel)
  cases first.symm.trans first'
  have quiet : middle.accepted = [] := by
    rw [goes] at stage
    cases stage with
    | ongoing _ _ none => exact none
  have spells : ∀ b ∈ s.live, Spelled past b := fun b member _ => by
    rw [resumes.frames_eq member]
    exact .expression .root derives
  have lives := spells_of_parse grouped resumes.idle spells first quiet
  exact ((contract_spells grouped _ last).input selects_merge idle lives (by simp [quiet])
    taken).2 b member clean

private theorem exists_accepted (resumes : Resumes v s) (grouped : p.table = table g)
    (hurries : p.Hurries behind last [⟨3, .reduced v⟩] [⟨3, .reduced w⟩])
    (goes : behind.any Token.isEnd = false) (ends : last.isEnd = true)
    (enough : 4 * behind.length + 10 ≤ fuel) :
    ∃ after, Branching.parse Branch.merge fuel p (behind ++ [last]) s = .ok after ∧
      ∃ serial, after.accepted =
        [{ frames := [⟨0, .reduced (p.reducer Rule.start.index [.reduced w] last)⟩], serial }] := by
  obtain ⟨beside, outruns, -, begins⟩ := exists_outruns g
  obtain ⟨serial, live⟩ := resumes.live
  have front : Branching.Front beside [⟨3, .reduced v⟩] s :=
    { idle := resumes.idle
      live := ⟨[], serial, [], live, by simp⟩
      beside := fun b member _ => by
        rw [resumes.frames_eq member]
        exact begins }
  obtain ⟨after, run, -, accepted⟩ := exists_accepted_of_front grouped outruns front resumes.stage
    hurries goes ends (by omega : _ ≤ fuel)
  exact ⟨after, run, accepted⟩

end Resumes

private theorem Denotes.exists_resumes (denotes : Denotes g p denote)
    (drops : Branching.Drops p fuel t.yield token behind last b)
    (closes : token.terminal = .rightParen) :
    ∃ s, Resumes (denote (t.grouped g)) s ∧ ∀ fuel' after,
      Branching.parse Branch.merge fuel' p (behind ++ [last]) s = .ok after →
        ∃ b' ∈ after.accepted, b'.frames = b.frames ∧ b'.level = 0 := by
  obtain ⟨beside, outruns, begins, -⟩ := exists_outruns g
  have readable := t.readable_grouped g (by simp [closes, lookaheads] : token.terminal ∈ lookaheads)
    (fun _ product => Terminal.noConfusion (closes.symm.trans product))
  obtain ⟨frames, rushes, hastens⟩ := denotes.hurries [] token (by simp [Frame.top]) readable
  rw [t.yield_grouped] at rushes
  have stuck := drops.stops.stuck
  rw [denotes.grouped] at stuck
  have collapses := collapses_closing t.sentence closes stuck
  rw [← denotes.grouped] at outruns collapses
  have leads (begun : Branching Lexeme V)
      (first : Branching.parse Branch.merge fuel p t.yield .start = .ok begun) :
      Branch.Leads extent frames begun.live :=
    ((Branching.Front.start begins).parse outruns rushes first).leads outruns
  obtain ⟨s, idle, live, none, follow⟩ :=
    drops.exists_of_collapses leads (outruns.paced token) hastens collapses
  exact ⟨s, ⟨idle, live, none⟩, follow⟩

private theorem still_parsed (grouped : p.table = table g) (ends : last.isEnd = true) (v : V) :
    p.Still last [⟨3, .reduced v⟩] := by
  intro stack hastens
  cases hastens with
  | refl => rfl
  | step single reduced =>
    have rules : (table g).reduces 3 Terminal.endOfInput.index = [Rule.start.index] := by cases g <;> rfl
    rw [rules_eq grouped, isEnd_eq_true_iff.mp ends] at single
    obtain rfl := List.singleton_inj.mp (rules.symm.trans single)
    cases (reduct_parsed grouped last _).symm.trans reduced

private theorem isSum_grouped (kept : ¬ Regroups g (terminals t.yield) .rightParen (terminals behind))
    {next : Lexeme} {rest : List Lexeme} (split : behind ++ [last] = next :: rest)
    (ends : last.isEnd = true) (precedence : g = .precedence) (product : next.terminal = .star) :
    (t.grouped g).isSum = false := by
  by_contra sum
  refine kept ⟨precedence, rfl, ?_, ?_⟩
  · rw [← t.yield_grouped g]
    cases shape : t.grouped g with
    | sum left operator right => exact ⟨_, _, left.sentence, right.sentence, terminals_append ..⟩
    | _ => simp [shape, Term.isSum] at sum
  · cases behind with
    | nil =>
      cases split
      exact Terminal.noConfusion ((isEnd_eq_true_iff.mp ends).symm.trans product)
    | cons other behind =>
      cases split
      exact ⟨terminals behind, by rw [← product]; rfl⟩

private theorem Denotes.hurries_rest (denotes : Denotes g p denote) {t' : Term}
    (yields : t'.yield = t.yield ++ behind) (ends : last.isEnd = true)
    (kept : ¬ Regroups g (terminals t.yield) .rightParen (terminals behind)) :
    p.Hurries behind last [⟨3, .reduced (denote (t.grouped g))⟩]
      [⟨3, .reduced (denote (t'.grouped g))⟩] := by
  have final : last.terminal = .endOfInput := isEnd_eq_true_iff.mp ends
  have readable := t'.readable_grouped g (by simp [final, lookaheads] : last.terminal ∈ lookaheads)
    (fun _ product => Terminal.noConfusion (final.symm.trans product))
  have whole := denotes.hurries [] last (by simp [Frame.top]) readable
  rw [t'.yield_grouped, yields] at whole
  obtain ⟨next, rest, split⟩ : ∃ next rest, behind ++ [last] = next :: rest :=
    List.exists_cons_of_ne_nil (by simp)
  have follows : next.terminal ∈ lookaheads := by
    refine mem_lookaheads_of_admits (g := g) t.sentence
      (admits_of_begins ⟨_, t'.sentence, terminals rest, ?_⟩)
    rw [yields, ← final, ← terminals_append, List.append_assoc, List.singleton_append, ← split,
      ← List.append_assoc, terminals_append]
    rfl
  have first := denotes.hurries [] next (by simp [Frame.top])
    (t.readable_grouped g follows (isSum_grouped kept split ends))
  rw [t.yield_grouped] at first
  exact whole.of_append (still_parsed denotes.grouped ends _) first (by rw [split]; rfl)

/-- Behind a sentence, a closing parenthesis that is dropped leaves no trace in the result, unless a sum
ends there and a product follows. -/
theorem Denotes.exists_of_closing (denotes : Denotes g p denote)
    (drops : Branching.Drops p fuel before token behind last b)
    (inside : ∀ other ∈ before ++ token :: behind, other.isEnd = false ∧ other.Valued)
    (ends : last.isEnd = true) (closes : token.terminal = .rightParen)
    (derives : Sentence (terminals before))
    (kept : ¬ Regroups g (terminals before) token.terminal (terminals behind)) {more : Nat}
    (enough : 4 * (before ++ behind).length + 8 ≤ more) :
    ∃ u b', Branching.parse Branch.merge more p (before ++ (behind ++ [last])) .start = .ok u ∧
      u.accepted = [b'] ∧ b'.frames = b.frames ∧ b'.errors = [] := by
  have grouped := denotes.grouped
  have valued : ∀ other ∈ before ++ behind, other.Valued := fun other member =>
    (inside other (by simp only [List.mem_append, List.mem_cons] at member ⊢; tauto)).2
  have goes : behind.any Token.isEnd = false := List.any_eq_false.mpr fun other member =>
    Bool.eq_false_iff.mp (inside other (by simp [member])).1
  obtain ⟨t, rfl⟩ := derives.exists_yield fun other member => valued other (by simp [member])
  obtain ⟨s, resumes, follow⟩ := denotes.exists_resumes drops closes
  have whole : Sentence (terminals (t.yield ++ behind)) := by
    obtain ⟨u, run, -⟩ := resumes.stage.parse grouped resumes.idle (behind ++ [last]) (le_refl _)
    obtain ⟨b', accepted, -, clean⟩ := follow _ u run
    have enough : 4 * behind.length + 6 ≤ 2 * 1 + 4 * (behind ++ [last]).length + 4 := by
      rw [List.length_append, List.length_singleton]
      omega
    rw [terminals_append]
    exact resumes.sentence grouped derives goes enough run accepted clean
  obtain ⟨t', yields⟩ := whole.exists_yield valued
  obtain ⟨u, run, _, accepted⟩ := resumes.exists_accepted grouped
    (denotes.hurries_rest yields ends (closes ▸ kept)) goes ends (le_refl _)
  obtain ⟨b', member, frames, -⟩ := follow _ u run
  rw [accepted, denotes.start] at member
  rw [List.mem_singleton.mp member] at frames
  rw [← yields] at enough
  obtain ⟨u, run, -, _, accepted⟩ := denotes.exists_parse_grouped t' ends enough
  rw [yields, List.append_assoc] at run
  exact ⟨u, _, run, accepted, frames, rfl⟩

end Resumption

end GeneralizedLR.Arithmetic
