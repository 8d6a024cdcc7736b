import GeneralizedLR.Proofs.Arithmetic.Denotation
import GeneralizedLR.Proofs.Arithmetic.Shortest
import GeneralizedLR.Proofs.Arithmetic.Totality

/-!
Without precedence the parser follows every grouping, and the parse that it keeps is the left-grouped
one. A left-grouped term is read by the branch whose stack is reduced before every operator. This stack
is the shortest one, so its branch is in front of all others and is the one that is accepted.
-/

set_option autoImplicit false
set_option relaxedAutoImplicit false

namespace GeneralizedLR.Arithmetic

variable {V : Type} {p : Parser Lexeme V} {denote : Term → V} {g : Grouping}

/-- Where a left-grouped term can be read in one piece: behind an operator only a number or a group. -/
def Term.Leads (state : Nat) : Term → Prop
  | .sum .. | .product .. => state ∈ [0, 2]
  | _ => True

theorem Term.leads_outside (t : Term) {state : Nat} (outside : state ∈ [0, 2]) : t.Leads state := by
  cases t with
  | number => trivial
  | sum => exact outside
  | product => exact outside
  | group => trivial

theorem Term.leads_of_plain {t : Term} (noSum : t.isSum = false) (noProduct : t.isProduct = false)
    (state : Nat) : t.Leads state := by
  cases t with
  | number => trivial
  | sum => cases noSum
  | product => cases noProduct
  | group => trivial

theorem Term.LeftGrouped.readable {t : Term} (left : t.LeftGrouped) {state : Nat} {next : Terminal}
    (follows : next ∈ lookaheads) (leads : t.Leads state) : t.Readable .ambiguous state next := by
  induction t generalizing state next with
  | number value span => exact .number (reduces_lookahead follows).1
  | sum first operator last ihf ihl =>
    obtain ⟨leftf, leftl, noSum, noProduct⟩ := left
    obtain ⟨goes, stays⟩ := (shifts_operator .ambiguous state leads).1
    have one := ihf leftf (List.mem_cons_self ..) (first.leads_outside leads)
    have other : last.Readable .ambiguous 5 next :=
      ihl leftl follows (Term.leads_of_plain noSum noProduct 5)
    exact .sum one goes stays other ((reduces_lookahead follows).2.2.2 (.inl rfl))
  | product first operator last ihf ihl =>
    obtain ⟨leftf, leftl, noSum, noProduct⟩ := left
    obtain ⟨goes, stays⟩ := (shifts_operator .ambiguous state leads).2
    have one := ihf leftf (List.mem_cons_of_mem _ (List.mem_cons_self ..))
      (first.leads_outside leads)
    have other : last.Readable .ambiguous 6 next :=
      ihl leftl follows (Term.leads_of_plain noSum noProduct 6)
    exact .product one goes stays other (reduces_lookahead follows).2.2.1
  | group opening inner closing ih =>
    have whole : inner.Readable .ambiguous 2 .rightParen :=
      ih left (by simp [lookaheads]) (inner.leads_outside (by simp))
    exact .group whole (reduces_lookahead follows).2.1

private theorem arrives_parsed (grouped : p.table = table g) (token : Lexeme) :
    p.Arrives token .accepted [0, 0] extent (extent [3, 0]) := by
  intro frames made frames' found move same
  obtain ⟨production, entry, reduced⟩ :=
    (Parser.mem_moves_of_ne_shifted found Fate.noConfusion).mp move
  obtain ⟨rule, listed, arity, start, rfl⟩ := Parser.reduct_accepted_iff.mp reduced
  rw [grouped, production?_eq] at listed
  have whole : rule.arity = 1 := by
    have known : ∀ rule ∈ emptyTable.productions, rule.isStart = true → rule.arity = 1 := by decide
    exact known rule (List.mem_of_getElem? listed) start
  rw [whole] at arity same
  have base : frames.drop 1 = [] := by
    have lengths := congrArg List.length same
    simp only [Frame.states, List.length_append, List.length_map, List.length_cons, List.length_nil]
      at lengths
    exact List.eq_nil_of_length_eq_zero (by omega)
  obtain ⟨⟨state, content⟩, rfl⟩ : ∃ frame, frames = [frame] :=
    List.length_eq_one_iff.mp (Nat.le_antisymm (List.drop_eq_nil_iff.mp base) arity)
  have other : state ≠ 1 := by
    rintro rfl
    rw [rules_eq grouped] at entry
    obtain rfl := (reduces_eq g token.terminal).1 production entry
    cases listed
    cases start
  simp [extent, other]

theorem any_isEnd_yield (t : Term) : t.yield.any Lexeme.isEnd = false := by
  induction t with
  | number => rfl
  | sum left operator right l r => simp [Term.yield, l, r, Mark.token, Lexeme.isEnd]
  | product left operator right l r => simp [Term.yield, l, r, Mark.token, Lexeme.isEnd]
  | group opening inner closing ih => simp [Term.yield, ih, Mark.token, Lexeme.isEnd]

/-- A branch that is in front and comes to a whole expression at the end of the input is the one that is
accepted. -/
theorem exists_accepted_of_front (grouped : p.table = table g) {beside : List Nat → List Nat → Prop}
    (outruns : (table g).Outruns (K := Lexeme) extent 2 beside) {frames : List (Frame Lexeme V)}
    {s : Branching Lexeme V} (front : Branching.Front beside frames s) {bound : Nat}
    (stage : Stage bound false s) {tokens : List Lexeme} {last : Lexeme} {v : V}
    (hurries : p.Hurries tokens last frames [⟨3, .reduced v⟩])
    (goes : tokens.any Token.isEnd = false) (ends : last.isEnd = true) {fuel : Nat}
    (enough : 2 * bound + 4 * tokens.length + 8 ≤ fuel) :
    ∃ after, Branching.parse Branch.merge fuel p (tokens ++ [last]) s = .ok after ∧ after.live = [] ∧
      ∃ serial, after.accepted =
        [{ frames := [⟨0, .reduced (p.reducer Rule.start.index [.reduced v] last)⟩], serial }] := by
  -- That the branch is among the results follows from its being in front; that there is one result only
  -- follows from the stage.
  have final : last.terminal = .endOfInput := isEnd_eq_true_iff.mp ends
  obtain ⟨ready, rushes, hastens⟩ := hurries
  rw [← grouped] at outruns
  obtain ⟨before, fed, idle, stage'⟩ := stage.parse grouped front.idle tokens (by omega : _ ≤ fuel)
  obtain ⟨after, taken, stage''⟩ := stage'.input grouped idle last (by omega : _ ≤ fuel)
  have none : before.accepted = [] := by
    rw [goes] at stage'
    cases stage' with
    | ongoing _ _ none => exact none
  have shifts : (table g).shifts 3 last.terminal.index = [] := by
    rw [final]
    cases g <;> rfl
  have reduces : (table g).reduces 3 last.terminal.index = [Rule.start.index] := by
    rw [final]
    cases g <;> rfl
  obtain ⟨serial, member⟩ := (front.parse outruns rushes fed).finish outruns hastens
    (movesOn_reduce grouped shifts reduces (reduct_parsed grouped last (.reduced v)))
    (arrives_parsed grouped last) none taken
  rw [show Token.isEnd last = true from ends, Bool.or_true] at stage''
  refine ⟨after, ?_, ?_⟩
  · rw [Branching.parse_append, fed]
    change Branching.parse _ _ _ [last] before = _
    rw [Branching.parse, taken]
    rfl
  · cases stage'' with
    | finished live accepted _ =>
      rw [accepted] at member
      refine ⟨live, serial, ?_⟩
      rw [accepted, List.mem_singleton.mp member]

theorem Denotes.exists_parse_of_readable (denotes : Denotes g p denote)
    {beside : List Nat → List Nat → Prop} (outruns : (table g).Outruns (K := Lexeme) extent 2 beside)
    (begins : beside [0] [0]) {t : Term} (readable : t.Readable g 0 .endOfInput) {last : Lexeme}
    (ends : last.isEnd = true) {fuel : Nat} (enough : 4 * t.yield.length + 8 ≤ fuel) :
    ∃ s, Branching.parse Branch.merge fuel p (t.yield ++ [last]) .start = .ok s ∧ s.live = [] ∧
      ∃ serial, s.accepted = [{ frames := [⟨0, .reduced (denote t)⟩], serial }] := by
  have hurries := denotes.hurries [] last (by simp [Frame.top])
    ((isEnd_eq_true_iff.mp ends).symm ▸ readable)
  have run := exists_accepted_of_front denotes.grouped outruns (.start begins) .start hurries
    (any_isEnd_yield t) ends (by omega : 2 * 0 + 4 * t.yield.length + 8 ≤ fuel)
  rwa [denotes.start] at run

/-- Of all parses of a left-grouped term its own one is accepted, and its value is the result. -/
theorem Denotes.exists_parse (denotes : Denotes .ambiguous p denote) {t : Term}
    (left : t.LeftGrouped) {last : Lexeme} (ends : last.isEnd = true) {fuel : Nat}
    (enough : 4 * t.yield.length + 8 ≤ fuel) :
    ∃ s, Branching.parse Branch.merge fuel p (t.yield ++ [last]) .start = .ok s ∧ s.live = [] ∧
      ∃ serial, s.accepted = [{ frames := [⟨0, .reduced (denote t)⟩], serial }] :=
  denotes.exists_parse_of_readable outruns (.awaiting .root)
    (left.readable (by simp [lookaheads]) (t.leads_outside (by simp))) ends enough

/-- A sentence has only one left-grouped term, for it is what the parser keeps. -/
theorem Term.LeftGrouped.unique {t t' : Term} (left : t.LeftGrouped) (left' : t'.LeftGrouped)
    (same : t.yield = t'.yield) : t = t' := by
  have ends : Lexeme.isEnd { terminal := .endOfInput } = true := rfl
  obtain ⟨s, run, -, serial, accepted⟩ := Term.denotes_build.exists_parse left ends (Nat.le_refl _)
  obtain ⟨s', run', -, serial', accepted'⟩ :=
    Term.denotes_build.exists_parse left' ends (Nat.le_refl _)
  rw [same] at run
  cases run.symm.trans run'
  rw [accepted] at accepted'
  simp only [List.cons.injEq, Branch.mk.injEq, Frame.mk.injEq, Content.reduced.injEq] at accepted'
  exact accepted'.1.1.1.2

/-- Without precedence every sentence has one parse for a result, and it is that of the only term in
which operators apply from left to right between two parentheses. -/
theorem parse_ambiguous (t : Term) (codes : ErrorCodes) (last : Mark) (more : Nat) :
    ∃ tree : Term, (∀ other, other.LeftGrouped ∧ other.yield = t.yield ↔ other = tree) ∧
      ∃ e head expr, Engine.parse (4 * t.yield.length + 8 + more) (parser .ambiguous codes)
          (t.yield ++ [last.token .endOfInput]) .start = .ok e ∧
        e.heads = [] ∧ e.accepted = [head] ∧ head.errors = [] ∧ e.result 0 = .ok expr ∧
          expr.text = tree.render ∧ expr.value = tree.eval := by
  have left := t.leftGrouped_leftward
  have same := t.yield_leftward
  refine ⟨t.leftward, fun other => ⟨fun ⟨also, derives⟩ => ?_, ?_⟩, ?_⟩
  · exact also.unique left (derives.trans same.symm)
  · rintro rfl
    exact ⟨left, same⟩
  · have ends : (last.token .endOfInput).isEnd = true := rfl
    obtain ⟨s, run, live, serial, accepted⟩ := (Term.denotes_expr codes).exists_parse left ends
      (Nat.le_add_right _ more)
    rw [same] at run
    obtain ⟨e, parsed, shows⟩ := Engine.exists_parse_of_branching run
    obtain ⟨head, heads, errors, result⟩ := shows.result accepted rfl
    refine ⟨e, head, t.leftward.expr, parsed, ?_, heads, errors, result, Term.text_expr _,
      Term.value_expr _⟩
    exact List.forall₂_nil_right_iff.mp (live ▸ shows.live)

end GeneralizedLR.Arithmetic
