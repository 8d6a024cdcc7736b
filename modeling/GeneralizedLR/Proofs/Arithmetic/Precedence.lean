import GeneralizedLR.Proofs.Arithmetic.Denotation
import GeneralizedLR.Proofs.Arithmetic.Totality
import GeneralizedLR.Proofs.Engine.Single

/-!
With precedence the parser reads every sentence without a choice, and what it reads is the standard
term of the sentence. So a sentence has just one standard term, and its value is the value of that
term.
-/

set_option autoImplicit false
set_option relaxedAutoImplicit false

namespace GeneralizedLR.Arithmetic

/-- Where a term can be read in one piece: behind `+` no sum and behind `*` nothing with an operator,
and before `*` no sum. -/
def Term.Stands (state : Nat) (next : Terminal) : Term → Prop
  | .sum .. => state ∈ [0, 2] ∧ next ≠ .star
  | .product .. => state ∈ [0, 2, 5]
  | _ => True

theorem Term.stands_outside (t : Term) {state : Nat} {next : Terminal} (outside : state ∈ [0, 2])
    (other : next ≠ .star) : t.Stands state next := by
  cases t with
  | number => trivial
  | sum => exact ⟨outside, other⟩
  | product => exact List.mem_append_left [5] outside
  | group => trivial

theorem Term.stands_of_isSum {t : Term} (plain : t.isSum = false) {state : Nat} {next : Terminal}
    (inside : state ∈ [0, 2, 5] ∨ t.isProduct = false) : t.Stands state next := by
  cases t with
  | number => trivial
  | sum => cases plain
  | product => exact inside.resolve_right Bool.noConfusion
  | group => trivial

variable {V : Type} {p : Parser Lexeme V} {denote : Term → V}

theorem exclusive_precedence (state symbol : Nat) : (table .precedence).shifts state symbol = [] ∨
    (table .precedence).reduces state symbol = [] := by
  have entries : ∀ shift ∈ (table .precedence).shiftEntries,
      ∀ reduce ∈ (table .precedence).reduceEntries,
        shift.state = reduce.state → shift.symbol ≠ reduce.symbol := by
    decide
  by_contra both
  obtain ⟨some, some'⟩ := not_or.mp both
  obtain ⟨target, shift⟩ := List.exists_mem_of_ne_nil _ some
  obtain ⟨number, reduce⟩ := List.exists_mem_of_ne_nil _ some'
  exact entries _ (Transition.mem_targets_iff.mp shift) _ (Transition.mem_targets_iff.mp reduce) rfl rfl

theorem decided_precedence (grouped : p.table = table .precedence) : p.Decided := by
  intro token frames
  rw [targets_eq grouped, rules_eq grouped]
  exact exclusive_precedence ..

private theorem shifts_star : ∀ state ∈ [0, 2, 5],
    (table .precedence).shifts (behind state) Terminal.star.index = [6] ∧
      (table .precedence).reduces (behind state) Terminal.star.index = [] := by
  decide

theorem Term.Standard.readable {t : Term} (standard : t.Standard) {state : Nat} {next : Terminal}
    (follows : next ∈ lookaheads) (stands : t.Stands state next) :
    t.Readable .precedence state next := by
  induction t generalizing state next with
  | number value span => exact .number (reduces_lookahead follows).1
  | sum left operator right ihl ihr =>
    obtain ⟨standardl, standardr, plain⟩ := standard
    obtain ⟨outside, other⟩ := stands
    obtain ⟨goes, stays⟩ := (shifts_operator .precedence state outside).1
    have first := ihl standardl (List.mem_cons_self ..)
      (left.stands_outside outside Terminal.noConfusion)
    have second : right.Readable .precedence 5 next :=
      ihr standardr follows (Term.stands_of_isSum plain (.inl (by simp)))
    exact .sum first goes stays second ((reduces_lookahead follows).2.2.2 (.inr other))
  | product left operator right ihl ihr =>
    obtain ⟨standardl, standardr, plainl, plainr, atom⟩ := standard
    obtain ⟨goes, stays⟩ := shifts_star state stands
    have first := ihl standardl (List.mem_cons_of_mem _ (List.mem_cons_self ..))
      (Term.stands_of_isSum plainl (.inl stands))
    have second : right.Readable .precedence 6 next :=
      ihr standardr follows (Term.stands_of_isSum plainr (.inr atom))
    exact .product first goes stays second (reduces_lookahead follows).2.2.1
  | group opening inner closing ih =>
    have whole : inner.Readable .precedence 2 .rightParen :=
      ih standard (by simp [lookaheads]) (inner.stands_outside (by simp) Terminal.noConfusion)
    exact .group whole (reduces_lookahead follows).2.1

theorem Denotes.reads (denotes : Denotes .precedence p denote) {t : Term} (standard : t.Standard)
    (stack : List (Frame Lexeme V)) (next : Lexeme) (operand : Frame.top stack ∈ [0, 2, 5, 6])
    (follows : next.terminal ∈ lookaheads) (stands : t.Stands (Frame.top stack) next.terminal) :
    p.Reads t.yield next stack
      (⟨behind (Frame.top stack), .reduced (denote t)⟩ :: stack) :=
  (denotes.hurries stack next operand (standard.readable follows stands)).reads
    (decided_precedence denotes.grouped)

theorem Denotes.parse (denotes : Denotes .precedence p denote) {t : Term} (standard : t.Standard)
    {last : Lexeme} (ends : last.isEnd = true) {fuel : Nat} {s : Branching Lexeme V}
    (run : Branching.parse Branch.merge fuel p (t.yield ++ [last]) .start = .ok s) :
    s.live = [] ∧ (∃ serial, s.accepted = [{ frames := [⟨0, .reduced (denote t)⟩], serial }]) ∧
      s.stats.forks = 0 := by
  have grouped := denotes.grouped
  have final : last.terminal = .endOfInput := isEnd_eq_true_iff.mp ends
  obtain ⟨frames, feeds, settles⟩ := denotes.reads standard [] last (by simp [Frame.top])
    (by simp [final, lookaheads]) (t.stands_outside (by simp [Frame.top]) (by simp [final]))
  have accepts := reduct_parsed grouped last (.reduced (denote t))
  rw [denotes.start] at accepts
  rw [Branching.parse_append] at run
  obtain ⟨before, fed, run⟩ := exists_of_bind_eq_ok run
  obtain ⟨after, taken, done⟩ := exists_of_bind_eq_ok run
  cases done
  refine (Branching.alone_start.parse feeds fed).finish settles
    (movesOn_reduce grouped ?_ ?_ accepts) taken
  · rw [final]
    rfl
  · rw [final]
    rfl

/-- A sentence has only one standard term, for it is what the parser puts together. -/
theorem Term.Standard.unique {t t' : Term} (standard : t.Standard) (standard' : t'.Standard)
    (same : t.yield = t'.yield) : t = t' := by
  have ends : Lexeme.isEnd { terminal := .endOfInput } = true := rfl
  obtain ⟨s, run, -⟩ := exists_parse (p := { table := table .precedence, reducer := Term.build })
    (g := .precedence) rfl (t.yield ++ [{ terminal := .endOfInput }]) (Nat.le_refl _)
  obtain ⟨-, ⟨serial, accepted⟩, -⟩ := Term.denotes_build.parse standard ends run
  rw [same] at run
  obtain ⟨-, ⟨serial', accepted'⟩, -⟩ := Term.denotes_build.parse standard' ends run
  rw [accepted] at accepted'
  simp only [List.cons.injEq, Branch.mk.injEq, Frame.mk.injEq, Content.reduced.injEq] at accepted'
  exact accepted'.1.1.1.2

/-- With precedence every sentence is read without a fork or a repair, and the result is that of its
only standard term. -/
theorem parse_precedence (t : Term) (codes : ErrorCodes) (last : Mark) (more : Nat) :
    ∃ tree : Term, (∀ other, other.Standard ∧ other.yield = t.yield ↔ other = tree) ∧
      ∃ e head expr, Engine.parse (4 * t.yield.length + 8 + more) (parser .precedence codes)
          (t.yield ++ [last.token .endOfInput]) .start = .ok e ∧
        e.heads = [] ∧ e.accepted = [head] ∧ head.errors = [] ∧ e.result 0 = .ok expr ∧
          expr.text = tree.render ∧ expr.value = tree.eval ∧ e.stats.forks = 0 := by
  have standard := t.standard_standardize
  have same := t.yield_standardize
  refine ⟨t.standardize, fun other => ⟨fun ⟨also, derives⟩ => ?_, ?_⟩, ?_⟩
  · exact also.unique standard (derives.trans same.symm)
  · rintro rfl
    exact ⟨standard, same⟩
  · have length : (t.yield ++ [last.token .endOfInput]).length = t.yield.length + 1 := by simp
    obtain ⟨s, run, -⟩ := exists_parse (p := parser .precedence codes) (g := .precedence) rfl
      (t.yield ++ [last.token .endOfInput]) (by omega : _ ≤ 4 * t.yield.length + 8 + more)
    obtain ⟨e, parsed, shows⟩ := Engine.exists_parse_of_branching run
    rw [← same] at run
    obtain ⟨live, ⟨serial, accepted⟩, forks⟩ := (Term.denotes_expr codes).parse standard rfl run
    obtain ⟨head, heads, errors, result⟩ := shows.result accepted rfl
    refine ⟨e, head, t.standardize.expr, parsed, ?_, heads, errors, result, Term.text_expr _,
      Term.value_expr _, ?_⟩
    · exact List.forall₂_nil_right_iff.mp (live ▸ shows.live)
    · exact (congrArg Stats.forks shows.stats).trans forks

end GeneralizedLR.Arithmetic
