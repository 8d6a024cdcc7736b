import GeneralizedLR.Proofs.Arithmetic.Leftward
import GeneralizedLR.Proofs.Arithmetic.Precedence

/-!
What both groupings have in common. Of the terms of a sentence, each of them keeps one: the standard
term with precedence, the left-grouped one without. The branch that reads it is in front of all others,
and it stays there if the parse is taken up behind a whole expression.
-/

set_option autoImplicit false
set_option relaxedAutoImplicit false

namespace GeneralizedLR.Arithmetic

open Relation (ReflTransGen)

section Outruns

variable {g : Grouping} {token : Lexeme} {stack stack' : List Nat}

private theorem rightUnique_reduces : Relator.RightUnique ((table g).Reduces token) := by
  intro stack stack' stack'' first second
  obtain ⟨-, state, below, -, rfl, shape⟩ := reduces_cases first
  rcases shape with rfl | ⟨top, inner, lowest, which, rfl⟩
  · exact (eq_of_reduces_primary (by simp : [1] ∈ [[1], [7, 4, 2]]) second).symm
  · obtain ⟨-, _, _, -, rfl, same | ⟨_, _, _, -, same⟩⟩ := reduces_cases second
    · cases same
      simp at which
    · cases same
      rfl

private theorem not_reduces_of_shifts (shifts : (table .precedence).Shifts token stack stack')
    (next : List Nat) : ¬ (table .precedence).Reduces token stack next := by
  intro reduces
  obtain @⟨state, _, _, entry⟩ := shifts
  obtain ⟨uncovers, -⟩ := reduces
  obtain ⟨entry', -⟩ := uncovers
  rw [classify_eq] at entry entry'
  rcases exclusive_precedence state token.terminal.index with none | none
  · rw [none] at entry
    cases entry
  · rw [none] at entry'
    cases entry'

private theorem outruns_precedence :
    (table .precedence).Outruns (K := Lexeme) extent 2 (fun lead stack => stack = lead) where
  paced := paced
  shorter _ _ same := .inl same
  shift := by
    rintro token lead ready after _ ready' after' rfl chain still shifts chain' shifts'
    have same : ready = ready' := by
      rcases ReflTransGen.total_of_right_unique rightUnique_reduces chain chain' with rest | rest
      · exact ((Relation.reflTransGen_iff_eq still).mp rest).symm
      · exact (Relation.reflTransGen_iff_eq (not_reduces_of_shifts shifts')).mp rest
    rw [eq_of_shifts shifts, eq_of_shifts shifts', same]

private theorem outruns_ambiguous : (table .ambiguous).Outruns (K := Lexeme) extent 2
    (fun lead stack => Beside lead stack ∨ lead = [3, 0] ∧ stack = [3, 0]) where
  paced := paced
  shorter := by
    rintro lead stack (beside | ⟨rfl, rfl⟩)
    · exact beside.shorter
    · exact .inl rfl
  shift := by
    rintro token lead ready after stack ready' after' (beside | ⟨rfl, rfl⟩) chain still shifts chain'
      shifts'
    · exact .inl (beside.shift chain still shifts chain' shifts')
    · have settled : ∀ next, ¬ (table .ambiguous).Reduces token [3, 0] next :=
        fun _ => not_reduces_outside (by simp : 0 ∈ [0, 2]) [0]
      obtain rfl := (Relation.reflTransGen_iff_eq settled).mp chain
      obtain rfl := (Relation.reflTransGen_iff_eq settled).mp chain'
      obtain rfl := eq_of_shifts shifts
      obtain rfl := eq_of_shifts shifts'
      have operator : entered token.terminal ∈ [5, 6] :=
        (terminal_of_shifts_expression (by simp : 0 ∈ [0, 2, 5, 6]) shifts).resolve_right (by simp)
      exact .inl (.awaiting (.first (by simp) operator .root))

/-- The stack that is reduced as far as it can be is the shortest one, from the start and from a whole
expression on. -/
theorem exists_outruns (g : Grouping) : ∃ beside, (table g).Outruns (K := Lexeme) extent 2 beside ∧
    beside [0] [0] ∧ beside [3, 0] [3, 0] := by
  cases g with
  | ambiguous => exact ⟨_, outruns_ambiguous, .inl (.awaiting .root), .inr ⟨rfl, rfl⟩⟩
  | precedence => exact ⟨_, outruns_precedence, rfl, rfl⟩

end Outruns

section Terms

def Term.grouped : Grouping → Term → Term
  | .ambiguous, t => t.leftward
  | .precedence, t => t.standardize

theorem Term.yield_grouped (g : Grouping) (t : Term) : (t.grouped g).yield = t.yield := by
  cases g with
  | ambiguous => exact t.yield_leftward
  | precedence => exact t.yield_standardize

theorem Term.readable_grouped (g : Grouping) (t : Term) {next : Terminal} (follows : next ∈ lookaheads)
    (done : g = .precedence → next = .star → (t.grouped g).isSum = false) :
    (t.grouped g).Readable g 0 next := by
  cases g with
  | ambiguous => exact t.leftGrouped_leftward.readable follows (Term.leads_outside _ (by simp))
  | precedence =>
    refine t.standard_standardize.readable follows ?_
    by_cases product : next = .star
    · exact Term.stands_of_isSum (done rfl product) (.inl (by simp))
    · exact Term.stands_outside _ (by simp) product

variable {g : Grouping} {V : Type} {p : Parser Lexeme V} {denote : Term → V}

theorem Denotes.exists_parse_grouped (denotes : Denotes g p denote) (t : Term) {last : Lexeme}
    (ends : last.isEnd = true) {fuel : Nat} (enough : 4 * t.yield.length + 8 ≤ fuel) :
    ∃ s, Branching.parse Branch.merge fuel p (t.yield ++ [last]) .start = .ok s ∧ s.live = [] ∧
      ∃ serial, s.accepted = [{ frames := [⟨0, .reduced (denote (t.grouped g))⟩], serial }] := by
  obtain ⟨beside, outruns, begins, -⟩ := exists_outruns g
  have readable := t.readable_grouped g (by simp [lookaheads] : Terminal.endOfInput ∈ lookaheads)
    (fun _ => (nomatch ·))
  rw [← t.yield_grouped g] at enough ⊢
  exact denotes.exists_parse_of_readable outruns begins readable ends enough

/-- A source whose tokens are those of a term is evaluated to the expression of the term that the parser
makes of it, and nothing is reported. -/
theorem Term.exists_evaluation_grouped (t : Term) (g : Grouping) (codes : ErrorCodes) {source : String}
    {last : Lexeme} (scanned : tokenize source = .ok (t.yield ++ [last])) (ends : last.isEnd = true) :
    ∃ stats, evaluate g codes source = .ok ⟨(t.grouped g).expr, [], stats⟩ := by
  obtain ⟨s, b, v, stats, run, accepted, frames, evaluated⟩ := exists_evaluation g codes scanned
  have enough : 4 * t.yield.length + 8 ≤ fuelFor source := by
    have listed : 4 * (t.yield ++ [last]).length + 4 ≤ fuelFor source :=
      enough_fuelFor source (by rw [tokenize_eq_ok scanned, List.length_map])
    rw [List.length_append, List.length_singleton] at listed
    omega
  obtain ⟨s', run', -, serial, accepted'⟩ := (denotes_expr codes).exists_parse_grouped t ends enough
  rw [run] at run'
  cases run'
  rw [accepted] at accepted'
  cases accepted'
  cases frames
  exact ⟨stats, evaluated⟩

end Terms

end GeneralizedLR.Arithmetic
