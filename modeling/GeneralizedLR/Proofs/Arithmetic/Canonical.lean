import GeneralizedLR.Proofs.Arithmetic.Composition
import GeneralizedLR.Proofs.Arithmetic.Groupings
import GeneralizedLR.Proofs.Arithmetic.Lexer

/-!
The text of an expression as a canonical form. Whatever was repaired to read an expression, if none of
its operands is unknown then it is the expression of a term over the numbers of its source. Its text has
parentheses around every operation, and scanned again it gives the tokens of the same term with these
parentheses in it. Such a term leaves nothing to group, so both groupings read it as it stands.
-/

set_option autoImplicit false
set_option relaxedAutoImplicit false

namespace GeneralizedLR.Arithmetic

section Enclosed

/-- The second term is the first one with a pair of parentheses around every operation and no others,
wherever its tokens stand. -/
inductive Term.Encloses : Term → Term → Prop
  | number {value : Int64} {span span' : Option Span} :
      Term.Encloses (.number value span) (.number value span')
  | sum {left right left' right' : Term} {operator opening operator' closing : Mark} :
      left.Encloses left' → right.Encloses right' → Term.Encloses (.sum left operator right)
        (.group opening (.sum left' operator' right') closing)
  | product {left right left' right' : Term} {operator opening operator' closing : Mark} :
      left.Encloses left' → right.Encloses right' → Term.Encloses (.product left operator right)
        (.group opening (.product left' operator' right') closing)
  | group {inner inner' : Term} {opening closing : Mark} :
      inner.Encloses inner' → Term.Encloses (.group opening inner closing) inner'

namespace Term.Encloses

variable {t t' : Term}

theorem render_eq (encloses : t.Encloses t') : t'.render = t.render := by
  induction encloses with
  | number => rfl
  | sum _ _ left right => rw [render, render, render, left, right]
  | product _ _ left right => rw [render, render, render, left, right]
  | group _ inner => exact inner

theorem eval_eq (encloses : t.Encloses t') : t'.eval = t.eval := by
  induction encloses with
  | number => rfl
  | sum _ _ left right => rw [eval, eval, eval, left, right]
  | product _ _ left right => rw [eval, eval, eval, left, right]
  | group _ inner => exact inner

theorem isSum_eq_false (encloses : t.Encloses t') : t'.isSum = false := by
  induction encloses with
  | group _ inner => exact inner
  | _ => rfl

theorem isProduct_eq_false (encloses : t.Encloses t') : t'.isProduct = false := by
  induction encloses with
  | group _ inner => exact inner
  | _ => rfl

theorem standard (encloses : t.Encloses t') : t'.Standard := by
  induction encloses with
  | number => trivial
  | sum _ r left right => exact ⟨left, right, r.isSum_eq_false⟩
  | product l r left right =>
    exact ⟨left, right, l.isSum_eq_false, r.isSum_eq_false, r.isProduct_eq_false⟩
  | group _ inner => exact inner

theorem leftGrouped (encloses : t.Encloses t') : t'.LeftGrouped := by
  induction encloses with
  | number => trivial
  | sum _ r left right => exact ⟨left, right, r.isSum_eq_false, r.isProduct_eq_false⟩
  | product _ r left right => exact ⟨left, right, r.isSum_eq_false, r.isProduct_eq_false⟩
  | group _ inner => exact inner

theorem grouped_eq (encloses : t.Encloses t') (g : Grouping) : t'.grouped g = t' := by
  cases g with
  | ambiguous => exact t'.leftGrouped_leftward.unique encloses.leftGrouped t'.yield_leftward
  | precedence => exact t'.standard_standardize.unique encloses.standard t'.yield_standardize

end Term.Encloses

end Enclosed

section Rendering

def Term.Natural : Term → Prop
  | .number value _ => 0 ≤ value.toInt
  | .sum left _ right => left.Natural ∧ right.Natural
  | .product left _ right => left.Natural ∧ right.Natural
  | .group _ inner _ => inner.Natural

variable {passed rest : List Char} {items : List Scanned}

private theorem items_decimal {value : Int64} (natural : 0 ≤ value.toInt)
    (boundary : ∀ c ∈ rest.head?, c.isDigit = false)
    (more : Items (passed ++ (Number.decimal value).toList) rest items) :
    ∃ span, Items passed ((Number.decimal value).toList ++ rest)
      (.ok (numberToken value span) :: items) :=
  ⟨_, .number (cut_padded natural 0 boundary) (ofDigitChars_padded natural 0) more⟩

private theorem items_punctuation (passed : List Char) (c : Char) {terminal : Terminal}
    (which : punctuation? c = some terminal) (more : Items (passed ++ [c]) rest items) :
    ∃ mark : Mark, Items passed (c :: rest) (.ok (mark.token terminal) :: items) :=
  ⟨⟨.empty, some ⟨place passed, place (passed ++ [c])⟩⟩, .punctuation ⟨c, rfl, which⟩ more⟩

/-- Before anything but a digit, the text of the term is scanned as the tokens of the term with
parentheses around its operations. -/
def Term.Rescans (t : Term) : Prop :=
  ∀ (passed : List Char) {rest : List Char} {items : List Scanned},
    (∀ c ∈ rest.head?, c.isDigit = false) → Items (passed ++ t.render.toList) rest items →
      ∃ t', t.Encloses t' ∧ Items passed (t.render.toList ++ rest) (t'.yield.map .ok ++ items)

private theorem Term.Rescans.operation {left right : Term} (l : left.Rescans) (r : right.Rescans)
    {c : Char} {operator : Terminal} (which : punctuation? c = some operator)
    (more : Items (passed ++ '(' :: (left.render.toList ++ c :: (right.render.toList ++ [')'])))
      rest items) :
    ∃ left' right' opening mark closing, left.Encloses left' ∧ right.Encloses right' ∧
      Items passed ('(' :: (left.render.toList ++ c :: (right.render.toList ++ [')'])) ++ rest)
        (.ok (Mark.token opening .leftParen) :: (left'.yield.map .ok ++
          .ok (Mark.token mark operator) :: (right'.yield.map .ok ++
            [.ok (Mark.token closing .rightParen)])) ++ items) := by
  -- Every piece needs the items behind it, so the text is taken from its end.
  have paren : ∀ c ∈ (')' :: rest).head?, c.isDigit = false := by simp
  have solid (rest : List Char) : ∀ c' ∈ (c :: rest).head?, c'.isDigit = false := by
    simpa using (solid_of_punctuation which).2.2
  obtain ⟨closing, closed⟩ := items_punctuation
    (passed ++ '(' :: (left.render.toList ++ c :: right.render.toList)) ')' rfl (by simpa using more)
  obtain ⟨right', encloses', second⟩ :=
    r (passed ++ '(' :: (left.render.toList ++ [c])) paren (by simpa using closed)
  obtain ⟨mark, operated⟩ := items_punctuation (passed ++ '(' :: left.render.toList) c which
    (by simpa using second)
  obtain ⟨left', encloses, first⟩ := l (passed ++ ['(']) (solid _) (by simpa using operated)
  obtain ⟨opening, opened⟩ := items_punctuation passed '(' rfl first
  exact ⟨left', right', opening, mark, closing, encloses, encloses', by simpa using opened⟩

theorem Term.Natural.rescans {t : Term} (natural : t.Natural) : t.Rescans := by
  induction t with
  | number value span =>
    intro passed rest items boundary more
    obtain ⟨span', scanned⟩ := items_decimal natural boundary more
    exact ⟨.number value span', .number, scanned⟩
  | sum left operator right l r =>
    intro passed rest items boundary more
    have text : (sum left operator right).render.toList =
        '(' :: (left.render.toList ++ '+' :: (right.render.toList ++ [')'])) := by
      simp [render]
    rw [text] at more ⊢
    obtain ⟨left', right', opening, mark, closing, first, second, scanned⟩ :=
      (l natural.1).operation (r natural.2) rfl more
    exact ⟨.group opening (.sum left' mark right') closing, .sum first second,
      by simpa [yield] using scanned⟩
  | product left operator right l r =>
    intro passed rest items boundary more
    have text : (product left operator right).render.toList =
        '(' :: (left.render.toList ++ '*' :: (right.render.toList ++ [')'])) := by
      simp [render]
    rw [text] at more ⊢
    obtain ⟨left', right', opening, mark, closing, first, second, scanned⟩ :=
      (l natural.1).operation (r natural.2) rfl more
    exact ⟨.group opening (.product left' mark right') closing, .product first second,
      by simpa [yield] using scanned⟩
  | group opening inner closing ih =>
    intro passed rest items boundary more
    obtain ⟨t', encloses, scanned⟩ := ih natural passed boundary more
    exact ⟨t', .group encloses, scanned⟩

theorem Term.Natural.exists_tokenize {t : Term} (natural : t.Natural) :
    ∃ t' last, t.Encloses t' ∧ Lexeme.isEnd last = true ∧
      tokenize t.render = .ok (t'.yield ++ [last]) := by
  let stop := place t.render.toList
  let last : Lexeme := { terminal := .endOfInput, span := some ⟨stop, stop⟩ }
  have ended : Items ([] ++ t.render.toList) [] [.ok last] := .finish t.render.toList
  obtain ⟨t', encloses, listed⟩ := natural.rescans [] (by simp) ended
  rw [List.append_nil] at listed
  refine ⟨t', last, encloses, rfl, tokenize_of_scan ?_⟩
  rw [scan_eq_of_items listed, List.map_append, List.map_singleton]

end Rendering

section Numbers

def Lexeme.Natural (token : Lexeme) : Prop :=
  ∀ value, token.payload = .number value → 0 ≤ value.toInt

theorem Items.natural {passed rest : List Char} {items : List Scanned} (listed : Items passed rest items) :
    ∀ token : Lexeme, .ok token ∈ items → token.Natural := by
  induction listed with
  | finish passed => simp [Lexeme.Natural]
  | layout _ _ _ ih => exact ih
  | number _ reads _ ih =>
    rintro token (_ | ⟨_, member⟩) value payload
    · cases payload
      exact reads ▸ Int.natCast_nonneg _
    · exact ih token member value payload
  | tooLarge => simp
  | punctuation _ _ ih =>
    rintro token (_ | ⟨_, member⟩) value payload
    · cases payload
    · exact ih token member value payload
  | stray => simp

theorem natural_of_mem_tokenize {source : String} {tokens : List Lexeme}
    (run : tokenize source = .ok tokens) : ∀ token ∈ tokens, token.Natural := by
  intro token member
  refine (items_scan source).natural token ?_
  rw [tokenize_eq_ok run]
  exact List.mem_map_of_mem member

private theorem Expr.not_mem_of_binary {symbol : String} {apply : Int64 → Int64 → Option Int64}
    {left right : Expr} {c : Char} (absent : c ∉ (binary symbol apply left right).text.toList) :
    c ∉ left.text.toList ∧ c ∉ right.text.toList := by
  simp only [binary, String.toList_append, List.mem_append, not_or] at absent
  exact ⟨absent.1.1.1.2, absent.1.2⟩

/-- An expression that shows no question mark is that of a term over the numbers it is composed of. -/
theorem Expr.ComposedOf.exists_term {expr : Expr} {tokens : List Lexeme} (composed : expr.ComposedOf tokens)
    (natural : ∀ token ∈ tokens, token.Natural) (known : '?' ∉ expr.text.toList) :
    ∃ t : Term, t.Natural ∧ t.expr = expr := by
  induction composed with
  | @number token kind =>
    by_cases valued : ∃ value, token.payload = .number value
    · obtain ⟨value, payload⟩ := valued
      refine ⟨.number value token.span, natural token (by simp) value payload, ?_⟩
      simp [ofNumber, payload, Term.expr]
    · have unsettled := (Expr.ComposedOf.number kind).unsettled (List.mem_singleton_self token) kind
        (not_exists.mp valued)
      exact absurd unsettled.text known
  | sum _ _ _ left right =>
    obtain ⟨known, known'⟩ := not_mem_of_binary known
    obtain ⟨l, natural', rfl⟩ := left (fun token member => natural token (by simp [member])) known
    obtain ⟨r, natural'', rfl⟩ := right (fun token member => natural token (by simp [member])) known'
    exact ⟨.sum l {} r, ⟨natural', natural''⟩, rfl⟩
  | product _ _ _ left right =>
    obtain ⟨known, known'⟩ := not_mem_of_binary known
    obtain ⟨l, natural', rfl⟩ := left (fun token member => natural token (by simp [member])) known
    obtain ⟨r, natural'', rfl⟩ := right (fun token member => natural token (by simp [member])) known'
    exact ⟨.product l {} r, ⟨natural', natural''⟩, rfl⟩
  | @group inner tokens opening closing _ _ _ ih =>
    obtain ⟨t, natural', rfl⟩ := ih (fun token member => natural token (by simp [member])) known
    exact ⟨.group ⟨.empty, opening.span⟩ t ⟨.empty, closing.span⟩, natural', rfl⟩

end Numbers

section Evaluate

variable {g : Grouping} {codes : ErrorCodes} {source : String}

theorem exists_term_of_evaluate {found : Evaluation} (evaluated : evaluate g codes source = .ok found)
    (known : '?' ∉ found.expr.text.toList) : ∃ t : Term, t.Natural ∧ t.expr = found.expr := by
  cases scanned : tokenize source with
  | error cause =>
    rw [evaluate_of_tokenize_eq_error scanned] at evaluated
    cases evaluated
  | ok tokens =>
    obtain ⟨s, b, v, stats, run, accepted, frames, same⟩ := exists_evaluation g codes scanned
    rw [same] at evaluated
    cases evaluated
    have resulting := (composed_of_reached (Branching.Reached.start.parse run)).2 b (by simp [accepted])
    obtain ⟨before, last, future, expr, read, split, -, frames', composed, stems, -⟩ := resulting
    rw [frames] at frames'
    cases frames'
    refine composed.exists_term (fun token member => ?_) known
    rcases stems token member with given | ⟨description, inserted⟩
    · refine natural_of_mem_tokenize scanned token ?_
      rw [List.nil_append] at split
      exact split ▸ List.mem_append_left _ given
    · intro value payload
      rw [inserted] at payload
      cases payload

theorem Term.Natural.exists_evaluate {t : Term} (natural : t.Natural) (g : Grouping) (codes : ErrorCodes) :
    ∃ found, evaluate g codes t.render = .ok found ∧ found.expr.text = t.render ∧
      found.expr.value = t.eval ∧ found.diagnostics = [] := by
  obtain ⟨t', last, encloses, ends, scanned⟩ := natural.exists_tokenize
  obtain ⟨stats, evaluated⟩ := t'.exists_evaluation_grouped g codes scanned ends
  rw [encloses.grouped_eq g] at evaluated
  refine ⟨_, evaluated, ?_, ?_, rfl⟩
  · rw [text_expr, encloses.render_eq]
  · rw [value_expr, encloses.eval_eq]

/-- The text of a result is a canonical form: if it has no question mark, then whatever was repaired and
whether or not the value fits, each grouping evaluates it to the same text and value without an error. -/
theorem evaluate_canonical {found : Evaluation} (evaluated : evaluate g codes source = .ok found)
    (known : '?' ∉ found.expr.text.toList) (g' : Grouping) (codes' : ErrorCodes) :
    ∃ again, evaluate g' codes' found.expr.text = .ok again ∧ again.expr.text = found.expr.text ∧
      again.expr.value = found.expr.value ∧ again.diagnostics = [] := by
  obtain ⟨t, natural, same⟩ := exists_term_of_evaluate evaluated known
  have found' := natural.exists_evaluate g' codes'
  rw [← t.text_expr, ← t.value_expr, same] at found'
  exact found'

theorem evaluate_canonical_repaired :
    ∃ found again, evaluate .ambiguous {} "9223372036854775807 + 007) * 3" = .ok found ∧
      found.expr.text = "((9223372036854775807+7)*3)" ∧ found.expr.value = none ∧
      found.diagnostics.length = 1 ∧ '?' ∉ found.expr.text.toList ∧
      evaluate .precedence {} found.expr.text = .ok again ∧ again.expr.text = found.expr.text ∧
      again.expr.value = none ∧ again.diagnostics = [] := by
  have shown : (evaluate .ambiguous {} "9223372036854775807 + 007) * 3").toOption.map
      (fun found => (found.expr.text, found.expr.value, found.diagnostics.length)) =
        some ("((9223372036854775807+7)*3)", none, 1) := by
    decide +kernel
  cases evaluated : evaluate .ambiguous {} "9223372036854775807 + 007) * 3" with
  | error cause =>
    rw [evaluated] at shown
    cases shown
  | ok found =>
    rw [evaluated] at shown
    replace shown : (found.expr.text, found.expr.value, found.diagnostics.length) = _ :=
      Option.some.inj shown
    obtain ⟨text, value, reports⟩ : _ ∧ _ ∧ _ := by simpa only [Prod.mk.injEq] using shown
    have known : '?' ∉ found.expr.text.toList := by
      rw [text]
      decide
    obtain ⟨again, evaluated', same, same', none⟩ := evaluate_canonical evaluated known .precedence {}
    exact ⟨found, again, rfl, text, value, reports, known, evaluated', same, same'.trans value, none⟩

end Evaluate

end GeneralizedLR.Arithmetic
