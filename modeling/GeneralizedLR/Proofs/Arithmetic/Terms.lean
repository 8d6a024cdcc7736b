import GeneralizedLR.Arithmetic.Grammar

/-!
The grammar of arithmetic. A term is a derivation of a sentence with its tokens, however the operators
are grouped. In a standard term products bind tighter than sums and both group to the left, and in a
left-grouped term operators apply in the order in which they stand. Every sentence is derived by a
standard term and by a left-grouped one.
-/

set_option autoImplicit false
set_option relaxedAutoImplicit false

namespace GeneralizedLR.Arithmetic

structure Mark where
  payload : Payload := .empty
  span : Option Span := none

def Mark.token (mark : Mark) (terminal : Terminal) : Lexeme :=
  { terminal, payload := mark.payload, span := mark.span }

inductive Term where
  | number (value : Int64) (span : Option Span)
  | sum (left : Term) (operator : Mark) (right : Term)
  | product (left : Term) (operator : Mark) (right : Term)
  | group (opening : Mark) (inner : Term) (closing : Mark)

namespace Term

def yield : Term → List Lexeme
  | number value span => [{ terminal := .number, payload := .number value, span }]
  | sum left operator right => left.yield ++ operator.token .plus :: right.yield
  | product left operator right => left.yield ++ operator.token .star :: right.yield
  | group opening inner closing =>
    opening.token .leftParen :: (inner.yield ++ [closing.token .rightParen])

def isSum : Term → Bool
  | sum .. => true
  | _ => false

def isProduct : Term → Bool
  | product .. => true
  | _ => false

/-- No operand of a product is a sum, and no right operand has the operator in front of it on top:
products bind tighter than sums, and both group to the left. -/
def Standard : Term → Prop
  | number .. => True
  | sum left _ right => left.Standard ∧ right.Standard ∧ right.isSum = false
  | product left _ right =>
    left.Standard ∧ right.Standard ∧ left.isSum = false ∧ right.isSum = false ∧
      right.isProduct = false
  | group _ inner _ => inner.Standard

/-- The right operand of a sum or a product is a number or a group: between two parentheses, operators
apply from left to right. -/
def LeftGrouped : Term → Prop
  | number .. => True
  | sum left _ right =>
    left.LeftGrouped ∧ right.LeftGrouped ∧ right.isSum = false ∧ right.isProduct = false
  | product left _ right =>
    left.LeftGrouped ∧ right.LeftGrouped ∧ right.isSum = false ∧ right.isProduct = false
  | group _ inner _ => inner.LeftGrouped

/-- The term with parentheses around every sum and every product, and no others. -/
def render : Term → String
  | number value _ => Number.decimal value
  | sum left _ right => "(" ++ left.render ++ "+" ++ right.render ++ ")"
  | product left _ right => "(" ++ left.render ++ "*" ++ right.render ++ ")"
  | group _ inner _ => inner.render

/-- The value, if every sum and every product fits into 64 bits. -/
def eval : Term → Option Int64
  | number value _ => some value
  | sum left _ right => left.eval.bind fun l => right.eval.bind fun r => Number.add? l r
  | product left _ right => left.eval.bind fun l => right.eval.bind fun r => Number.mul? l r
  | group _ inner _ => inner.eval

/-- The value among all integers. -/
def integer : Term → Int
  | number value _ => value.toInt
  | sum left _ right => left.integer + right.integer
  | product left _ right => left.integer * right.integer
  | group _ inner _ => inner.integer

theorem toInt_of_eval {t : Term} {value : Int64} (evaluates : t.eval = some value) :
    value.toInt = t.integer := by
  induction t generalizing value with
  | number known span =>
    cases evaluates
    rfl
  | sum left operator right left_ih right_ih =>
    obtain ⟨l, first, evaluates⟩ := Option.bind_eq_some_iff.mp evaluates
    obtain ⟨r, second, fits⟩ := Option.bind_eq_some_iff.mp evaluates
    rw [integer, ← left_ih first, ← right_ih second]
    exact Number.add?_eq_some_iff.mp fits
  | product left operator right left_ih right_ih =>
    obtain ⟨l, first, evaluates⟩ := Option.bind_eq_some_iff.mp evaluates
    obtain ⟨r, second, fits⟩ := Option.bind_eq_some_iff.mp evaluates
    rw [integer, ← left_ih first, ← right_ih second]
    exact Number.mul?_eq_some_iff.mp fits
  | group opening inner closing ih => exact ih evaluates

section Rotation

private def plus (left : Term) (operator : Mark) : Term → Term
  | sum first other last => sum (plus left operator first) other last
  | right => sum left operator right

private def scale (left : Term) (operator : Mark) : Term → Term
  | product first other last => product (scale left operator first) other last
  | right => product left operator right

private def scaleLast (left : Term) (operator : Mark) (right : Term) : Term :=
  match left with
  | sum first other last => sum first other (scale last operator right)
  | left => scale left operator right

private def times (left : Term) (operator : Mark) : Term → Term
  | sum first other last => sum (times left operator first) other last
  | right => scaleLast left operator right

def standardize : Term → Term
  | number value span => number value span
  | sum left operator right => plus left.standardize operator right.standardize
  | product left operator right => times left.standardize operator right.standardize
  | group opening inner closing => group opening inner.standardize closing

private theorem yield_plus (left : Term) (operator : Mark) (right : Term) :
    (plus left operator right).yield = (sum left operator right).yield := by
  induction right with
  | sum first other last ih _ => simp [plus, yield, ih]
  | number => rfl
  | product => rfl
  | group => rfl

private theorem yield_scale (left : Term) (operator : Mark) (right : Term) :
    (scale left operator right).yield = (product left operator right).yield := by
  induction right with
  | product first other last ih _ => simp [scale, yield, ih]
  | number => rfl
  | sum => rfl
  | group => rfl

private theorem yield_scaleLast (left : Term) (operator : Mark) (right : Term) :
    (scaleLast left operator right).yield = (product left operator right).yield := by
  cases left with
  | sum first other last => simp [scaleLast, yield, yield_scale]
  | number => exact yield_scale ..
  | product => exact yield_scale ..
  | group => exact yield_scale ..

private theorem yield_times (left : Term) (operator : Mark) (right : Term) :
    (times left operator right).yield = (product left operator right).yield := by
  induction right with
  | sum first other last ih _ => simp [times, yield, ih]
  | number => exact yield_scaleLast ..
  | product => exact yield_scaleLast ..
  | group => exact yield_scaleLast ..

theorem yield_standardize (t : Term) : t.standardize.yield = t.yield := by
  induction t with
  | number => rfl
  | sum left operator right l r => simp [standardize, yield_plus, yield, l, r]
  | product left operator right l r => simp [standardize, yield_times, yield, l, r]
  | group opening inner closing ih => simp [standardize, yield, ih]

private theorem standard_plus {left right : Term} (l : left.Standard) (r : right.Standard)
    (operator : Mark) : (plus left operator right).Standard := by
  induction right with
  | sum first other last ih _ => exact ⟨ih r.1, r.2⟩
  | number => exact ⟨l, r, rfl⟩
  | product => exact ⟨l, r, rfl⟩
  | group => exact ⟨l, r, rfl⟩

private theorem standard_scale {left right : Term} (l : left.Standard) (r : right.Standard)
    (noSum : left.isSum = false) (noSum' : right.isSum = false) (operator : Mark) :
    (scale left operator right).Standard ∧ (scale left operator right).isSum = false := by
  induction right with
  | product first other last ih _ =>
    obtain ⟨first, last, left, right⟩ := r
    obtain ⟨standard, product⟩ := ih first left
    exact ⟨⟨standard, last, product, right⟩, rfl⟩
  | number => exact ⟨⟨l, r, noSum, rfl, rfl⟩, rfl⟩
  | sum => cases noSum'
  | group => exact ⟨⟨l, r, noSum, rfl, rfl⟩, rfl⟩

private theorem standard_scaleLast {left right : Term} (l : left.Standard) (r : right.Standard)
    (noSum : right.isSum = false) (operator : Mark) : (scaleLast left operator right).Standard := by
  cases left with
  | sum first other last =>
    obtain ⟨first, last, other⟩ := l
    exact ⟨first, standard_scale last r other noSum operator⟩
  | number => exact (standard_scale l r rfl noSum operator).1
  | product => exact (standard_scale l r rfl noSum operator).1
  | group => exact (standard_scale l r rfl noSum operator).1

private theorem standard_times {left right : Term} (l : left.Standard) (r : right.Standard)
    (operator : Mark) : (times left operator right).Standard := by
  induction right with
  | sum first other last ih _ => exact ⟨ih r.1, r.2⟩
  | number => exact standard_scaleLast l r rfl operator
  | product => exact standard_scaleLast l r rfl operator
  | group => exact standard_scaleLast l r rfl operator

theorem standard_standardize (t : Term) : t.standardize.Standard := by
  induction t with
  | number => trivial
  | sum left operator right l r => exact standard_plus l r operator
  | product left operator right l r => exact standard_times l r operator
  | group opening inner closing ih => exact ih

end Rotation

section Leftward

private def joinFirst (join : Term → Term) : Term → Term
  | sum first operator last => sum (joinFirst join first) operator last
  | product first operator last => product (joinFirst join first) operator last
  | right => join right

def leftward : Term → Term
  | number value span => number value span
  | sum left operator right => joinFirst (sum left.leftward operator) right.leftward
  | product left operator right => joinFirst (product left.leftward operator) right.leftward
  | group opening inner closing => group opening inner.leftward closing

private theorem yield_joinFirst {join : Term → Term} {before : List Lexeme}
    (joins : ∀ t, (join t).yield = before ++ t.yield) (right : Term) :
    (joinFirst join right).yield = before ++ right.yield := by
  induction right with
  | number => exact joins _
  | sum first operator last ih _ => simp [joinFirst, yield, ih]
  | product first operator last ih _ => simp [joinFirst, yield, ih]
  | group => exact joins _

theorem yield_leftward (t : Term) : t.leftward.yield = t.yield := by
  induction t with
  | number => rfl
  | sum left operator right l r =>
    have joins (t : Term) : (sum left.leftward operator t).yield =
        (left.yield ++ [operator.token .plus]) ++ t.yield := by simp [yield, l]
    simp [leftward, yield_joinFirst joins, yield, r]
  | product left operator right l r =>
    have joins (t : Term) : (product left.leftward operator t).yield =
        (left.yield ++ [operator.token .star]) ++ t.yield := by simp [yield, l]
    simp [leftward, yield_joinFirst joins, yield, r]
  | group opening inner closing ih => simp [leftward, yield, ih]

private theorem leftGrouped_joinFirst {join : Term → Term}
    (joins : ∀ t : Term, t.LeftGrouped → t.isSum = false → t.isProduct = false →
      (join t).LeftGrouped) {right : Term} (grouped : right.LeftGrouped) :
    (joinFirst join right).LeftGrouped := by
  induction right with
  | number => exact joins _ grouped rfl rfl
  | sum first operator last ih _ => exact ⟨ih grouped.1, grouped.2⟩
  | product first operator last ih _ => exact ⟨ih grouped.1, grouped.2⟩
  | group => exact joins _ grouped rfl rfl

theorem leftGrouped_leftward (t : Term) : t.leftward.LeftGrouped := by
  induction t with
  | number => trivial
  | sum left operator right l r =>
    refine leftGrouped_joinFirst (fun t last noSum noProduct => ?_) r
    exact ⟨l, last, noSum, noProduct⟩
  | product left operator right l r =>
    refine leftGrouped_joinFirst (fun t last noSum noProduct => ?_) r
    exact ⟨l, last, noSum, noProduct⟩
  | group opening inner closing ih => exact ih

end Leftward

end Term

end GeneralizedLR.Arithmetic
