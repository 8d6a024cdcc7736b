/-!
Signed numbers of 64 bits: sums and products that exist only where they fit, and reading a number
from its decimal digits. Reading stops at the first character that decides the outcome.
-/

set_option autoImplicit false
set_option relaxedAutoImplicit false

namespace GeneralizedLR.Number

def ofInt? (n : Int) : Option Int64 :=
  if Int64.minValue.toInt ≤ n ∧ n ≤ Int64.maxValue.toInt then some (Int64.ofInt n) else none

theorem toInt_of_ofInt? {n : Int} {value : Int64} (h : ofInt? n = some value) :
    value.toInt = n := by
  unfold ofInt? at h
  split at h
  next bounds =>
    cases h
    rw [Int64.toInt_minValue, Int64.toInt_maxValue] at bounds
    exact Int64.toInt_ofInt_of_le bounds.1 (Int.lt_of_le_sub_one bounds.2)
  next => cases h

theorem ofInt?_eq_some_iff {n : Int} {value : Int64} : ofInt? n = some value ↔ value.toInt = n := by
  refine ⟨toInt_of_ofInt?, ?_⟩
  rintro rfl
  have bounds : Int64.minValue.toInt ≤ value.toInt ∧ value.toInt ≤ Int64.maxValue.toInt :=
    ⟨value.minValue_le_toInt, value.toInt_le⟩
  rw [ofInt?, if_pos bounds, Int64.ofInt_toInt]

theorem ofInt?_eq_none_iff {n : Int} :
    ofInt? n = none ↔ ¬ (Int64.minValue.toInt ≤ n ∧ n ≤ Int64.maxValue.toInt) := by
  simp [ofInt?]

def add? (a b : Int64) : Option Int64 := ofInt? (a.toInt + b.toInt)

def mul? (a b : Int64) : Option Int64 := ofInt? (a.toInt * b.toInt)

theorem add?_eq_some_iff {a b c : Int64} : add? a b = some c ↔ c.toInt = a.toInt + b.toInt :=
  ofInt?_eq_some_iff

theorem mul?_eq_some_iff {a b c : Int64} : mul? a b = some c ↔ c.toInt = a.toInt * b.toInt :=
  ofInt?_eq_some_iff

/-- The decimal digits, after a minus sign if the number is negative. -/
def decimal (n : Int64) : String := toString n.toInt

inductive ReadError where
  | empty
  | invalidDigit
  | tooLarge
  | tooSmall
  deriving DecidableEq

def ReadError.message : ReadError → String
  | .empty => "cannot parse integer from empty string"
  | .invalidDigit => "invalid digit found in string"
  | .tooLarge => "number too large to fit in target type"
  | .tooSmall => "number too small to fit in target type"

def digit? (c : Char) : Option Nat :=
  if c.isDigit then some (c.toNat - '0'.toNat) else none

def readDigits (negative : Bool) : Int64 → List Char → Except ReadError Int64
  | value, [] => .ok value
  | value, c :: rest =>
    match digit? c with
    | none => .error .invalidDigit
    | some d =>
      match ofInt? (value.toInt * 10 + (if negative then -(d : Int) else (d : Int))) with
      | none => .error (if negative then .tooSmall else .tooLarge)
      | some value => readDigits negative value rest

def read : List Char → Except ReadError Int64
  | [] => .error .empty
  | ['+'] => .error .invalidDigit
  | ['-'] => .error .invalidDigit
  | '+' :: digits => readDigits false 0 digits
  | '-' :: digits => readDigits true 0 digits
  | digits => readDigits false 0 digits

end GeneralizedLR.Number
