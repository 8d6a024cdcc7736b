import GeneralizedLR.Diagnostic

/-!
Outcomes of alternatives, and the choice between two of them: a success is better than a failure,
and of two successes or two failures the one with fewer errors. A tie goes to the first.
-/

set_option autoImplicit false
set_option relaxedAutoImplicit false

namespace GeneralizedLR

/-- A place in a list of tokens: how many tokens are behind it, and those that are ahead. -/
structure Cursor (K : Type) where
  position : Nat
  rest : List K

namespace Cursor

variable {K : Type}

def ofList (tokens : List K) : Cursor K := ⟨0, tokens⟩

def peek (c : Cursor K) : Option K := c.rest.head?

def isAtEnd (c : Cursor K) : Bool := c.rest.isEmpty

def advance (c : Cursor K) : Cursor K :=
  match c.rest with
  | [] => c
  | _ :: rest => ⟨c.position + 1, rest⟩

def advanceBy (c : Cursor K) (count : Nat) : Cursor K :=
  let passed := min count c.rest.length
  ⟨c.position + passed, c.rest.drop passed⟩

theorem advanceBy_zero (c : Cursor K) : c.advanceBy 0 = c := by
  simp [advanceBy]

theorem advanceBy_succ (c : Cursor K) (count : Nat) :
    c.advanceBy (count + 1) = c.advance.advanceBy count := by
  obtain ⟨position, rest⟩ := c
  cases rest with
  | nil => simp [advanceBy, advance]
  | cons token rest =>
    have h : min (count + 1) (rest.length + 1) = min count rest.length + 1 := by omega
    simp only [advanceBy, advance, List.length_cons, h, List.drop_succ_cons, Cursor.mk.injEq,
      and_true]
    omega

theorem peek_advanceBy (c : Cursor K) (count : Nat) :
    (c.advanceBy count).peek = c.rest[count]? := by
  simp only [peek, advanceBy, List.head?_drop]
  rcases Nat.le_total count c.rest.length with inside | outside
  · rw [Nat.min_eq_left inside]
  · rw [Nat.min_eq_right outside, List.getElem?_eq_none (Nat.le_refl _), List.getElem?_eq_none outside]

end Cursor

/-- What an alternative came to: a value if it succeeded, the place where it ended, and its errors.
-/
structure Outcome (K R : Type) where
  value : Option R
  cursor : Cursor K
  errors : List ErrorRecord := []

namespace Outcome

variable {K R : Type}

def isSuccess (o : Outcome K R) : Bool := o.value.isSome

def best (first second : Outcome K R) : Outcome K R :=
  match first.isSuccess, second.isSuccess with
  | true, false => first
  | false, true => second
  | _, _ => if second.errors.length < first.errors.length then second else first

def choose (first second : Outcome K R) : StateM Nat (Outcome K R) :=
  modifyGet fun choices => (best first second, choices + 1)

end Outcome

end GeneralizedLR
