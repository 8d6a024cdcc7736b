/-!
Places in a source text. A position is a line and a column, both counted from zero; a span runs from
its start up to its stop, and spans are ordered by their starts and then by their stops.
-/

set_option autoImplicit false
set_option relaxedAutoImplicit false

namespace GeneralizedLR

/-- A line and a column in it, both counted from zero. -/
structure Position where
  line : Nat
  column : Nat
  deriving DecidableEq, Inhabited

namespace Position

def origin : Position := ⟨0, 0⟩

def compare (a b : Position) : Ordering :=
  (Ord.compare a.line b.line).then (Ord.compare a.column b.column)

/-- An earlier line comes first, and on one line an earlier column. -/
instance : LE Position := ⟨fun a b => a.line < b.line ∨ a.line = b.line ∧ a.column ≤ b.column⟩

instance (a b : Position) : Decidable (a ≤ b) :=
  inferInstanceAs (Decidable (a.line < b.line ∨ a.line = b.line ∧ a.column ≤ b.column))

/-- The place behind one character: a line feed opens the next line, any other character takes one
column. -/
def next (p : Position) (c : Char) : Position :=
  if c = '\n' then ⟨p.line + 1, 0⟩ else ⟨p.line, p.column + 1⟩

def after (p : Position) (text : List Char) : Position :=
  text.foldl next p

theorem after_append (p : Position) (text more : List Char) :
    p.after (text ++ more) = (p.after text).after more := List.foldl_append

section Order

variable {p q r : Position}

theorem le_iff : p ≤ q ↔ p.line < q.line ∨ p.line = q.line ∧ p.column ≤ q.column := Iff.rfl

theorem le_refl (p : Position) : p ≤ p := .inr ⟨rfl, Nat.le_refl _⟩

theorem le_trans (first : p ≤ q) (second : q ≤ r) : p ≤ r := by
  rw [le_iff] at *
  omega

theorem le_antisymm (first : p ≤ q) (second : q ≤ p) : p = q := by
  rw [le_iff] at *
  have lines : p.line = q.line := by omega
  have columns : p.column = q.column := by omega
  cases p
  cases q
  simp_all

theorem le_next (p : Position) (c : Char) : p ≤ p.next c := by
  unfold next
  split
  · exact .inl (Nat.lt_succ_self _)
  · exact .inr ⟨rfl, Nat.le_succ _⟩

theorem le_after (p : Position) (text : List Char) : p ≤ p.after text := by
  induction text generalizing p with
  | nil => exact p.le_refl
  | cons c text ih => exact le_trans (p.le_next c) (ih (p.next c))

end Order

def inspect (p : Position) : String :=
  s!"Position \x7b line: {p.line}, column: {p.column} \x7d"

end Position

/-- The part of a source from `start` up to `stop`. -/
structure Span where
  start : Position
  stop : Position
  deriving DecidableEq, Inhabited

namespace Span

def merge (a b : Span) : Span where
  start := if a.start ≤ b.start then a.start else b.start
  stop := if b.stop ≤ a.stop then a.stop else b.stop

/-- If one span neither starts nor stops behind the other, both together run from its start to the
stop of the other. -/
theorem merge_eq {a b : Span} (starts : a.start ≤ b.start) (stops : a.stop ≤ b.stop) :
    a.merge b = ⟨a.start, b.stop⟩ := by
  have last : (if b.stop ≤ a.stop then a.stop else b.stop) = b.stop := by
    split
    · next back => exact Position.le_antisymm stops back
    · rfl
  rw [merge, if_pos starts, last]

def isEmpty (s : Span) : Bool := s.start = s.stop

def lines (s : Span) : Nat × Nat := (s.start.line, s.stop.line)

def compare (a b : Span) : Ordering :=
  (a.start.compare b.start).then (a.stop.compare b.stop)

def display (s : Span) : String :=
  s!"span {s.start.line}:{s.start.column} to {s.stop.line}:{s.stop.column}"

/-- Cover both spans where both are known, and otherwise keep the known one. -/
def mergeKnown : Option Span → Option Span → Option Span
  | some a, some b => some (a.merge b)
  | some a, none => some a
  | none, b => b

def inspect : Option Span → String
  | some s => s!"Some(Span \x7b start: {s.start.inspect}, end: {s.stop.inspect} \x7d)"
  | none => "None"

end Span

end GeneralizedLR
