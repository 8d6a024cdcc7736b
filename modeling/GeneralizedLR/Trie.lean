/-!
Tries: maps from lists of edges to values, where keys with a common beginning share their way. Main
statements: a value that is set is found again, and all other keys keep theirs.
-/

set_option autoImplicit false
set_option relaxedAutoImplicit false

namespace GeneralizedLR

/-- A trie holds the value of the empty key, and a trie for each first edge. -/
inductive Trie (E A : Type) where
  | node (value : Option A) (children : List (E × Trie E A))

namespace Trie

variable {E A : Type} [BEq E]

def empty : Trie E A := .node none []

def find? : List E → Trie E A → Option A
  | [], .node value _ => value
  | edge :: rest, .node _ children =>
    match children.lookup edge with
    | some child => find? rest child
    | none => none

def set (value : A) : List E → Trie E A → Trie E A
  | [], .node _ children => .node (some value) children
  | edge :: rest, .node old children =>
    .node old ((edge, set value rest ((children.lookup edge).getD empty)) ::
      children.filter (!·.1 == edge))

private theorem lookup_others [LawfulBEq E] {edge other : E} (h : edge ≠ other)
    (children : List (E × Trie E A)) :
    (children.filter (!·.1 == edge)).lookup other = children.lookup other := by
  induction children with
  | nil => rfl
  | cons child rest ih => grind

theorem find?_empty (key : List E) : (empty : Trie E A).find? key = none := by
  cases key <;> rfl

theorem find?_set_self [LawfulBEq E] (value : A) (key : List E) (t : Trie E A) :
    (t.set value key).find? key = some value := by
  induction key generalizing t with
  | nil => cases t; rfl
  | cons edge rest ih => cases t; simp [set, find?, ih]

theorem find?_set_of_ne [LawfulBEq E] (value : A) {key other : List E} (h : key ≠ other)
    (t : Trie E A) : (t.set value key).find? other = t.find? other := by
  induction key generalizing t other with
  | nil =>
    cases t
    cases other with
    | nil => exact absurd rfl h
    | cons => rfl
  | cons edge rest ih =>
    obtain ⟨old, children⟩ := t
    cases other with
    | nil => rfl
    | cons edge' rest' =>
      by_cases same : edge = edge'
      · subst same
        have differs : rest ≠ rest' := fun e => h (e ▸ rfl)
        simp only [set, find?, List.lookup_cons_self, ih differs]
        cases children.lookup edge <;> simp [find?_empty]
      · have differs : (edge' == edge) = false := beq_eq_false_iff_ne.2 (Ne.symm same)
        simp [set, find?, List.lookup_cons, differs, lookup_others same]

end Trie

end GeneralizedLR
