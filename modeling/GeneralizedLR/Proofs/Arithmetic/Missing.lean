import GeneralizedLR.Proofs.Arithmetic.Language

/-!
What is missing behind the first part of a sentence. A walk over a word keeps in mind whether an operand
is expected and how many parentheses are open. Every terminal settles at most one of these needs, so
that no sentence is completed by less than an operand, if one is expected, and a parenthesis for every
open one; and what has just this length is just this.
-/

set_option autoImplicit false
set_option relaxedAutoImplicit false

namespace GeneralizedLR.Arithmetic

/-- An operand, if one is expected, and parentheses for those that are open. -/
def needs (operand : Bool) (depth : Nat) : List Terminal :=
  (if operand then [.number] else []) ++ List.replicate depth .rightParen

theorem length_needs (operand : Bool) (depth : Nat) :
    (needs operand depth).length = operand.toNat + depth := by
  cases operand <;> simp [needs, Nat.add_comm]

/-- An operand is expected at the beginning, behind an operator and behind an opening parenthesis. -/
def expectsOperand (word : List Terminal) : Bool :=
  word.getLast?.elim true (· ∈ [.plus, .star, .leftParen])

def openParens (word : List Terminal) : Nat := word.count .leftParen - word.count .rightParen

def completion (word : List Terminal) : List Terminal := needs (expectsOperand word) (openParens word)

theorem mem_completion {word : List Terminal} {c : Terminal} (member : c ∈ completion word) :
    c ∈ [.number, .rightParen] := by
  unfold completion needs at member
  rcases List.mem_append.mp member with member | member
  · split at member
    · simpa using Or.inl (List.mem_singleton.mp member)
    · cases member
  · simpa using Or.inr (List.eq_of_mem_replicate member)

/-- A word leads from what is needed before it to what is needed behind it. -/
inductive Walk : Bool → Nat → List Terminal → Bool → Nat → Prop
  | nil (operand : Bool) (depth : Nat) : Walk operand depth [] operand depth
  | number {depth depth' : Nat} {word : List Terminal} {operand' : Bool} :
      Walk false depth word operand' depth' → Walk true depth (.number :: word) operand' depth'
  | leftParen {depth depth' : Nat} {word : List Terminal} {operand' : Bool} :
      Walk true (depth + 1) word operand' depth' → Walk true depth (.leftParen :: word) operand' depth'
  | operator {depth depth' : Nat} {operator : Terminal} {word : List Terminal} {operand' : Bool} :
      operator ∈ [.plus, .star] → Walk true depth word operand' depth' →
        Walk false depth (operator :: word) operand' depth'
  | rightParen {depth depth' : Nat} {word : List Terminal} {operand' : Bool} :
      Walk false depth word operand' depth' →
        Walk false (depth + 1) (.rightParen :: word) operand' depth'

namespace Walk

variable {operand operand' operand'' : Bool} {depth depth' depth'' : Nat} {word rest : List Terminal}

theorem append (first : Walk operand depth word operand' depth')
    (second : Walk operand' depth' rest operand'' depth'') :
    Walk operand depth (word ++ rest) operand'' depth'' := by
  induction first with
  | nil => exact second
  | number _ ih => exact .number (ih second)
  | leftParen _ ih => exact .leftParen (ih second)
  | operator which _ ih => exact .operator which (ih second)
  | rightParen _ ih => exact .rightParen (ih second)

theorem exists_of_append (walk : Walk operand depth (word ++ rest) operand'' depth'') :
    ∃ operand' depth', Walk operand depth word operand' depth' ∧
      Walk operand' depth' rest operand'' depth'' := by
  induction word generalizing operand depth with
  | nil => exact ⟨operand, depth, .nil _ _, walk⟩
  | cons terminal word ih =>
    cases walk with
    | number walk =>
      obtain ⟨_, _, first, second⟩ := ih walk
      exact ⟨_, _, .number first, second⟩
    | leftParen walk =>
      obtain ⟨_, _, first, second⟩ := ih walk
      exact ⟨_, _, .leftParen first, second⟩
    | operator which walk =>
      obtain ⟨_, _, first, second⟩ := ih walk
      exact ⟨_, _, .operator which first, second⟩
    | rightParen walk =>
      obtain ⟨_, _, first, second⟩ := ih walk
      exact ⟨_, _, .rightParen first, second⟩

theorem deeper (walk : Walk operand depth word operand' depth') :
    Walk operand (depth + 1) word operand' (depth' + 1) := by
  induction walk with
  | nil => exact .nil _ _
  | number _ ih => exact .number ih
  | leftParen _ ih => exact .leftParen ih
  | operator which _ ih => exact .operator which ih
  | rightParen _ ih => exact .rightParen ih

private def lastExpects (operand : Bool) (word : List Terminal) : Bool :=
  word.getLast?.elim operand (· ∈ [.plus, .star, .leftParen])

omit operand in
private theorem lastExpects_cons (operand : Bool) (terminal : Terminal) (word : List Terminal) :
    lastExpects operand (terminal :: word) =
      lastExpects (terminal ∈ [.plus, .star, .leftParen]) word := by
  rw [lastExpects, lastExpects, List.getLast?_cons]
  cases word.getLast? <;> rfl

private theorem ends (walk : Walk operand depth word operand' depth') :
    operand' = lastExpects operand word ∧
      depth + word.count .leftParen = depth' + word.count .rightParen := by
  induction walk with
  | nil => exact ⟨rfl, rfl⟩
  | number _ ih =>
    rw [lastExpects_cons]
    simpa using ih
  | leftParen _ ih =>
    rw [lastExpects_cons]
    refine ⟨by simpa using ih.1, ?_⟩
    have count := ih.2
    simp only [List.count_cons_self, List.count_cons_of_ne, ne_eq, reduceCtorEq, not_false_eq_true]
    omega
  | operator which _ ih =>
    rw [lastExpects_cons]
    simp only [List.mem_cons, List.not_mem_nil, or_false] at which
    rcases which with rfl | rfl <;> simpa using ih
  | rightParen _ ih =>
    rw [lastExpects_cons]
    refine ⟨by simpa using ih.1, ?_⟩
    have count := ih.2
    simp only [List.count_cons_self, List.count_cons_of_ne, ne_eq, reduceCtorEq, not_false_eq_true]
    omega

theorem unique (walk : Walk operand depth word operand' depth')
    (other : Walk operand depth word operand'' depth'') : operand' = operand'' ∧ depth' = depth'' := by
  obtain ⟨expects, count⟩ := walk.ends
  obtain ⟨expects', count'⟩ := other.ends
  exact ⟨expects.trans expects'.symm, by omega⟩

theorem completion_eq (walk : Walk true 0 word operand depth) : completion word = needs operand depth := by
  obtain ⟨expects, count⟩ := walk.ends
  rw [completion, show expectsOperand word = operand from expects.symm, openParens]
  congr 1
  omega

theorem eq_needs_or_length_lt (walk : Walk operand depth word false 0) :
    word = needs operand depth ∨ (needs operand depth).length < word.length := by
  rw [length_needs]
  generalize nothing : false = operand' at walk
  generalize zero : 0 = depth' at walk
  induction walk with
  | nil =>
    subst nothing zero
    exact .inl rfl
  | number _ ih =>
    rcases ih nothing zero with rfl | longer
    · exact .inl rfl
    · right
      simp only [Bool.toNat_false, Bool.toNat_true, List.length_cons] at longer ⊢
      omega
  | leftParen _ ih =>
    right
    rcases ih nothing zero with rfl | longer
    · simp only [List.length_cons, length_needs]
      omega
    · simp only [List.length_cons]
      omega
  | operator _ _ ih =>
    right
    rcases ih nothing zero with rfl | longer
    · simp only [Bool.toNat_false, Bool.toNat_true, List.length_cons, length_needs]
      omega
    · simp only [Bool.toNat_false, Bool.toNat_true, List.length_cons] at longer ⊢
      omega
  | rightParen _ ih =>
    rcases ih nothing zero with rfl | longer
    · exact .inl rfl
    · right
      simp only [List.length_cons]
      omega

end Walk

namespace Sentence

variable {sentence word rest : List Terminal}

theorem walk (derives : Sentence sentence) (depth : Nat) : Walk true depth sentence false depth := by
  induction derives generalizing depth with
  | number => exact .number (.nil _ _)
  | sum _ _ left right => exact (left depth).append (.operator (by simp) (right depth))
  | product _ _ left right => exact (left depth).append (.operator (by simp) (right depth))
  | group _ inner =>
    exact .leftParen ((inner (depth + 1)).append (.rightParen (.nil _ _)))

theorem completion_eq_nil (derives : Sentence sentence) : completion sentence = [] :=
  (derives.walk 0).completion_eq

theorem eq_completion_or_length_lt (derives : Sentence (word ++ rest)) :
    rest = completion word ∨ (completion word).length < rest.length := by
  obtain ⟨operand, depth, first, second⟩ := (derives.walk 0).exists_of_append
  rw [first.completion_eq]
  exact second.eq_needs_or_length_lt

private theorem completion_operation {left : List Terminal} {operator : Terminal}
    (which : operator ∈ [.plus, .star]) (first : Sentence left) (second : Sentence (word ++ rest)) :
    completion (left ++ operator :: word) = completion word := by
  obtain ⟨operand, depth, begun, -⟩ := (second.walk 0).exists_of_append
  rw [begun.completion_eq]
  exact ((first.walk 0).append (.operator which begun)).completion_eq

private theorem completion_group (derives : Sentence (word ++ rest)) :
    completion (.leftParen :: word) = completion word ++ [.rightParen] := by
  obtain ⟨operand, depth, begun, -⟩ := (derives.walk 0).exists_of_append
  rw [begun.completion_eq, (Walk.leftParen begun.deeper).completion_eq, needs, needs, List.append_assoc,
    List.replicate_succ']

private theorem completed_operation {left right : List Terminal} {operator : Terminal}
    (which : operator ∈ [.plus, .star]) (first : Sentence left) (second : Sentence right)
    (joined : ∀ {right}, Sentence right → Sentence (left ++ operator :: right))
    (within : ∀ {word rest}, word ++ rest = left → Sentence (word ++ completion word))
    (begun : ∀ {word rest}, word ++ rest = right → Sentence (word ++ completion word))
    (split : word ++ rest = left ++ operator :: right) : Sentence (word ++ completion word) := by
  rcases List.append_eq_append_iff.mp split with ⟨more, whole, -⟩ | ⟨more, rfl, others⟩
  · exact within whole.symm
  · cases more with
    | nil => exact within (by simp : left ++ [] ++ [] = left)
    | cons terminal more =>
      obtain ⟨rfl, rfl⟩ := List.cons.inj others
      rw [completion_operation which first second, List.append_assoc, List.cons_append]
      exact joined (begun rfl)

theorem completed (derives : Sentence (word ++ rest)) : Sentence (word ++ completion word) := by
  generalize whole : word ++ rest = sentence at derives
  induction derives generalizing word rest with
  | number =>
    cases word with
    | nil => exact .number
    | cons terminal word =>
      obtain ⟨rfl, none⟩ := List.cons.inj whole
      obtain ⟨rfl, -⟩ := List.append_eq_nil_iff.mp none
      exact .number
  | sum l r left right => exact completed_operation (by simp) l r (.sum l) left right whole
  | product l r left right => exact completed_operation (by simp) l r (.product l) left right whole
  | @group inner derives ih =>
    cases word with
    | nil => exact .number
    | cons terminal word =>
      obtain ⟨rfl, rest'⟩ := List.cons.inj whole
      have opened {word rest : List Terminal} (split : word ++ rest = inner) :
          Sentence (.leftParen :: word ++ completion (.leftParen :: word)) := by
        rw [completion_group (split.symm ▸ derives), List.cons_append, ← List.append_assoc]
        exact .group (ih split)
      rcases List.append_eq_append_iff.mp rest' with ⟨more, split, -⟩ | ⟨more, rfl, closing⟩
      · exact opened split.symm
      · cases more with
        | nil => exact opened (by simp : inner ++ [] ++ [] = inner)
        | cons terminal more =>
          obtain ⟨rfl, none⟩ := List.cons.inj closing
          obtain ⟨rfl, -⟩ := List.append_eq_nil_iff.mp none.symm
          have closed := derives.group
          rw [List.cons_append, ← List.cons_append, closed.completion_eq_nil, List.append_nil]
          exact closed

end Sentence

section Spelling

variable {past : List Terminal} {stack : List Nat} {depth : Nat}

private theorem Awaits.walk (awaits : Awaits past stack) : ∃ depth, Walk true 0 past true depth := by
  induction awaits with
  | root => exact ⟨0, .nil _ _⟩
  | paren _ ih =>
    obtain ⟨depth, walk⟩ := ih
    exact ⟨depth + 1, walk.append (.leftParen (.nil _ _))⟩
  | operator _ derives which ih =>
    obtain ⟨depth, walk⟩ := ih
    refine ⟨depth, (walk.append (derives.walk depth)).append (.operator ?_ (.nil _ _))⟩
    simp only [List.mem_cons, List.not_mem_nil, or_false, Prod.mk.injEq] at which ⊢
    exact which.imp And.left And.left

private theorem Awaits.walk_sentence (awaits : Awaits past stack) {sentence : List Terminal}
    (derives : Sentence sentence) : ∃ depth, Walk true 0 (past ++ sentence) false depth := by
  obtain ⟨depth, walk⟩ := awaits.walk
  exact ⟨depth, walk.append (derives.walk depth)⟩

theorem Spells.exists_operand (spells : Spells past stack) (walk : Walk true 0 past true depth) :
    ∃ state below, stack = state :: below ∧ state ∈ [0, 2, 5, 6] := by
  have settled {before sentence : List Terminal} {stack : List Nat} (awaits : Awaits before stack)
      (derives : Sentence sentence) (whole : past = before ++ sentence) : False := by
    obtain ⟨_, other⟩ := awaits.walk_sentence derives
    exact Bool.noConfusion (walk.unique (whole ▸ other)).1
  cases spells with
  | operand awaits => exact awaits.exists_top
  | number awaits => exact (settled awaits .number rfl).elim
  | expression awaits derives => exact (settled awaits derives rfl).elim
  | paren awaits derives => exact (settled awaits derives.group rfl).elim

/-- Behind an operand within a parenthesis there is a number, an expression or a closed parenthesis on the
stack. -/
theorem Spells.exists_enclosed (spells : Spells past stack) (walk : Walk true 0 past false (depth + 1)) :
    ∃ state below, stack = state :: below ∧ state ∈ [1, 4, 7, 8, 9] := by
  cases spells with
  | operand awaits =>
    obtain ⟨_, other⟩ := awaits.walk
    exact Bool.noConfusion (walk.unique other).1
  | number => exact ⟨1, _, rfl, by simp⟩
  | expression awaits derives =>
    refine ⟨_, _, rfl, ?_⟩
    cases awaits with
    | root => exact absurd (walk.unique (derives.walk 0)).2 (Nat.succ_ne_zero depth)
    | paren => decide
    | operator _ _ which =>
      simp only [List.mem_cons, List.not_mem_nil, or_false, Prod.mk.injEq] at which
      rcases which with ⟨-, rfl⟩ | ⟨-, rfl⟩ <;> decide
  | paren => exact ⟨7, _, rfl, by simp⟩

end Spelling

end GeneralizedLR.Arithmetic
