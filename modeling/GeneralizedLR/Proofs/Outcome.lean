import Mathlib.Data.List.Forall2

/-!
Runs over lists. What a successful run was made of, what a loop keeps, and the partners that the
items of two related lists have. A run that counts its rounds can also end for want of fuel, with an
error that has no cause.
-/

set_option autoImplicit false
set_option relaxedAutoImplicit false

namespace GeneralizedLR

variable {ε α β ι : Type}

theorem exists_of_forall₂_left {R : α → β → Prop} {l : List α} {l' : List β}
    (related : List.Forall₂ R l l') {a : α} (member : a ∈ l) : ∃ b ∈ l', R a b := by
  induction related with
  | nil => cases member
  | @cons x y l l' head _ ih =>
    rcases List.mem_cons.mp member with rfl | member
    · exact ⟨y, List.mem_cons_self .., head⟩
    · obtain ⟨b, listed, pair⟩ := ih member
      exact ⟨b, List.mem_cons_of_mem _ listed, pair⟩

theorem exists_of_forall₂_right {R : α → β → Prop} {l : List α} {l' : List β}
    (related : List.Forall₂ R l l') {b : β} (member : b ∈ l') : ∃ a ∈ l, R a b :=
  exists_of_forall₂_left related.flip member

theorem exists_split_of_forall₂ {R : α → β → Prop} {before behind : List α} {a : α} {l : List β}
    (related : List.Forall₂ R (before ++ a :: behind) l) :
    ∃ before' b behind', l = before' ++ b :: behind' ∧ List.Forall₂ R before before' ∧ R a b := by
  induction before generalizing l with
  | nil =>
    obtain ⟨b, behind', head, -, rfl⟩ := List.forall₂_cons_left_iff.mp related
    exact ⟨[], b, behind', rfl, .nil, head⟩
  | cons c before ih =>
    obtain ⟨d, rest, head, tail, rfl⟩ := List.forall₂_cons_left_iff.mp related
    obtain ⟨before', b, behind', rfl, front, pair⟩ := ih tail
    exact ⟨d :: before', b, behind', rfl, .cons head front, pair⟩

theorem map_eq_map_of_forall₂ {γ : Type} {R : α → β → Prop} {l : List α} {l' : List β}
    (related : List.Forall₂ R l l') {f : α → γ} {g : β → γ} (same : ∀ a b, R a b → f a = g b) :
    l.map f = l'.map g := by
  induction related with
  | nil => rfl
  | cons head _ ih => rw [List.map_cons, List.map_cons, same _ _ head, ih]

theorem forall₂_of_map_eq_map {γ : Type} {f : α → γ} {g : β → γ} {l : List α} {l' : List β}
    (same : l.map f = l'.map g) : List.Forall₂ (fun a b => f a = g b) l l' := by
  rwa [← List.forall₂_eq_eq_eq, List.forall₂_map_left_iff, List.forall₂_map_right_iff] at same

theorem exists_forall₂ {R : α → β → Prop} {l : List α} (partners : ∀ a ∈ l, ∃ b, R a b) :
    ∃ l', List.Forall₂ R l l' := by
  induction l with
  | nil => exact ⟨[], .nil⟩
  | cons a l ih =>
    obtain ⟨b, pair⟩ := partners a (List.mem_cons_self ..)
    obtain ⟨l', pairs⟩ := ih fun a member => partners a (List.mem_cons_of_mem _ member)
    exact ⟨b :: l', .cons pair pairs⟩

theorem exists_of_isOk {x : Except ε α} (ok : x.isOk = true) : ∃ a, x = .ok a := by
  cases x with
  | error cause => cases ok
  | ok a => exact ⟨a, rfl⟩

theorem exists_of_bind_eq_ok {x : Except ε α} {f : α → Except ε β} {b : β}
    (run : x >>= f = .ok b) : ∃ a, x = .ok a ∧ f a = .ok b := by
  cases x with
  | error cause => cases run
  | ok a => exact ⟨a, rfl, run⟩

theorem of_bind_eq_error {P : ε → Prop} {x : Except ε α} {f : α → Except ε β} {cause : ε}
    (run : x >>= f = .error cause) (first : x = .error cause → P cause)
    (second : ∀ a, f a = .error cause → P cause) : P cause := by
  cases x with
  | error other =>
    cases run
    exact first rfl
  | ok a => exact second a run

theorem forall₂_of_mapM_eq_ok {g : ι → Except ε α} {l : List ι} {made : List α}
    (run : l.mapM g = .ok made) : List.Forall₂ (fun i m => g i = .ok m) l made := by
  induction l generalizing made with
  | nil =>
    rw [List.mapM_nil] at run
    cases run
    exact .nil
  | cons i l ih =>
    rw [List.mapM_cons] at run
    obtain ⟨m, first, run⟩ := exists_of_bind_eq_ok run
    obtain ⟨ms, more, run⟩ := exists_of_bind_eq_ok run
    cases run
    exact .cons first (ih more)

theorem exists_mapM_eq_ok {g : ι → Except ε α} {l : List ι}
    (runs : ∀ i ∈ l, ∃ m, g i = .ok m) : ∃ made, l.mapM g = .ok made := by
  induction l with
  | nil => exact ⟨[], List.mapM_nil⟩
  | cons i l ih =>
    obtain ⟨m, first⟩ := runs i (List.mem_cons_self ..)
    obtain ⟨ms, more⟩ := ih fun j member => runs j (List.mem_cons_of_mem _ member)
    exact ⟨m :: ms, by rw [List.mapM_cons, first, more]; rfl⟩

theorem exists_mapM_forall₂ {R : α → α → Prop} {g g' : ι → Except ε α}
    (related : ∀ i m, g i = .ok m → ∃ m', g' i = .ok m' ∧ R m m') {l : List ι} {made : List α}
    (run : l.mapM g = .ok made) : ∃ made', l.mapM g' = .ok made' ∧ List.Forall₂ R made made' := by
  have found := forall₂_of_mapM_eq_ok run
  clear run
  induction found with
  | nil => exact ⟨[], List.mapM_nil, .nil⟩
  | @cons i m l made first _ ih =>
    obtain ⟨m', first', pair⟩ := related i m first
    obtain ⟨made', more, pairs⟩ := ih
    exact ⟨m' :: made', by rw [List.mapM_cons, first', more]; rfl, .cons pair pairs⟩

theorem foldlM_keeps (Inv : α → Prop) {f : α → ι → Except ε α} {l : List ι}
    (step : ∀ x i y, i ∈ l → Inv x → f x i = .ok y → Inv y) {x y : α} (start : Inv x)
    (run : l.foldlM f x = .ok y) : Inv y := by
  induction l generalizing x with
  | nil =>
    cases run
    exact start
  | cons i l ih =>
    rw [List.foldlM_cons] at run
    obtain ⟨x', first, rest⟩ := exists_of_bind_eq_ok run
    exact ih (fun x j y member => step x j y (List.mem_cons_of_mem _ member))
      (step x i x' (List.mem_cons_self ..) start first) rest

theorem of_foldlM_eq_error {P : ε → Prop} {f : α → ι → Except ε α} {l : List ι} {cause : ε}
    (step : ∀ x i, f x i = .error cause → P cause) {x : α} (run : l.foldlM f x = .error cause) :
    P cause := by
  induction l generalizing x with
  | nil => cases run
  | cons i l ih =>
    rw [List.foldlM_cons] at run
    exact of_bind_eq_error run (step x i) fun _ => ih

theorem of_mapM_eq_error {P : ε → Prop} {g : ι → Except ε α} {l : List ι} {cause : ε}
    (step : ∀ i, g i = .error cause → P cause) (run : l.mapM g = .error cause) : P cause := by
  induction l with
  | nil =>
    rw [List.mapM_nil] at run
    cases run
  | cons i l ih =>
    rw [List.mapM_cons] at run
    refine of_bind_eq_error run (step i) fun m rest => ?_
    exact of_bind_eq_error rest ih fun ms done => nomatch done

theorem exists_foldlM_eq_ok (Inv : α → Prop) {f : α → ι → Except ε α} {l : List ι}
    (step : ∀ x i, i ∈ l → Inv x → ∃ y, f x i = .ok y ∧ Inv y) {x : α} (start : Inv x) :
    ∃ y, l.foldlM f x = .ok y ∧ Inv y := by
  induction l generalizing x with
  | nil => exact ⟨x, rfl, start⟩
  | cons i l ih =>
    obtain ⟨x', first, kept⟩ := step x i (List.mem_cons_self ..) start
    obtain ⟨y, rest, last⟩ :=
      ih (fun x j member => step x j (List.mem_cons_of_mem _ member)) kept
    exact ⟨y, by rw [List.foldlM_cons, first]; exact rest, last⟩

/-- Every item of a loop has its round, before and after which the loop only grows. -/
theorem exists_round_of_foldlM {R : α → α → Prop} (refl : ∀ x, R x x)
    (trans : ∀ {x y z}, R x y → R y z → R x z) {f : α → ι → Except ε α} {l : List ι}
    (grows : ∀ x i y, f x i = .ok y → R x y) {i : ι} (member : i ∈ l) {x z : α}
    (run : l.foldlM f x = .ok z) : ∃ x' y, R x x' ∧ f x' i = .ok y ∧ R y z := by
  induction l generalizing x with
  | nil => cases member
  | cons j l ih =>
    rw [List.foldlM_cons] at run
    obtain ⟨x', first, rest⟩ := exists_of_bind_eq_ok run
    rcases List.mem_cons.mp member with rfl | member
    · exact ⟨x, x', refl x, first,
        foldlM_keeps (R x') (fun _ _ _ _ held one => trans held (grows _ _ _ one)) (refl x') rest⟩
    · obtain ⟨x'', y, before, round, behind⟩ := ih member rest
      exact ⟨x'', y, trans (grows _ _ _ first) before, round, behind⟩

def ComesTo (f : α → ι → Except ε α) (l : List ι) (x : α) (i : ι) (y : α) : Prop :=
  ∃ before behind, l = before ++ i :: behind ∧ before.foldlM f x = .ok y

theorem ComesTo.mem {f : α → ι → Except ε α} {l : List ι} {x y : α} {i : ι}
    (comes : ComesTo f l x i y) : i ∈ l := by
  obtain ⟨before, behind, rfl, -⟩ := comes
  simp

theorem ComesTo.keeps (Inv : α → Prop) {f : α → ι → Except ε α} {l : List ι} {x y : α} {i : ι}
    (comes : ComesTo f l x i y)
    (step : ∀ x i y, i ∈ l → Inv x → f x i = .ok y → Inv y) (start : Inv x) : Inv y := by
  obtain ⟨before, behind, rfl, run⟩ := comes
  exact foldlM_keeps Inv (fun x i y member => step x i y (List.mem_append_left _ member)) start run

theorem ComesTo.cons_iff {f : α → ι → Except ε α} {l : List ι} {x y : α} {i j : ι} :
    ComesTo f (i :: l) x j y ↔ (j = i ∧ y = x) ∨ ∃ x', f x i = .ok x' ∧ ComesTo f l x' j y := by
  constructor
  · rintro ⟨_ | ⟨i', before⟩, behind, split, run⟩
    · cases split
      cases run
      exact .inl ⟨rfl, rfl⟩
    · cases split
      rw [List.foldlM_cons] at run
      obtain ⟨x', first, rest⟩ := exists_of_bind_eq_ok run
      exact .inr ⟨x', first, before, behind, rfl, rest⟩
  · rintro (⟨rfl, rfl⟩ | ⟨x', first, before, behind, rfl, rest⟩)
    · exact ⟨[], l, rfl, rfl⟩
    · refine ⟨i :: before, behind, rfl, ?_⟩
      rw [List.foldlM_cons, first]
      exact rest

/-- What is kept by every round that the loop comes to holds in all rounds and at the end. -/
theorem ComesTo.invariant {f : α → ι → Except ε α} {l : List ι} {x : α} (Inv : α → Prop)
    (start : Inv x) (step : ∀ i y z, ComesTo f l x i y → Inv y → f y i = .ok z → Inv z) :
    (∀ i y, ComesTo f l x i y → Inv y) ∧ ∀ z, l.foldlM f x = .ok z → Inv z := by
  induction l generalizing x with
  | nil =>
    constructor
    · intro i y comes
      cases comes.mem
    · rintro z ⟨⟩
      exact start
  | cons i l ih =>
    have here : ComesTo f (i :: l) x i x := ComesTo.cons_iff.mpr (.inl ⟨rfl, rfl⟩)
    have behind : ∀ x', f x i = .ok x' →
        (∀ j y, ComesTo f l x' j y → Inv y) ∧ ∀ z, l.foldlM f x' = .ok z → Inv z := by
      intro x' first
      exact ih (step i x x' here start first) fun j y z comes =>
        step j y z (ComesTo.cons_iff.mpr (.inr ⟨x', first, comes⟩))
    constructor
    · intro j y comes
      rcases ComesTo.cons_iff.mp comes with ⟨-, rfl⟩ | ⟨x', first, rest⟩
      · exact start
      · exact (behind x' first).1 j y rest
    · intro z run
      rw [List.foldlM_cons] at run
      obtain ⟨x', first, rest⟩ := exists_of_bind_eq_ok run
      exact (behind x' first).2 z rest

theorem exists_of_foldlM_map {g : α → α} {f : α → ι → Except ε α}
    (step : ∀ x i y, f (g x) i = .ok y → ∃ y', f x i = .ok y' ∧ y = g y') {l : List ι} {x y : α}
    (run : l.foldlM f (g x) = .ok y) : ∃ y', l.foldlM f x = .ok y' ∧ y = g y' := by
  induction l generalizing x with
  | nil =>
    cases run
    exact ⟨x, rfl, rfl⟩
  | cons i l ih =>
    rw [List.foldlM_cons] at run
    obtain ⟨_, first, rest⟩ := exists_of_bind_eq_ok run
    obtain ⟨x', first', rfl⟩ := step x i _ first
    obtain ⟨y', rest', same⟩ := ih rest
    exact ⟨y', by rw [List.foldlM_cons, first']; exact rest', same⟩

section Yields

/-- A run that gives a result with a property, if it has the fuel to come to its end. -/
inductive Yields (P : α → Prop) : Except (Option ε) α → Prop
  | ok {x : α} : P x → Yields P (.ok x)
  | exhausted : Yields P (.error none)

namespace Yields

variable {P : α → Prop} {Q : β → Prop}

theorem bind {x : Except (Option ε) α} (yields : Yields P x) {f : α → Except (Option ε) β}
    (rest : ∀ a, x = .ok a → P a → Yields Q (f a)) : Yields Q (x >>= f) := by
  cases yields with
  | ok holds => exact rest _ rfl holds
  | exhausted => exact .exhausted

theorem imp {x : Except (Option ε) α} (yields : Yields P x) {P' : α → Prop}
    (weaker : ∀ a, x = .ok a → P a → P' a) : Yields P' x := by
  cases yields with
  | ok holds => exact .ok (weaker _ rfl holds)
  | exhausted => exact .exhausted

theorem foldlM {f : α → ι → Except (Option ε) α} {l : List ι}
    (step : ∀ x i, i ∈ l → P x → Yields P (f x i)) {x : α} (start : P x) :
    Yields P (l.foldlM f x) := by
  induction l generalizing x with
  | nil => exact .ok start
  | cons i l ih =>
    rw [List.foldlM_cons]
    exact (step x i (List.mem_cons_self ..) start).bind fun y _ held =>
      ih (fun x j member => step x j (List.mem_cons_of_mem _ member)) held

theorem of_eq_ok {x : Except (Option ε) α} (yields : Yields P x) {a : α} (run : x = .ok a) :
    P a := by
  subst run
  cases yields with
  | ok holds => exact holds

theorem ne_error {x : Except (Option ε) α} (yields : Yields P x) (cause : ε) :
    x ≠ .error (some cause) := by
  rintro rfl
  cases yields

end Yields

end Yields

section Returns

/-- A run that has the fuel to come to its end, with a result that has a property or with a fault. -/
inductive Returns (P : α → Prop) : Except (Option ε) α → Prop
  | ok {x : α} : P x → Returns P (.ok x)
  | fault (cause : ε) : Returns P (.error (some cause))

namespace Returns

variable {P : α → Prop} {Q : β → Prop}

theorem bind {x : Except (Option ε) α} (returns : Returns P x) {f : α → Except (Option ε) β}
    (rest : ∀ a, P a → Returns Q (f a)) : Returns Q (x >>= f) := by
  cases returns with
  | ok holds => exact rest _ holds
  | fault cause => exact .fault cause

theorem foldlM {f : α → ι → Except (Option ε) α} {l : List ι}
    (step : ∀ x i, i ∈ l → P x → Returns P (f x i)) {x : α} (start : P x) :
    Returns P (l.foldlM f x) := by
  induction l generalizing x with
  | nil => exact .ok start
  | cons i l ih =>
    rw [List.foldlM_cons]
    exact (step x i (List.mem_cons_self ..) start).bind fun y held =>
      ih (fun x j member => step x j (List.mem_cons_of_mem _ member)) held

end Returns

/-- The second run does what the first one does, unless that one runs out of fuel. -/
inductive Approximates : Except (Option ε) α → Except (Option ε) α → Prop
  | same (x : Except (Option ε) α) : Approximates x x
  | exhausted (y : Except (Option ε) α) : Approximates (.error none) y

namespace Approximates

theorem bind {x y : Except (Option ε) α} (first : Approximates x y)
    {f g : α → Except (Option ε) β} (rest : ∀ a, Approximates (f a) (g a)) :
    Approximates (x >>= f) (y >>= g) := by
  cases first with
  | same =>
    cases x with
    | error stop => exact .same _
    | ok a => exact rest a
  | exhausted => exact .exhausted _

theorem foldlM {f g : α → ι → Except (Option ε) α} (step : ∀ x i, Approximates (f x i) (g x i))
    (l : List ι) (x : α) : Approximates (l.foldlM f x) (l.foldlM g x) := by
  induction l generalizing x with
  | nil => exact .same _
  | cons i l ih =>
    rw [List.foldlM_cons, List.foldlM_cons]
    exact (step x i).bind ih

theorem eq {x y : Except (Option ε) α} (first : Approximates x y) (enough : x ≠ .error none) :
    y = x := by
  cases first with
  | same => rfl
  | exhausted => exact absurd rfl enough

end Approximates

end Returns

end GeneralizedLR
