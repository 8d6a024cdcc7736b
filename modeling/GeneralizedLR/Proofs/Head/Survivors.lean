import Mathlib.Data.List.Forall2
import Mathlib.Data.List.Induction
import Mathlib.Data.List.Nodup
import Mathlib.Data.List.Perm.Subperm
import Mathlib.Data.Prod.Lex

/-!
What a merge keeps. Elements with a common key are merged into the one of least rank, which stands
where the first of them stood. Merging heads does this with their stacks as keys and with the number
of repairs, and then the age, as their rank.
-/

set_option autoImplicit false
set_option relaxedAutoImplicit false

namespace GeneralizedLR

section Survivors

variable {α κ ρ : Type} [DecidableEq κ] [LinearOrder ρ]

/-- Put `x` behind the others, or into the place of its key if its rank is lower. -/
def seat (key : α → κ) (rank : α → ρ) (x : α) : List α → List α
  | [] => [x]
  | y :: rest =>
    if key x = key y then (if rank x < rank y then x else y) :: rest
    else y :: seat key rank x rest

/-- Seat all elements in turn. -/
def survivors (key : α → κ) (rank : α → ρ) (l : List α) : List α :=
  l.foldl (fun kept x => seat key rank x kept) []

variable {key : α → κ} {rank : α → ρ}

private theorem mem_of_mem_seat {x y : α} {kept : List α} (member : y ∈ seat key rank x kept) :
    y = x ∨ y ∈ kept := by
  induction kept with
  | nil => simpa [seat] using member
  | cons z rest ih =>
    unfold seat at member
    split at member
    · rcases List.mem_cons.mp member with rfl | member
      · split
        · exact .inl rfl
        · exact .inr (List.mem_cons_self ..)
      · exact .inr (List.mem_cons_of_mem _ member)
    · rcases List.mem_cons.mp member with rfl | member
      · exact .inr (List.mem_cons_self ..)
      · rcases ih member with same | member
        · exact .inl same
        · exact .inr (List.mem_cons_of_mem _ member)

private theorem map_key_seat (key : α → κ) (rank : α → ρ) (x : α) (kept : List α) :
    (seat key rank x kept).map key =
      if key x ∈ kept.map key then kept.map key else kept.map key ++ [key x] := by
  induction kept with
  | nil => simp [seat]
  | cons y rest ih =>
    unfold seat
    by_cases same : key x = key y
    · rw [if_pos same]
      by_cases better : rank x < rank y <;> simp [same, better]
    · rw [if_neg same, List.map_cons, ih]
      have members : key x ∈ (y :: rest).map key ↔ key x ∈ rest.map key := by simp [same]
      by_cases known : key x ∈ rest.map key
      · rw [if_pos known, if_pos (members.mpr known), List.map_cons]
      · rw [if_neg known, if_neg (members.not.mpr known), List.map_cons, List.cons_append]

theorem seat_of_not_mem {x : α} {kept : List α} (fresh : key x ∉ kept.map key) :
    seat key rank x kept = kept ++ [x] := by
  induction kept with
  | nil => rfl
  | cons y rest ih =>
    rw [List.map_cons, List.mem_cons, not_or] at fresh
    rw [seat, if_neg fresh.1, ih fresh.2, List.cons_append]

theorem seat_of_getElem? {x y : α} {kept : List α} {place : Nat} (distinct : (kept.map key).Nodup)
    (there : kept[place]? = some y) (same : key x = key y) :
    seat key rank x kept = if rank x < rank y then kept.set place x else kept := by
  induction kept generalizing place with
  | nil => cases there
  | cons z rest ih =>
    rw [List.map_cons, List.nodup_cons] at distinct
    unfold seat
    cases place with
    | zero =>
      obtain rfl : z = y := Option.some.inj there
      rw [if_pos same, List.set_cons_zero]
      split <;> rfl
    | succ place =>
      rw [List.getElem?_cons_succ] at there
      have other : key x ≠ key z := fun equal =>
        distinct.1 (equal ▸ same ▸ List.mem_map_of_mem (List.mem_of_getElem? there))
      rw [if_neg other, ih distinct.2 there, List.set_cons_succ]
      split <;> rfl

private theorem exists_seat_le (key : α → κ) (rank : α → ρ) (x : α) (kept : List α) :
    (∃ y ∈ seat key rank x kept, key y = key x ∧ rank y ≤ rank x) ∧
      ∀ z ∈ kept, ∃ y ∈ seat key rank x kept, key y = key z ∧ rank y ≤ rank z := by
  induction kept with
  | nil => simp [seat]
  | cons y rest ih =>
    obtain ⟨self, others⟩ := ih
    unfold seat
    by_cases same : key x = key y
    · rw [if_pos same]
      by_cases better : rank x < rank y
      · rw [if_pos better]
        refine ⟨⟨x, by simp, rfl, le_rfl⟩, fun z member => ?_⟩
        rcases List.mem_cons.mp member with rfl | member
        · exact ⟨x, by simp, same, better.le⟩
        · exact ⟨z, by simp [member], rfl, le_rfl⟩
      · rw [if_neg better]
        refine ⟨⟨y, by simp, same.symm, not_lt.mp better⟩, fun z member => ?_⟩
        exact ⟨z, member, rfl, le_rfl⟩
    · rw [if_neg same]
      refine ⟨?_, fun z member => ?_⟩
      · obtain ⟨w, member, keys, ranks⟩ := self
        exact ⟨w, List.mem_cons_of_mem _ member, keys, ranks⟩
      · rcases List.mem_cons.mp member with rfl | member
        · exact ⟨z, by simp, rfl, le_rfl⟩
        · obtain ⟨w, member, keys, ranks⟩ := others z member
          exact ⟨w, List.mem_cons_of_mem _ member, keys, ranks⟩

theorem survivors_concat (l : List α) (x : α) :
    survivors key rank (l ++ [x]) = seat key rank x (survivors key rank l) := by
  simp [survivors, List.foldl_append]

theorem mem_of_mem_survivors {l : List α} {y : α} (member : y ∈ survivors key rank l) : y ∈ l := by
  induction l using List.reverseRecOn with
  | nil => simp [survivors] at member
  | append_singleton l x ih =>
    rw [survivors_concat] at member
    rcases mem_of_mem_seat member with rfl | member
    · simp
    · simp [ih member]

theorem nodup_map_key_survivors (key : α → κ) (rank : α → ρ) (l : List α) : ((survivors key rank l).map key).Nodup := by
  induction l using List.reverseRecOn with
  | nil => simp [survivors]
  | append_singleton l x ih =>
    rw [survivors_concat, map_key_seat]
    split
    · exact ih
    · next fresh =>
      refine List.nodup_append.mpr ⟨ih, by simp, fun k member k' last same => ?_⟩
      obtain rfl := List.mem_singleton.mp last
      exact fresh (same ▸ member)

theorem survivors_subperm (key : α → κ) (rank : α → ρ) (l : List α) :
    (survivors key rank l).Subperm l :=
  (nodup_map_key_survivors key rank l).of_map.subperm fun _ => mem_of_mem_survivors

theorem exists_survivor_le (key : α → κ) (rank : α → ρ) {l : List α} {x : α} (member : x ∈ l) :
    ∃ y ∈ survivors key rank l, key y = key x ∧ rank y ≤ rank x := by
  induction l using List.reverseRecOn with
  | nil => simp at member
  | append_singleton l z ih =>
    rw [survivors_concat]
    obtain ⟨self, others⟩ := exists_seat_le key rank z (survivors key rank l)
    rcases List.mem_append.mp member with member | member
    · obtain ⟨w, survives, keys, ranks⟩ := ih member
      obtain ⟨y, seated, keys', ranks'⟩ := others w survives
      exact ⟨y, seated, keys'.trans keys, ranks'.trans ranks⟩
    · obtain rfl := List.mem_singleton.mp member
      exact self

theorem rank_le_of_mem_survivors {l : List α} {x y : α} (survives : x ∈ survivors key rank l)
    (member : y ∈ l) (same : key y = key x) : rank x ≤ rank y := by
  obtain ⟨z, survives', same', le⟩ := exists_survivor_le key rank member
  obtain rfl := List.inj_on_of_nodup_map (nodup_map_key_survivors key rank l) survives survives'
    (same.symm.trans same'.symm)
  exact le

theorem mem_survivors_iff {l : List α} {x : α} (different : ∀ y ∈ l, rank y = rank x → y = x) :
    x ∈ survivors key rank l ↔ x ∈ l ∧ ∀ y ∈ l, key y = key x → rank x ≤ rank y := by
  constructor
  · exact fun survives => ⟨mem_of_mem_survivors survives, fun y => rank_le_of_mem_survivors survives⟩
  · rintro ⟨member, least⟩
    obtain ⟨y, survives, same, le⟩ := exists_survivor_le key rank member
    have listed := mem_of_mem_survivors survives
    rwa [← different y listed (le.antisymm (least y listed same))]

theorem survivors_singleton (x : α) : survivors key rank [x] = [x] := rfl

theorem survivors_eq_nil_iff {l : List α} : survivors key rank l = [] ↔ l = [] := by
  constructor
  · intro none
    rw [List.eq_nil_iff_forall_not_mem]
    intro x member
    obtain ⟨y, survives, _⟩ := exists_survivor_le key rank member
    simp [none] at survives
  · rintro rfl
    rfl

private theorem seat_of_le {x : α} {kept : List α}
    (ranks : ∀ y ∈ kept, rank y ≤ rank x) :
    seat key rank x kept = if key x ∈ kept.map key then kept else kept ++ [x] := by
  induction kept with
  | nil => simp [seat]
  | cons y rest ih =>
    unfold seat
    by_cases same : key x = key y
    · simp [same, (ranks y (List.mem_cons_self ..)).not_gt]
    · have members : key x ∈ (y :: rest).map key ↔ key x ∈ rest.map key := by simp [same]
      rw [if_neg same, ih fun z member => ranks z (List.mem_cons_of_mem _ member)]
      by_cases known : key x ∈ rest.map key
      · rw [if_pos known, if_pos (members.mpr known)]
      · rw [if_neg known, if_neg (members.not.mpr known), List.cons_append]

theorem mem_map_key_survivors_iff {l : List α} {k : κ} :
    k ∈ (survivors key rank l).map key ↔ k ∈ l.map key := by
  simp only [List.mem_map]
  constructor
  · rintro ⟨x, survives, same⟩
    exact ⟨x, mem_of_mem_survivors survives, same⟩
  · rintro ⟨x, member, rfl⟩
    obtain ⟨y, survives, same, -⟩ := exists_survivor_le key rank member
    exact ⟨y, survives, same⟩

theorem map_key_survivors [BEq κ] [LawfulBEq κ] (key : α → κ) (rank : α → ρ) (l : List α) :
    (survivors key rank l).map key = (l.map key).eraseDups := by
  induction l using List.reverseRecOn with
  | nil => simp [survivors]
  | append_singleton l x ih =>
    have fresh : ∀ keys : List κ, [key x].removeAll keys = if key x ∈ keys then [] else [key x] :=
      fun keys => by by_cases known : key x ∈ keys <;> simp [List.removeAll, known]
    rw [survivors_concat, map_key_seat, List.map_append, List.map_singleton, List.eraseDups_append,
      ← ih, fresh]
    by_cases known : key x ∈ l.map key
    · rw [if_pos (mem_map_key_survivors_iff.mpr known), if_pos known, List.eraseDups_nil,
        List.append_nil]
    · rw [if_neg (mem_map_key_survivors_iff.not.mpr known), if_neg known]
      rfl

theorem survivors_concat_of_pairwise {l : List α} {x : α}
    (ordered : (l ++ [x]).Pairwise fun y z => rank y ≤ rank z) :
    survivors key rank (l ++ [x]) =
      if key x ∈ l.map key then survivors key rank l else survivors key rank l ++ [x] := by
  have ranks : ∀ y ∈ survivors key rank l, rank y ≤ rank x := fun y survives =>
    (List.pairwise_append.mp ordered).2.2 y (mem_of_mem_survivors survives) x (by simp)
  rw [survivors_concat, seat_of_le ranks]
  simp only [mem_map_key_survivors_iff]

/-- What survives in the order of the ranks is the first of its key, and what came before it has
survivors before it. -/
theorem exists_split_of_survivors {l before behind : List α} {x : α}
    (ordered : l.Pairwise fun y z => rank y ≤ rank z)
    (kept : survivors key rank l = before ++ x :: behind) :
    ∃ before' behind', l = before' ++ x :: behind' ∧ key x ∉ before'.map key ∧
      ∀ y ∈ before', key y ∈ before.map key := by
  induction l using List.reverseRecOn generalizing behind with
  | nil => simp [survivors] at kept
  | append_singleton l z ih =>
    have ordered' := (List.pairwise_append.mp ordered).1
    rw [survivors_concat_of_pairwise ordered] at kept
    split at kept
    · obtain ⟨before', behind', rfl, fresh, known⟩ := ih ordered' kept
      exact ⟨before', behind' ++ [z], by simp, fresh, known⟩
    · next fresh =>
      rcases List.eq_nil_or_concat behind with rfl | ⟨rest, last, rfl⟩
      · obtain ⟨rfl, same⟩ := List.append_inj' kept rfl
        cases same
        refine ⟨l, [], rfl, fresh, fun y member => ?_⟩
        exact mem_map_key_survivors_iff.mpr (List.mem_map_of_mem member)
      · rw [List.concat_eq_append, ← List.cons_append, ← List.append_assoc] at kept
        obtain ⟨kept, -⟩ := List.append_inj' kept rfl
        obtain ⟨before', behind', rfl, fresh, known⟩ := ih ordered' kept
        exact ⟨before', behind' ++ [z], by simp, fresh, known⟩

theorem exists_survivors_of_split {before behind : List α} {x : α}
    (ordered : (before ++ x :: behind).Pairwise fun y z => rank y ≤ rank z)
    (fresh : key x ∉ before.map key) :
    ∃ before' behind', survivors key rank (before ++ x :: behind) = before' ++ x :: behind' ∧
      ∀ y ∈ before', y ∈ before := by
  induction behind using List.reverseRecOn with
  | nil =>
    refine ⟨survivors key rank before, [], ?_, fun y => mem_of_mem_survivors⟩
    rw [survivors_concat_of_pairwise ordered, if_neg fresh]
  | append_singleton behind z ih =>
    rw [← List.cons_append, ← List.append_assoc] at ordered ⊢
    obtain ⟨before', behind', kept, old⟩ := ih (List.pairwise_append.mp ordered).1
    rw [survivors_concat_of_pairwise ordered, kept]
    split
    · exact ⟨before', behind', rfl, old⟩
    · exact ⟨before', behind' ++ [z], by simp, old⟩

theorem exists_survivors_eq_singleton (rank : α → ρ) {l : List α} {k : κ} (same : ∀ x ∈ l, key x = k)
    (filled : l ≠ []) : ∃ x ∈ l, survivors key rank l = [x] := by
  have distinct := nodup_map_key_survivors key rank l
  have members : ∀ x ∈ survivors key rank l, x ∈ l := fun x => mem_of_mem_survivors
  cases kept : survivors key rank l with
  | nil => exact absurd (survivors_eq_nil_iff.mp kept) filled
  | cons x rest =>
    rw [kept] at distinct members
    refine ⟨x, members x (by simp), ?_⟩
    cases rest with
    | nil => rfl
    | cons y rest =>
      have keys := (same x (members x (by simp))).trans (same y (members y (by simp))).symm
      simp [keys] at distinct

private theorem exists_seat_append {R R' : α → α → Prop} {x : α} (keep : ∀ y z, R y z → R' y z)
    (replace : ∀ y z, R y z → key x = key z → rank x < rank z → R' y x) {l kept : List α}
    (related : List.Forall₂ R l kept) (fresh : List α) :
    ∃ kept' fresh', seat key rank x (kept ++ fresh) = kept' ++ fresh' ∧ List.Forall₂ R' l kept' := by
  induction related with
  | nil => exact ⟨[], _, rfl, .nil⟩
  | @cons y z l kept head tail ih =>
    rw [List.cons_append, seat]
    by_cases same : key x = key z
    · rw [if_pos same]
      refine ⟨(if rank x < rank z then x else z) :: kept, fresh, rfl, .cons ?_ (tail.imp keep)⟩
      split
      · next better => exact replace y z head same better
      · exact keep y z head
    · obtain ⟨kept', fresh', split, others⟩ := ih
      rw [if_neg same, split]
      exact ⟨z :: kept', fresh', rfl, .cons (keep y z head) others⟩

theorem survivors_of_nodup (rank : α → ρ) {l : List α} (distinct : (l.map key).Nodup) :
    survivors key rank l = l := by
  induction l using List.reverseRecOn with
  | nil => rfl
  | append_singleton l x ih =>
    rw [List.map_append, List.nodup_append] at distinct
    rw [survivors_concat, ih distinct.1, seat_of_not_mem fun known =>
      distinct.2.2 _ known _ (by simp) rfl]

/-- Elements with different keys all survive in their places, until one of lower rank is seated there. -/
theorem exists_survivors_append (rank : α → ρ) {l : List α} (distinct : (l.map key).Nodup)
    (more : List α) :
    ∃ kept fresh, survivors key rank (l ++ more) = kept ++ fresh ∧
      List.Forall₂ (fun x y => key y = key x ∧ (y = x ∨ (y ∈ more ∧ rank y < rank x))) l kept := by
  induction more using List.reverseRecOn with
  | nil =>
    refine ⟨l, [], ?_, List.forall₂_same.mpr fun x _ => ⟨rfl, .inl rfl⟩⟩
    rw [List.append_nil l, survivors_of_nodup rank distinct]
  | append_singleton more x ih =>
    obtain ⟨kept, fresh, split, related⟩ := ih
    rw [← List.append_assoc, survivors_concat, split]
    refine exists_seat_append (fun y z old => ?_) (fun y z old same better => ?_) related fresh
    · exact ⟨old.1, old.2.imp_right fun young => ⟨List.mem_append_left _ young.1, young.2⟩⟩
    · refine ⟨same.trans old.1, .inr ⟨by simp, ?_⟩⟩
      rcases old.2 with rfl | ⟨-, lower⟩
      · exact better
      · exact better.trans lower

/-- Related elements are merged alike if their keys agree in the same pairs and their ranks are the
same. -/
theorem forall₂_survivors {β κ' : Type} [DecidableEq κ'] {key' : β → κ'} {rank' : β → ρ}
    {R : α → β → Prop} (ranks : ∀ {x y}, R x y → rank x = rank' y)
    (keys : ∀ {x y x' y'}, R x x' → R y y' → (key x = key y ↔ key' x' = key' y'))
    {l : List α} {l' : List β} (related : List.Forall₂ R l l') :
    List.Forall₂ R (survivors key rank l) (survivors key' rank' l') := by
  have seats : ∀ {x x'}, R x x' → ∀ {kept kept'}, List.Forall₂ R kept kept' →
      List.Forall₂ R (seat key rank x kept) (seat key' rank' x' kept') := by
    intro x x' same kept kept' others
    induction others with
    | nil => exact .cons same .nil
    | @cons y y' rest rest' head tail ih =>
      unfold seat
      by_cases equal : key x = key y
      · rw [if_pos equal, if_pos ((keys same head).mp equal), ranks same, ranks head]
        split
        · exact .cons same tail
        · exact .cons head tail
      · rw [if_neg equal, if_neg fun equal' => equal ((keys same head).mpr equal')]
        exact .cons head ih
  have folds : ∀ {kept kept'}, List.Forall₂ R kept kept' →
      List.Forall₂ R (l.foldl (fun kept x => seat key rank x kept) kept)
        (l'.foldl (fun kept x => seat key' rank' x kept) kept') := by
    induction related with
    | nil => exact id
    | cons head _ ih => exact fun others => ih (seats head others)
  exact folds .nil

end Survivors

end GeneralizedLR
