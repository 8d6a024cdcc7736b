import GeneralizedLR.Proofs.Head.Merge
import GeneralizedLR.Word

/-!
One head for each path. In an arena whose chains are intact, heads that compare equal stand on the same
path, whatever the arena and the heads came from. A merge then keeps the best head of each path, in
the order in which the paths first occur, and it does not look at the heads that stand already.
-/

set_option autoImplicit false
set_option relaxedAutoImplicit false

namespace GeneralizedLR

variable {K V : Type} {a : Arena K V} {heads : List Head}

theorem Head.eq_of_rank_eq (distinct : (heads.map (·.serial)).Nodup) {head other : Head}
    (member : head ∈ heads) (member' : other ∈ heads) (same : other.rank = head.rank) :
    other = head := by
  have serial : other.serial = head.serial := congrArg (fun rank => (ofLex rank).2) same
  exact List.inj_on_of_nodup_map distinct member' member serial

theorem Head.perm_survivors {κ : Type} [DecidableEq κ] (key : Head → κ) {heads' : List Head}
    (distinct : (heads.map (·.serial)).Nodup) (perm : heads'.Perm heads) :
    (survivors key Head.rank heads').Perm (survivors key Head.rank heads) := by
  have nodup : ∀ heads, (survivors key Head.rank heads).Nodup := fun heads =>
    (nodup_map_key_survivors key Head.rank heads).of_map
  have keeps : ∀ {l l' : List Head}, (l.map (·.serial)).Nodup → l'.Perm l →
      ∀ head ∈ survivors key Head.rank l', head ∈ survivors key Head.rank l := by
    intro l l' distinct perm head survives
    have member := perm.mem_iff.mp (mem_of_mem_survivors survives)
    refine (mem_survivors_iff fun other listed => Head.eq_of_rank_eq distinct member listed).mpr
      ⟨member, fun other listed => ?_⟩
    exact rank_le_of_mem_survivors survives (perm.mem_iff.mpr listed)
  have distinct' : (heads'.map (·.serial)).Nodup := (perm.map _).nodup_iff.mpr distinct
  exact (List.perm_ext_iff_of_nodup (nodup heads') (nodup heads)).mpr fun head =>
    ⟨keeps distinct perm head, keeps distinct' perm.symm head⟩

/-- A merge leaves the heads that stand already and puts behind them one head for each path, in the
order in which the paths first occur: the one that ranks lowest, with the fewest repairs and then the
least serial number. It counts the others. The order of the heads that come does not matter for which
of them are kept, and a second merge keeps them all. -/
theorem Merged.behind_exact (linked : a.Linked)
    (live : ∀ head ∈ heads, (a.node? head.top).isSome) (distinct : (heads.map (·.serial)).Nodup)
    (standing : List Head) :
    ∃ kept, (behind a standing heads).1 = standing ++ kept ∧
      kept.map (fun head => a.path head.top) = (heads.map fun head => a.path head.top).eraseDups ∧
      (∀ head ∈ kept, head ∈ heads ∧ ∀ other ∈ heads,
        a.path other.top = a.path head.top → other ≠ head → head.rank < other.rank) ∧
      (behind a standing heads).2 + kept.length = heads.length ∧
      (∀ standing' heads', heads'.Perm heads →
        ∃ kept', (behind a standing' heads').1 = standing' ++ kept' ∧ kept'.Perm kept) ∧
      ∀ standing', behind a standing' kept = (standing' ++ kept, 0) := by
  have merged := ofHeads_eq_survivors linked live
  have counted := length_onto a [] heads
  simp only [behind, onto_eq a _]
  refine ⟨(ofHeads a heads).heads, rfl, ?_, ?_, ?_, ?_, ?_⟩
  · rw [merged, map_key_survivors]
  · intro head survives
    rw [merged] at survives
    have member := mem_of_mem_survivors survives
    refine ⟨member, fun other listed same other_ne => lt_of_le_of_ne ?_ fun equal => ?_⟩
    · exact rank_le_of_mem_survivors survives listed same
    · exact other_ne (Head.eq_of_rank_eq distinct member listed equal.symm)
  · rw [Nat.add_comm]
    exact counted.trans (Nat.zero_add _)
  · intro standing' heads' perm
    have live' : ∀ head ∈ heads', (a.node? head.top).isSome := fun head member =>
      live head (perm.mem_iff.mp member)
    refine ⟨_, rfl, ?_⟩
    rw [ofHeads_eq_survivors linked live', merged]
    exact Head.perm_survivors _ distinct perm
  · intro standing'
    have live' : ∀ head ∈ (ofHeads a heads).heads, (a.node? head.top).isSome := by
      rw [merged]
      exact fun head survives => live head (mem_of_mem_survivors survives)
    have again : ofHeads a (ofHeads a heads).heads = { heads := (ofHeads a heads).heads } := by
      refine ofHeads_of_nodup linked live' ?_
      rw [merged]
      exact nodup_map_key_survivors _ Head.rank heads
    rw [again, List.length_nil]

/-- Three stacks on one root, the first and the last of them with the same states. -/
def Arena.trident : Arena Word String where
  slots := #[some ⟨0, none, none, 0⟩, some ⟨1, some (.reduced "a"), some 0, 1⟩,
    some ⟨4, some (.reduced "b"), some 0, 1⟩, some ⟨1, some (.reduced "c"), some 0, 1⟩]

/-- Of three heads on one path the unrepaired one that came last is the oldest, so it is kept in the
place of the first. The head that stands already is on their path as well, but it is not compared. -/
theorem Merged.behind_exact_trident :
    Arena.trident.Linked ∧ ∃ kept,
      behind Arena.trident [{ top := 3, level := 2, serial := 9 }] [{ top := 1, level := 1, serial := 0 },
          { top := 2, serial := 4 }, { top := 3, serial := 5 }, { top := 1, serial := 3 }] =
        ({ top := 3, level := 2, serial := 9 } :: kept, 2) ∧
      kept = [{ top := 1, serial := 3 }, { top := 2, serial := 4 }] ∧
      kept.map (fun head => Arena.trident.path head.top) = [[0, 1], [0, 4]] ∧
      ∀ standing', behind Arena.trident standing' kept = (standing' ++ kept, 0) := by
  have linked : Arena.trident.Linked := by decide
  have live : ∀ head ∈ [({ top := 1, level := 1, serial := 0 } : Head), { top := 2, serial := 4 },
      { top := 3, serial := 5 }, { top := 1, serial := 3 }],
      (Arena.trident.node? head.top).isSome := by decide
  obtain ⟨kept, behind, paths, -, -, -, again⟩ :=
    behind_exact linked live (by decide) [{ top := 3, level := 2, serial := 9 }]
  obtain rfl : [{ top := 1, serial := 3 }, { top := 2, serial := 4 }] = kept :=
    congrArg List.tail behind
  exact ⟨linked, _, rfl, rfl, paths, again⟩

end GeneralizedLR
