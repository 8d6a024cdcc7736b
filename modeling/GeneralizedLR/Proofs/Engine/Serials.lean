import GeneralizedLR.Proofs.Engine.Abandoned

/-!
The heads between two calls. Every head that a token makes gets the next serial number, so no two
heads have the same one; of the heads that shift or drop the token, the merge keeps the best one of
each path.
-/

set_option autoImplicit false
set_option relaxedAutoImplicit false

namespace GeneralizedLR

variable {K V : Type}

def Branch.numbered (n : Nat) (branches : List (Branch K V)) : Nat :=
  branches.countP (·.serial == n)

/-- One for a number that is given out while the counter goes from `low` to `high`. -/
def issued (low high n : Nat) : Nat :=
  if low < n ∧ n ≤ high then 1 else 0

theorem issued_add {low middle high : Nat} (first : low ≤ middle) (second : middle ≤ high) (n : Nat) :
    issued low middle n + issued middle high n = issued low high n := by
  grind [issued]

namespace Branch

variable {n : Nat} {b : Branch K V} {branches more : List (Branch K V)}

@[simp] theorem numbered_nil : numbered n ([] : List (Branch K V)) = 0 := rfl

@[simp] theorem numbered_cons :
    numbered n (b :: branches) = numbered n branches + if b.serial = n then 1 else 0 := by
  simp [numbered, List.countP_cons]

@[simp] theorem numbered_append :
    numbered n (branches ++ more) = numbered n branches + numbered n more :=
  List.countP_append

@[simp] theorem numbered_map_repaired (record : ErrorRecord) :
    numbered n (branches.map (·.repaired record)) = numbered n branches := by
  rw [numbered, List.countP_map]
  rfl

theorem numbered_merge_le (n : Nat) (branches : List (Branch K V)) :
    numbered n (merge branches).1 ≤ numbered n branches :=
  (survivors_subperm path rank branches).countP_le _

theorem numbered_fork (n serial : Nat) (b : Branch K V) (moves : List (Move K V)) :
    numbered n (Fate.shifted.select (b.fork serial moves)) +
        numbered n (Fate.waiting.select (b.fork serial moves)) +
          numbered n (Fate.accepted.select (b.fork serial moves)) =
      issued serial (serial + moves.length) n := by
  induction moves generalizing serial with
  | nil => simp [Branch.fork, issued]
  | cons move moves ih =>
    obtain ⟨fate, frames⟩ := move
    have rest := ih (serial + 1)
    have here : issued serial (serial + (moves.length + 1)) n =
        issued (serial + 1) (serial + 1 + moves.length) n + if serial + 1 = n then 1 else 0 := by
      grind [issued]
    cases fate <;> simp [Branch.fork] <;> omega

end Branch

namespace Branching

def numbered (s : Branching K V) (n : Nat) : Nat :=
  Branch.numbered n s.live + Branch.numbered n s.waiting + Branch.numbered n s.shifted +
    Branch.numbered n s.stranded + Branch.numbered n s.accepted

/-- A change that gives out only new serial numbers, and none of them twice. With `old` and `fresh`
count the branches outside, and each branch that is new among the shifted ones is a shift or a
deletion. -/
structure Issues (s : Branching K V) (old : List (Branch K V)) (after : Branching K V)
    (fresh : List (Branch K V)) : Prop where
  serial : s.serial ≤ after.serial
  numbers : ∀ n, after.numbered n + Branch.numbered n fresh ≤
    s.numbered n + Branch.numbered n old + issued s.serial after.serial n
  counts : after.shifted.length + (s.stats.shifts + s.stats.deletions) =
    s.shifted.length + (after.stats.shifts + after.stats.deletions)

variable {s s' after : Branching K V} {b : Branch K V} {old old' fresh : List (Branch K V)}

theorem Issues.refl (s : Branching K V) (old : List (Branch K V)) : s.Issues old s old :=
  ⟨Nat.le_refl _, fun _ => Nat.le_add_right .., rfl⟩

theorem Issues.trans (first : s.Issues old s' old') (second : s'.Issues old' after fresh) :
    s.Issues old after fresh where
  serial := first.serial.trans second.serial
  numbers n := by
    have left := first.numbers n
    have right := second.numbers n
    have numbers := issued_add first.serial second.serial n
    omega
  counts := by
    have left := first.counts
    have right := second.counts
    omega

theorem Issues.frame (issues : s.Issues old after fresh) (others : List (Branch K V)) :
    s.Issues (old ++ others) after (fresh ++ others) where
  serial := issues.serial
  numbers n := by
    have numbers := issues.numbers n
    simp only [Branch.numbered_append]
    omega
  counts := issues.counts

theorem Issues.drop (issues : s.Issues old after fresh) : s.Issues old after [] where
  serial := issues.serial
  numbers n := (Nat.le_add_right ..).trans (issues.numbers n)
  counts := issues.counts

theorem conclude_issues (s : Branching K V) (b : Branch K V) (moves : List (Move K V)) :
    s.Issues [b] ((s.take b moves).conclude b moves.length) [] := by
  refine ⟨?_, fun n => ?_, ?_⟩
  · unfold conclude
    split <;> exact Nat.le_add_right ..
  · have forks := Branch.numbered_fork n s.serial b moves
    unfold conclude
    split
    · next none =>
      obtain rfl := List.length_eq_zero_iff.mp none
      simp [numbered, take, Branch.fork]
      omega
    · simp only [numbered, take, Branch.numbered_append, Branch.numbered_nil]
      omega
  · unfold conclude
    split <;> simp [take] <;> omega

theorem prepare_issues (record : ErrorRecord) (s : Branching K V) (queue : List (Branch K V))
    (b : Branch K V) (moves : List (Move K V)) :
    s.Issues queue (prepare record b moves (s, queue)).1 (prepare record b moves (s, queue)).2 := by
  refine ⟨Nat.le_add_right .., fun n => ?_, rfl⟩
  have forks := Branch.numbered_fork n s.serial b moves
  simp only [numbered, prepare, Branch.numbered_append, Branch.numbered_map_repaired]
  omega

theorem Issues.of_le (numbers : ∀ n, after.numbered n + Branch.numbered n fresh ≤
      s.numbered n + Branch.numbered n old) (serial : after.serial = s.serial)
    (shifted : after.shifted = s.shifted) (shifts : after.stats.shifts = s.stats.shifts)
    (deletions : after.stats.deletions = s.stats.deletions) : s.Issues old after fresh where
  serial := serial.ge
  numbers n := (numbers n).trans (Nat.le_add_right ..)
  counts := by rw [shifted, shifts, deletions]

variable [Token K] {p : Parser K V} {token : K}

theorem foldlM_step_issues {branches : List (Branch K V)}
    (run : branches.foldlM (step p token) s = .ok after) : s.Issues branches after [] := by
  induction branches generalizing s with
  | nil =>
    cases run
    exact .refl _ []
  | cons b rest ih =>
    rw [List.foldlM_cons] at run
    obtain ⟨s', one, run⟩ := exists_of_bind_eq_ok run
    obtain ⟨moves, -, rfl⟩ := step_eq_ok.mp one
    exact ((conclude_issues s b moves).frame rest).trans (ih run)

theorem pass_issues {fuel : Nat} (run : s.pass p token fuel = .ok after) :
    s.Issues [] after [] := by
  induction fuel generalizing s with
  | zero =>
    unfold Branching.pass at run
    split at run
    · cases run
      exact .refl _ []
    · cases run
  | succ fuel ih =>
    unfold Branching.pass at run
    split at run
    · cases run
      exact .refl _ []
    · obtain ⟨s', round, rest⟩ := exists_of_bind_eq_ok run
      have taken : s.Issues [] { s with live := [] } s.live :=
        .of_le (fun n => by simp [numbered]; omega) rfl rfl rfl rfl
      have turned : s'.Issues [] { s' with live := s'.waiting, waiting := [] } [] :=
        .of_le (fun n => by simp [numbered]) rfl rfl rfl rfl
      exact (taken.trans (foldlM_step_issues round)).trans (turned.trans (ih rest))

theorem insertAll_issues {terminal fuel : Nat} {queue : List (Branch K V)}
    (run : insertAll p token terminal fuel (s, queue) = .ok after) : s.Issues [] after [] := by
  induction fuel generalizing s queue with
  | zero =>
    unfold Branching.insertAll at run
    split at run
    · cases run
      exact .refl _ []
    · cases run
  | succ fuel ih =>
    unfold Branching.insertAll at run
    split at run
    · cases run
      exact .refl _ []
    · obtain ⟨⟨s', queue'⟩, round, rest⟩ := exists_of_bind_eq_ok run
      have turned : s.Issues [] s' queue' := by
        refine foldlM_keeps (fun x : Branching K V × List (Branch K V) => s.Issues [] x.1 x.2)
          (fun x b y _ held one => ?_) (.refl s []) round
        obtain ⟨moves, -, rfl⟩ := insertAt_eq_ok.mp one
        exact held.trans (prepare_issues _ x.1 x.2 b moves)
      exact turned.drop.trans (ih rest)

theorem repair_issues {fuel : Nat} (run : s.repair fuel p token b = .ok after) :
    s.Issues [] after [] := by
  unfold Branching.repair at run
  refine foldlM_keeps (fun x => s.Issues [] x [])
    (fun x terminal y _ held one => held.trans (insertAll_issues one)) ?_ run
  split
  · exact .refl _ []
  · refine ⟨Nat.le_succ _, fun n => ?_, by simp [delete]; omega⟩
    have given : issued s.serial (s.serial + 1) n = if s.serial + 1 = n then 1 else 0 := by
      grind [issued]
    simp [numbered, delete, given]
    omega

theorem recover_issues {fuel : Nat} (run : s.recover Branch.merge fuel p token = .ok after) :
    s.Issues [] after [] := by
  obtain ⟨s', repaired, rest⟩ := exists_of_bind_eq_ok run
  cases rest
  have taken : s.Issues [] { s with stranded := [] } [] :=
    .of_le (fun n => by simp [numbered]) rfl rfl rfl rfl
  have turned : { s with stranded := [] }.Issues [] s' [] :=
    foldlM_keeps (Issues _ [] · []) (fun x b y _ held one => held.trans (repair_issues one))
      (.refl _ []) repaired
  refine (taken.trans turned).trans (.of_le (fun n => ?_) rfl rfl rfl rfl)
  have merges := Branch.numbered_merge_le n s'.waiting
  simp only [numbered, Branch.numbered_nil]
  omega

theorem advance_issues {fuel rounds : Nat}
    (run : s.advance Branch.merge fuel p token rounds = .ok after) : s.Issues [] after [] := by
  induction rounds generalizing s with
  | zero => cases run
  | succ rounds ih =>
    obtain ⟨s', passed, rest⟩ := exists_of_bind_eq_ok run
    have first := pass_issues passed
    split at rest
    · cases rest
      exact first
    · split at rest
      · cases rest
        exact first
      · obtain ⟨s'', recovered, rest⟩ := exists_of_bind_eq_ok rest
        exact first.trans ((recover_issues recovered).trans (ih rest))

/-- The branches have different serial numbers, none above the counter. -/
structure Numbered (s : Branching K V) : Prop where
  once : ∀ n, s.numbered n ≤ 1
  bounded : ∀ n, s.serial < n → s.numbered n = 0

omit [Token K] in
theorem Numbered.begun (numbered : s.Numbered) (stats : Stats) : { s with stats }.Numbered :=
  ⟨numbered.once, numbered.bounded⟩

omit [Token K] in
theorem Numbered.issues (numbered : s.Numbered) (issues : s.Issues [] after []) :
    after.Numbered := by
  have numbers := issues.numbers
  have serial := issues.serial
  simp only [Branch.numbered_nil, Nat.add_zero, issued] at numbers
  constructor
  · intro n
    have once := numbered.once n
    have bounded := numbered.bounded n
    have := numbers n
    grind
  · intro n above
    have bounded := numbered.bounded n (serial.trans_lt above)
    have := numbers n
    grind

omit [Token K] in
theorem settle_issues (s : Branching K V) (waiting : s.waiting = []) :
    (s.settle Branch.merge).serial = s.serial ∧
      ∀ n, (s.settle Branch.merge).numbered n ≤ s.numbered n := by
  refine ⟨rfl, fun n => ?_⟩
  have accepted := Branch.numbered_merge_le n s.accepted
  have shifted := Branch.numbered_merge_le n s.shifted
  simp only [numbered, settle, waiting, Branch.numbered_nil]
  omega

theorem Reached.numbered {past : List K} (reached : Branching.Reached p past s) : s.Numbered := by
  induction reached with
  | start =>
    have root : ∀ n, (Branching.start : Branching K V).numbered n = if 0 = n then 1 else 0 := by
      intro n
      simp [Branching.numbered, Branching.start]
    refine ⟨fun n => ?_, fun n above => ?_⟩
    · rw [root]
      split <;> omega
    · have above : 0 < n := above
      rw [root, if_neg above.ne]
  | @input past token fuel s after found run ih =>
    obtain ⟨last, advanced, settled⟩ := exists_of_bind_eq_ok run
    cases settled
    have numbered := (ih.begun _).issues (advance_issues advanced)
    obtain ⟨serial, le⟩ := last.settle_issues (advance_eq_ok advanced found.idle.waiting)
    refine ⟨fun n => (le n).trans (numbered.once n), fun n above => ?_⟩
    exact Nat.le_zero.mp ((le n).trans (numbered.bounded n (serial ▸ above)).le)
  | @fault past token s after _ left ih =>
    have le : ∀ n, after.numbered n ≤ s.numbered n := by
      intro n
      simp only [Branching.numbered, left.live, left.waiting, left.shifted, left.stranded,
        left.accepted, Branch.numbered_nil]
      omega
    refine ⟨fun n => (le n).trans (ih.once n), fun n above => ?_⟩
    exact Nat.le_zero.mp ((le n).trans (ih.bounded n (left.serial.trans_lt above)).le)

/-- After every call the live branches have different paths, and so have the accepted ones. -/
theorem Reached.distinct {past : List K} (reached : Branching.Reached p past s) :
    (s.live.map Branch.path).Nodup ∧ (s.accepted.map Branch.path).Nodup := by
  induction reached with
  | start => exact ⟨List.nodup_singleton _, List.nodup_nil⟩
  | input _ run =>
    obtain ⟨last, -, settled⟩ := exists_of_bind_eq_ok run
    cases settled
    exact ⟨nodup_map_key_survivors .., nodup_map_key_survivors ..⟩
  | fault _ left ih =>
    rw [left.live, left.accepted]
    exact ⟨List.nodup_nil, ih.2⟩

end Branching

section Heads

variable {e after : Engine K V} {s : Branching K V}

theorem Head.Shown.path {a : Arena K V} {accepted : Bool} {h : Head} {b : Branch K V}
    (shown : h.Shown a accepted b) : a.path h.top = b.path :=
  shown.holds.path

private theorem Branch.count_serials {a : Arena K V} {accepted : Bool} {heads : List Head}
    {branches : List (Branch K V)} (shown : List.Forall₂ (Head.Shown a accepted) heads branches)
    (n : Nat) : (heads.map Head.serial).count n = Branch.numbered n branches := by
  rw [map_eq_map_of_forall₂ shown fun _ _ same => same.serial, List.count, List.countP_map]
  rfl

theorem Engine.Shows.serials (shows : e.Shows s) (numbered : s.Numbered) :
    ((e.heads ++ e.accepted).map Head.serial).Nodup ∧
      ∀ head ∈ e.heads ++ e.accepted, head.serial ≤ e.serial := by
  have counts : ∀ n, ((e.heads ++ e.accepted).map Head.serial).count n ≤ s.numbered n := by
    intro n
    rw [List.map_append, List.count_append, Branch.count_serials shows.live,
      Branch.count_serials shows.accepted, Branching.numbered]
    omega
  constructor
  · exact List.nodup_iff_count_le_one.mpr fun n => (counts n).trans (numbered.once n)
  · intro head member
    by_contra above
    have some := List.count_pos_iff.mpr (List.mem_map_of_mem (f := Head.serial) member)
    have none := numbered.bounded head.serial (shows.serial ▸ Nat.lt_of_not_le above)
    have le := counts head.serial
    omega

theorem Engine.Shows.mem_ofHeads_iff (shows : e.Shows s) (numbered : s.Numbered) (head : Head) :
    head ∈ (Merged.ofHeads e.arena e.shifted.reverse).heads ↔
      head ∈ e.shifted ∧ ∀ other ∈ e.shifted,
        e.arena.path other.top = e.arena.path head.top → head.rank ≤ other.rank := by
  have filled : ∀ head ∈ e.shifted.reverse, (e.arena.node? head.top).isSome := by
    intro head member
    obtain ⟨b, -, shown⟩ := exists_of_forall₂_left shows.shifted member
    obtain ⟨node, found, -⟩ := shown.holds.node?
    exact Option.isSome_of_eq_some found
  have serials : (e.shifted.map Head.serial).Nodup := by
    refine List.nodup_iff_count_le_one.mpr fun n => le_trans ?_ (numbered.once n)
    rw [← List.count_reverse, ← List.map_reverse, Branch.count_serials shows.shifted,
      Branching.numbered]
    omega
  rw [Merged.ofHeads_eq_survivors shows.sound.linked filled]
  by_cases member : head ∈ e.shifted
  · rw [mem_survivors_iff fun other listed same => ?_]
    · simp only [List.mem_reverse]
    · refine List.inj_on_of_nodup_map serials (List.mem_reverse.mp listed) member ?_
      exact congrArg (fun rank => (ofLex rank).2) same
  · refine iff_of_false (fun survives => ?_) fun both => member both.1
    exact member (List.mem_reverse.mp (mem_of_mem_survivors survives))

private theorem Engine.settle_counts (merge : Arena K V → List Head → Merged) (e : Engine K V) :
    (e.settle merge).stats.shifts = e.stats.shifts ∧
      (e.settle merge).stats.deletions = e.stats.deletions := by
  have records : ∀ (e : Engine K V) pairs, (e.recordMerges pairs).stats.shifts = e.stats.shifts ∧
      (e.recordMerges pairs).stats.deletions = e.stats.deletions := by
    intro e pairs
    obtain ⟨journal, eq⟩ := e.recordMerges_eq pairs
    rw [eq]
    exact ⟨rfl, rfl⟩
  simp only [Engine.settle, Engine.record, records, and_self]

variable [Token K] {p : Parser K V} {past : List K} {token : K} {ended : Bool}

/-- After every call the live heads have different paths, and so have the accepted ones; the heads that
are accepted are flagged, and no two heads have the same serial number. The live heads after a call that
ends well are those of least rank on their paths, among all that shifted or dropped the token. -/
theorem Engine.Reached.keeps_best (reached : Engine.Reached p past e)
    (takes : e.Takes Merged.ofHeads p token ended after) :
    (after.heads.map fun head => after.arena.path head.top).Nodup ∧
    (after.accepted.map fun head => after.arena.path head.top).Nodup ∧
    (∀ head ∈ after.heads, head.accepted = false) ∧
    (∀ head ∈ after.accepted, head.accepted = true) ∧
    ((after.heads ++ after.accepted).map Head.serial).Nodup ∧
    (∀ head ∈ after.heads ++ after.accepted, head.serial ≤ after.serial) ∧
    ((ended = false ∧ after.heads = []) ∨ ended = true ∧ ∃ fuel last,
      e.begun.advance Merged.ofHeads fuel p token fuel = .ok last ∧
      after = last.settle Merged.ofHeads ∧
      last.shifted.length + (e.stats.shifts + e.stats.deletions) =
        after.stats.shifts + after.stats.deletions ∧
      ∀ head, head ∈ after.heads ↔ head ∈ last.shifted ∧ ∀ other ∈ last.shifted,
        last.arena.path other.top = last.arena.path head.top → head.rank ≤ other.rank) := by
  obtain ⟨s', found', shows'⟩ := (reached.takes takes).shows
  obtain ⟨live, accepted⟩ := found'.distinct
  obtain ⟨serials, bounded⟩ := shows'.serials found'.numbered
  refine ⟨?_, ?_, ?_, ?_, serials, bounded, ?_⟩
  · rwa [map_eq_map_of_forall₂ shows'.live fun _ _ shown => shown.path]
  · rwa [map_eq_map_of_forall₂ shows'.accepted fun _ _ shown => shown.path]
  · intro head member
    obtain ⟨b, -, shown⟩ := exists_of_forall₂_left shows'.live member
    exact shown.accepted
  · intro head member
    obtain ⟨b, -, shown⟩ := exists_of_forall₂_left shows'.accepted member
    exact shown.accepted
  · cases takes with
    | @fault fuel cause _ run =>
      obtain ⟨stopped, -, rfl⟩ := Engine.exists_of_inputWith_eq_fault run
      exact .inl ⟨rfl, rfl⟩
    | @ok fuel _ run =>
      obtain ⟨last, advanced, rfl⟩ := Engine.exists_of_inputWith_eq_ok run
      obtain ⟨s, found, shows⟩ := reached.shows
      have follows := shows.begun.advance faithful_ofHeads fuel p token fuel
      rw [advanced] at follows
      generalize result : Branching.advance Branch.merge fuel p token fuel _ = outcome at follows
      obtain ⟨shows', extended⟩ := follows
      have issues := Branching.advance_issues result
      refine .inr ⟨rfl, fuel, last, advanced, rfl, ?_,
        shows'.mem_ofHeads_iff ((found.numbered.begun _).issues issues)⟩
      have counts := issues.counts
      simp only [found.idle.shifted, List.length_nil, ← shows.stats, ← shows'.stats,
        ← shows'.shifted.length_eq, List.length_reverse] at counts
      rw [(last.settle_counts Merged.ofHeads).1, (last.settle_counts Merged.ofHeads).2]
      omega

end Heads

/-- A word is reduced in two ways to the same state before the next one. -/
def Word.doubled : Parser Word String where
  table :=
    { descriptions := ["a", "end"]
      endOfStream := 1
      productions := [⟨0, 1, false⟩, ⟨0, 1, false⟩]
      shiftEntries := [⟨0, 0, 1⟩, ⟨2, 0, 3⟩]
      reduceEntries := [⟨1, 0, 0⟩, ⟨1, 0, 1⟩]
      gotoEntries := [⟨0, 0, 2⟩] }
  reducer := fun _ => Word.joined

theorem Engine.Reached.keeps_best_doubled : ∃ e after, ∃ last : Engine Word String,
    Engine.Reached Word.doubled [Word.a] e ∧ e.Takes Merged.ofHeads Word.doubled Word.a true after ∧
      last.shifted.length = 2 ∧ after.heads.length = 1 ∧
        ∀ head ∈ after.heads, head ∈ last.shifted ∧ ∀ other ∈ last.shifted,
          last.arena.path other.top = last.arena.path head.top → head.rank ≤ other.rank := by
  obtain ⟨e, run, counts⟩ : ∃ e, Engine.parse 9 Word.doubled [Word.a] .start = .ok e ∧
      e.stats.shifts + e.stats.deletions = 1 := ⟨_, rfl, rfl⟩
  have reached := Engine.Reached.start.parse run
  obtain ⟨after, taken, counts', live⟩ : ∃ after, e.input 9 Word.doubled Word.a = .ok after ∧
      after.stats.shifts + after.stats.deletions = 3 ∧ after.heads.length = 1 := by
    cases run
    exact ⟨_, rfl, rfl, rfl⟩
  have takes : e.Takes Merged.ofHeads Word.doubled Word.a true after := .ok taken
  obtain ⟨-, -, -, -, -, -, ⟨fault, -⟩ | ⟨-, fuel, last, -, -, shifted, least⟩⟩ :=
    reached.keeps_best takes
  · cases fault
  · exact ⟨e, after, last, reached, takes, by omega, live, fun head => (least head).mp⟩

end GeneralizedLR
