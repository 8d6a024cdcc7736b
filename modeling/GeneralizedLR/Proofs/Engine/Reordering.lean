import GeneralizedLR.Proofs.Engine.Echo
import GeneralizedLR.Proofs.Engine.Fuel
import GeneralizedLR.Word
import Mathlib.Algebra.BigOperators.Group.Multiset.Basic
import Mathlib.Algebra.Group.Pi.Basic
import Mathlib.Algebra.Group.Prod

/-!
Tables that list the same entries in another order. What a branching has is counted as a tally: the
outlines of its branches at each place, without their order, and the counts of what was done. A branch
adds to the tally what its outline and the table tell, so the order in which branches are stepped and
repaired does not matter, nor does the order of the entries.
-/

set_option autoImplicit false
set_option relaxedAutoImplicit false

namespace GeneralizedLR

variable {K V : Type}

section Tally

/-- The states of a stack from the top down, and the number of repairs. -/
abbrev Outline := List Nat × Nat

def Branch.outline (b : Branch K V) : Outline := (Frame.states b.frames, b.level)

def Branch.outlines (branches : List (Branch K V)) : Multiset Outline := branches.map Branch.outline

@[simp] theorem Branch.outlines_nil : outlines ([] : List (Branch K V)) = 0 := rfl

@[simp] theorem Branch.outlines_cons (b : Branch K V) (branches : List (Branch K V)) :
    outlines (b :: branches) = {b.outline} + outlines branches := rfl

@[simp] theorem Branch.outlines_append (branches more : List (Branch K V)) :
    outlines (branches ++ more) = outlines branches + outlines more := by
  simp [outlines]

theorem Branch.card_outlines (branches : List (Branch K V)) :
    (outlines branches).card = branches.length := by
  simp [outlines]

theorem Branch.outlines_map_repaired (branches : List (Branch K V)) (record : ErrorRecord) :
    outlines (branches.map (·.repaired record)) =
      (outlines branches).map fun x => (x.1, x.2 + 1) := by
  simp [outlines, Function.comp_def, Branch.outline, Branch.repaired]

inductive Place where
  | live
  | waiting
  | shifted
  | stranded
  | accepted

def Branching.at (s : Branching K V) : Place → List (Branch K V)
  | .live => s.live
  | .waiting => s.waiting
  | .shifted => s.shifted
  | .stranded => s.stranded
  | .accepted => s.accepted

attribute [ext] Stats

instance : Zero Stats := ⟨{}⟩

instance : Add Stats where
  add a b :=
    ⟨a.tokens + b.tokens, a.shifts + b.shifts, a.reductions + b.reductions, a.forks + b.forks,
      a.deletions + b.deletions, a.insertions + b.insertions, a.merged + b.merged,
      a.reclaimed + b.reclaimed, a.strandings + b.strandings, a.closures + b.closures⟩

theorem Stats.add_eq (a b : Stats) : a + b =
    ⟨a.tokens + b.tokens, a.shifts + b.shifts, a.reductions + b.reductions, a.forks + b.forks,
      a.deletions + b.deletions, a.insertions + b.insertions, a.merged + b.merged,
      a.reclaimed + b.reclaimed, a.strandings + b.strandings, a.closures + b.closures⟩ := rfl

instance : AddCommMonoid Stats where
  nsmul := nsmulRec
  add_assoc a b c := by ext <;> exact Nat.add_assoc ..
  zero_add a := by ext <;> exact Nat.zero_add _
  add_zero a := rfl
  add_comm a b := by ext <;> exact Nat.add_comm ..

abbrev Tally := (Place → Multiset Outline) × Stats

def Branching.tally (s : Branching K V) : Tally := (fun place => Branch.outlines (s.at place), s.stats)

end Tally

section Outlook

def Table.lands (t : Table) (stack : List Nat) (production : Nat) : Option (Fate × List Nat) :=
  match t.production? production with
  | none => none
  | some rule =>
    match stack.drop rule.arity with
    | [] => none
    | uncovered :: below =>
      match t.landing rule uncovered with
      | .error _ => none
      | .ok state => some (if rule.isStart then .accepted else .waiting, state :: uncovered :: below)

/-- What becomes of a branch by the given entries of a table, in no order. -/
def Table.outlook (t : Table) (targets rules : List Nat) (x : Outline) : Multiset (Fate × Outline) :=
  (targets.map fun target => (Fate.shifted, (target :: x.1, x.2))) +
    ((rules.filterMap (t.lands x.1)).map fun move => (move.1, (move.2, x.2)) : List (Fate × Outline))

def Table.turn [Token K] (t : Table) (token : K) (x : Outline) : Multiset (Fate × Outline) :=
  let top := x.1.headD 0
  t.outlook (t.shifts top (Token.classify (t.shiftChannel? top) token))
    (t.reduces top (Token.classify (t.reduceChannel? top) token)) x

def Table.ahead (t : Table) (terminal : Nat) (x : Outline) : Multiset (Fate × Outline) :=
  let top := x.1.headD 0
  t.outlook (t.shifts top terminal) (t.reduces top terminal) x

def Fate.of (fate : Fate) (moved : Multiset (Fate × Outline)) : Multiset Outline :=
  (moved.filter fun move => move.1 = fate).map (·.2)

variable {p : Parser K V} {b : Branch K V}

theorem Parser.lands_states {lookahead : K} {frames : List (Frame K V)} {production : Nat}
    {move : Move K V} (run : p.reduct lookahead frames production = .ok move) :
    p.table.lands (Frame.states frames) production = some (move.1, Frame.states move.2) := by
  obtain ⟨rule, state, listed, arity, landing, rfl⟩ := Parser.reduct_eq_ok.mp run
  obtain ⟨below, top⟩ := Frame.exists_states_eq_cons (frames.drop rule.arity)
  have dropped : (Frame.states frames).drop rule.arity = Frame.states (frames.drop rule.arity) := by
    rw [Frame.states, Frame.states, List.drop_append_of_le_length (by simpa using arity),
      List.map_drop]
  unfold Table.lands
  rw [listed]
  simp only [dropped, top, landing]
  rw [Frame.states_cons, top]

theorem Parser.outlook_of_moves {lookahead lexeme : K} {targets rules : List Nat}
    {made : List (Move K V)} (run : p.moves lookahead lexeme targets rules b.frames = .ok made)
    (serial : Nat) :
    ((b.fork serial made).map fun fork => (fork.1, fork.2.outline) : List (Fate × Outline)) =
      p.table.outlook targets rules b.outline := by
  have forks : ∀ (moves : List (Move K V)) serial,
      (b.fork serial moves).map (fun fork => (fork.1, fork.2.outline)) =
        moves.map fun move => (move.1, (Frame.states move.2, b.level)) := by
    intro moves
    induction moves with
    | nil => exact fun _ => rfl
    | cons move moves ih => exact fun serial => congrArg _ (ih (serial + 1))
  unfold Parser.moves at run
  cases found : rules.mapM (p.reduct lookahead b.frames) with
  | error cause =>
    rw [found] at run
    cases run
  | ok reducts =>
    rw [found] at run
    cases run
    have landed : rules.filterMap (p.table.lands (Frame.states b.frames)) =
        reducts.map fun move => (move.1, Frame.states move.2) := by
      have related := forall₂_of_mapM_eq_ok found
      clear found
      induction related with
      | nil => rfl
      | cons one _ ih => rw [List.filterMap_cons, Parser.lands_states one, List.map_cons, ih]
    rw [forks, Table.outlook, Branch.outline, landed]
    simp [Function.comp_def]

theorem Frame.headD_states (frames : List (Frame K V)) :
    (Frame.states frames).headD 0 = Frame.top frames := by
  obtain ⟨below, top⟩ := Frame.exists_states_eq_cons frames
  rw [top]
  rfl

theorem Parser.turn_of_moves [Token K] {token : K} {made : List (Move K V)}
    (run : p.movesOn token b.frames = .ok made) (serial : Nat) :
    ((b.fork serial made).map fun fork => (fork.1, fork.2.outline) : List (Fate × Outline)) =
      p.table.turn token b.outline := by
  unfold Table.turn Branch.outline
  rw [Frame.headD_states]
  exact Parser.outlook_of_moves run serial

theorem Parser.ahead_of_moves [Token K] {token : K} {terminal : Nat} {made : List (Move K V)}
    (run : p.movesBefore token terminal b.frames = .ok made) (serial : Nat) :
    ((b.fork serial made).map fun fork => (fork.1, fork.2.outline) : List (Fate × Outline)) =
      p.table.ahead terminal b.outline := by
  unfold Table.ahead Branch.outline
  rw [Frame.headD_states]
  exact Parser.outlook_of_moves run serial

theorem Branch.length_fork (b : Branch K V) (serial : Nat) (made : List (Move K V)) :
    (b.fork serial made).length = made.length := by
  induction made generalizing serial with
  | nil => rfl
  | cons move made ih => exact congrArg (· + 1) (ih (serial + 1))

theorem Branch.outlines_select (fate : Fate) (forks : List (Fate × Branch K V)) :
    outlines (fate.select forks) =
      fate.of (forks.map fun fork => (fork.1, fork.2.outline) : List (Fate × Outline)) := by
  induction forks with
  | nil => rfl
  | cons fork rest ih =>
    rw [Fate.select_cons, List.map_cons, ← Multiset.cons_coe, Fate.of, Multiset.filter_cons]
    by_cases same : fork.1 = fate
    · simp [same, ih, Fate.of]
    · simp [same, ih, Fate.of]

theorem Branch.select_of_outlook {forks : List (Fate × Branch K V)} {moved : Multiset (Fate × Outline)}
    (told : (forks.map fun fork => (fork.1, fork.2.outline) : List (Fate × Outline)) = moved)
    (fate : Fate) : outlines (fate.select forks) = fate.of moved ∧
      (fate.select forks).length = (fate.of moved).card := by
  have selected : outlines (fate.select forks) = fate.of moved := by rw [outlines_select, told]
  exact ⟨selected, by rw [← selected, card_outlines]⟩

/-- Both tables have the same entries but for the order of those for one state and terminal. -/
structure Table.Reordered (t t' : Table) : Prop where
  descriptions : t.descriptions = t'.descriptions
  endOfStream : t.endOfStream = t'.endOfStream
  production : ∀ number, t.production? number = t'.production? number
  goto : ∀ state nonterminal, t.goto? state nonterminal = t'.goto? state nonterminal
  shiftChannel : ∀ state, t.shiftChannel? state = t'.shiftChannel? state
  reduceChannel : ∀ state, t.reduceChannel? state = t'.reduceChannel? state
  shifts : ∀ state terminal, (t.shifts state terminal).Perm (t'.shifts state terminal)
  reduces : ∀ state terminal, (t.reduces state terminal).Perm (t'.reduces state terminal)

namespace Table.Reordered

variable {t t' : Table}

theorem lands (same : t.Reordered t') : t.lands = t'.lands := by
  have landing : ∀ rule uncovered, t.landing rule uncovered = t'.landing rule uncovered := by
    intro rule uncovered
    simp only [Table.landing, same.goto]
  funext stack production
  simp only [Table.lands, same.production, landing]

theorem outlook (same : t.Reordered t') {targets targets' rules rules' : List Nat}
    (shifts : targets.Perm targets') (reduces : rules.Perm rules') (x : Outline) :
    t.outlook targets rules x = t'.outlook targets' rules' x := by
  unfold Table.outlook
  rw [same.lands, Multiset.coe_eq_coe.mpr (shifts.map _),
    Multiset.coe_eq_coe.mpr ((reduces.filterMap _).map _)]

theorem turn [Token K] (same : t.Reordered t') (token : K) : t.turn token = t'.turn token := by
  funext x
  simp only [Table.turn, same.shiftChannel, same.reduceChannel]
  exact same.outlook (same.shifts _ _) (same.reduces _ _) x

theorem ahead (same : t.Reordered t') (terminal : Nat) : t.ahead terminal = t'.ahead terminal :=
  funext fun x => same.outlook (same.shifts _ _) (same.reduces _ _) x

theorem insertable (same : t.Reordered t') : t.insertable = t'.insertable := by
  simp only [Table.insertable, Table.terminalCount, same.descriptions, same.endOfStream]

end Table.Reordered

end Outlook

section Additions

theorem foldlM_adds {ε α ι M : Type} [AddCommMonoid M] (measure : α → M) (adds : ι → M)
    {f : α → ι → Except ε α} {l : List ι}
    (step : ∀ x i y, f x i = .ok y → measure y = measure x + adds i) {x y : α}
    (run : l.foldlM f x = .ok y) : measure y = measure x + (l.map adds).sum := by
  induction l generalizing x with
  | nil =>
    cases run
    simp
  | cons i l ih =>
    rw [List.foldlM_cons] at run
    obtain ⟨x', one, rest⟩ := exists_of_bind_eq_ok run
    rw [ih rest, step x i x' one, List.map_cons, List.sum_cons, add_assoc]

theorem Branch.sum_outlines {M : Type} [AddCommMonoid M] (adds : Outline → M)
    (branches : List (Branch K V)) :
    (branches.map fun b => adds b.outline).sum = ((outlines branches).map adds).sum := by
  simp [outlines, Function.comp_def]

def Table.stepped [Token K] (t : Table) (token : K) (x : Outline) : Tally :=
  let moved := t.turn token x
  (fun
    | .live => 0
    | .waiting => Fate.waiting.of moved
    | .shifted => Fate.shifted.of moved
    | .stranded => if moved.card = 0 then {x} else 0
    | .accepted => Fate.accepted.of moved,
   { shifts := (Fate.shifted.of moved).card
     reductions := (Fate.waiting.of moved).card + (Fate.accepted.of moved).card
     forks := moved.card - 1
     strandings := if moved.card = 0 then 1 else 0 })

def Table.prepared (t : Table) (terminal : Nat) (x : Outline) : Tally × Multiset Outline :=
  let moved := t.ahead terminal x
  ((fun
    | .waiting => (Fate.shifted.of moved).map fun y => (y.1, y.2 + 1)
    | _ => 0,
    { insertions := (Fate.shifted.of moved).card
      closures := (Fate.waiting.of moved).card + (Fate.accepted.of moved).card }),
   Fate.waiting.of moved)

def Table.inserted (t : Table) (terminal : Nat) : Nat → Multiset Outline → Tally
  | 0, _ => 0
  | fuel + 1, queue =>
    let round := (queue.map (t.prepared terminal)).sum
    round.1 + t.inserted terminal fuel round.2

theorem Table.inserted_zero (t : Table) (terminal fuel : Nat) :
    t.inserted terminal fuel 0 = 0 := by
  induction fuel with
  | zero => rfl
  | succ fuel ih =>
    rw [Table.inserted]
    simpa using ih

def Table.repaired (t : Table) (ends : Bool) (fuel : Nat) (x : Outline) : Tally :=
  (if ends then 0
    else (fun
      | .shifted => {(x.1, x.2 + 1)}
      | _ => 0, { deletions := 1 })) +
  (t.insertable.map fun terminal => t.inserted terminal fuel {x}).sum

namespace Branching

variable [Token K] {p : Parser K V} {token : K} {s after : Branching K V} {b : Branch K V}

theorem tally_of_step (run : s.step p token b = .ok after) :
    after.tally = s.tally + p.table.stepped token b.outline := by
  obtain ⟨moves, found, rfl⟩ := step_eq_ok.mp run
  have turn := Parser.turn_of_moves found s.serial
  have count : (p.table.turn token b.outline).card = moves.length := by
    rw [← turn, Multiset.coe_card, List.length_map, Branch.length_fork]
  have selected := fun fate => (Branch.select_of_outlook turn fate).1
  have counts := fun fate => (Branch.select_of_outlook turn fate).2
  unfold Branching.conclude Table.stepped
  simp only [count]
  refine Prod.ext (funext fun place => ?_) ?_
  · cases place <;> by_cases none : moves.length = 0 <;>
      simp [Branching.tally, Branching.at, Branching.take, none, selected]
  · by_cases none : moves.length = 0 <;>
      simp [Branching.tally, Branching.take, none, counts, Stats.add_eq]

theorem tally_of_insertAt {terminal : Nat} {x y : Branching K V × List (Branch K V)}
    (run : Branching.insertAt p token terminal x b = .ok y) :
    (y.1.tally, Branch.outlines y.2) =
      (x.1.tally, Branch.outlines x.2) + p.table.prepared terminal b.outline := by
  obtain ⟨moves, found, rfl⟩ := insertAt_eq_ok.mp run
  obtain ⟨s, queue⟩ := x
  have ahead := Parser.ahead_of_moves found s.serial
  have selected := fun fate => (Branch.select_of_outlook ahead fate).1
  have counts := fun fate => (Branch.select_of_outlook ahead fate).2
  refine Prod.ext (Prod.ext (funext fun place => ?_) ?_) ?_
  · cases place <;> simp [Branching.tally, Branching.at, Branching.prepare, Table.prepared, selected,
      Branch.outlines_map_repaired]
  · simp [Branching.tally, Branching.prepare, Table.prepared, counts, Stats.add_eq]
  · simp [Branching.prepare, Table.prepared, selected]

theorem tally_of_insertAll {terminal fuel : Nat} {queue : List (Branch K V)}
    (run : insertAll p token terminal fuel (s, queue) = .ok after) :
    after.tally = s.tally + p.table.inserted terminal fuel (Branch.outlines queue) := by
  induction fuel generalizing s queue with
  | zero =>
    unfold Branching.insertAll at run
    split at run
    · cases run
      simp [Table.inserted]
    · cases run
  | succ fuel ih =>
    unfold Branching.insertAll at run
    split at run
    · next none =>
      cases run
      rw [List.isEmpty_iff.mp none, Branch.outlines_nil, Table.inserted_zero, add_zero]
    · obtain ⟨⟨s', queue'⟩, round, rest⟩ := exists_of_bind_eq_ok run
      have turned : (s'.tally, Branch.outlines queue') = (s.tally, Branch.outlines []) +
          (queue.map fun b => p.table.prepared terminal b.outline).sum :=
        foldlM_adds (M := Tally × Multiset Outline) (fun x => (x.1.tally, Branch.outlines x.2))
          (fun b => p.table.prepared terminal b.outline) (fun x b y one => tally_of_insertAt one) round
      rw [Branch.sum_outlines] at turned
      have tally : s'.tally = s.tally +
          (((Branch.outlines queue).map (p.table.prepared terminal)).sum).1 := congrArg Prod.fst turned
      have queued : Branch.outlines queue' =
          (((Branch.outlines queue).map (p.table.prepared terminal)).sum).2 :=
        (congrArg Prod.snd turned).trans (zero_add _)
      rw [ih rest, tally, queued, add_assoc]
      rfl

theorem tally_of_repair {fuel : Nat} (run : s.repair fuel p token b = .ok after) :
    after.tally = s.tally + p.table.repaired (Token.isEnd token) fuel b.outline := by
  unfold Branching.repair at run
  have inserted := foldlM_adds (M := Tally) Branching.tally
    (fun terminal => p.table.inserted terminal fuel {b.outline})
    (fun x terminal y one => tally_of_insertAll one) run
  rw [inserted, Table.repaired, ← add_assoc]
  congr 1
  split
  · exact (add_zero _).symm
  · refine Prod.ext (funext fun place => ?_) ?_
    · cases place <;> simp [Branching.tally, Branching.at, Branching.delete, Branch.outline,
        Branch.repaired]
    · simp [Branching.tally, Branching.delete, Stats.add_eq]

end Branching

end Additions

section Merge

variable {branches branches' : List (Branch K V)}

theorem Branch.mem_outlines_merge {x : Outline} : x ∈ outlines (merge branches).1 ↔
    x ∈ outlines branches ∧ ∀ y ∈ outlines branches, y.1 = x.1 → x.2 ≤ y.2 := by
  have states : ∀ {b b' : Branch K V}, b.path = b'.path ↔ b.outline.1 = b'.outline.1 :=
    Branch.path_eq_iff
  have listed : ∀ {l : List (Branch K V)} {x : Outline},
      x ∈ outlines l ↔ ∃ b ∈ l, b.outline = x := by
    intro l x
    simp [outlines]
  constructor
  · intro member
    obtain ⟨b, survives, rfl⟩ := listed.mp member
    refine ⟨listed.mpr ⟨b, mem_of_mem_survivors survives, rfl⟩, fun y member same => ?_⟩
    obtain ⟨b', present, rfl⟩ := listed.mp member
    have le := rank_le_of_mem_survivors survives present (states.mpr same)
    rcases Prod.Lex.le_iff.mp le with less | ⟨equal, -⟩
    · exact le_of_lt less
    · exact le_of_eq equal
  · rintro ⟨member, least⟩
    obtain ⟨b, present, rfl⟩ := listed.mp member
    obtain ⟨kept, survives, same, level⟩ := Branch.exists_mem_merge present
    have level' := least kept.outline (listed.mpr ⟨kept, mem_of_mem_survivors survives, rfl⟩) same
    exact listed.mpr ⟨kept, survives, Prod.ext same (le_antisymm level level')⟩

theorem Branch.nodup_outlines_merge (branches : List (Branch K V)) :
    (outlines (merge branches).1).Nodup := by
  have paths : ((merge branches).1.map path).Nodup := nodup_map_key_survivors ..
  refine Multiset.coe_nodup.mpr (List.Nodup.of_map (fun x : Outline => x.1.reverse) ?_)
  rw [List.map_map]
  refine (map_eq_map_of_forall₂ (List.forall₂_same.mpr fun b _ => rfl) fun b b' same => ?_) ▸ paths
  subst same
  exact Frame.path_eq_reverse b.frames

theorem Branch.outlines_merge (same : outlines branches = outlines branches') :
    outlines (merge branches).1 = outlines (merge branches').1 ∧
      (merge branches).2 = (merge branches').2 := by
  have kept : outlines (merge branches).1 = outlines (merge branches').1 := by
    refine ((nodup_outlines_merge branches).ext (nodup_outlines_merge branches')).mpr fun x => ?_
    rw [mem_outlines_merge, mem_outlines_merge, same]
  refine ⟨kept, ?_⟩
  have before := congrArg Multiset.card same
  have behind := congrArg Multiset.card kept
  rw [card_outlines, card_outlines] at before behind
  change branches.length - (merge branches).1.length = branches'.length - (merge branches').1.length
  rw [before, behind]

end Merge

section Reordered

namespace Table.Reordered

variable {t t' : Table}

theorem stepped [Token K] (same : t.Reordered t') (token : K) : t.stepped token = t'.stepped token := by
  funext x
  simp only [Table.stepped, same.turn]

theorem inserted (same : t.Reordered t') (terminal fuel : Nat) (queue : Multiset Outline) :
    t.inserted terminal fuel queue = t'.inserted terminal fuel queue := by
  have prepared : t.prepared terminal = t'.prepared terminal := by
    funext x
    simp only [Table.prepared, same.ahead]
  induction fuel generalizing queue with
  | zero => rfl
  | succ fuel ih => rw [Table.inserted, Table.inserted, prepared, ih]

theorem repaired (same : t.Reordered t') (ends : Bool) (fuel : Nat) :
    t.repaired ends fuel = t'.repaired ends fuel := by
  funext x
  simp only [Table.repaired, same.insertable, same.inserted]

end Table.Reordered

namespace Branching

variable {s s' after after' : Branching K V}

structure Tallies (s s' : Branching K V) : Prop where
  live : Branch.outlines s.live = Branch.outlines s'.live
  waiting : Branch.outlines s.waiting = Branch.outlines s'.waiting
  shifted : Branch.outlines s.shifted = Branch.outlines s'.shifted
  stranded : Branch.outlines s.stranded = Branch.outlines s'.stranded
  accepted : Branch.outlines s.accepted = Branch.outlines s'.accepted
  stats : s.stats = s'.stats

theorem tallies_iff : s.Tallies s' ↔ s.tally = s'.tally := by
  constructor
  · rintro ⟨live, waiting, shifted, stranded, accepted, stats⟩
    refine Prod.ext (funext fun place => ?_) stats
    cases place <;> assumption
  · intro same
    have places := congrFun (congrArg Prod.fst same)
    exact ⟨places .live, places .waiting, places .shifted, places .stranded, places .accepted,
      congrArg Prod.snd same⟩

theorem length_eq_of_outlines {branches branches' : List (Branch K V)}
    (same : Branch.outlines branches = Branch.outlines branches') :
    branches.length = branches'.length := by
  rw [← Branch.card_outlines, same, Branch.card_outlines]

theorem isEmpty_eq_of_outlines {branches branches' : List (Branch K V)}
    (same : Branch.outlines branches = Branch.outlines branches') :
    branches.isEmpty = branches'.isEmpty := by
  rw [Bool.eq_iff_iff, List.isEmpty_iff_length_eq_zero, List.isEmpty_iff_length_eq_zero,
    length_eq_of_outlines same]

/-- Loops whose rounds add what the outlines tell may take the branches in any order. -/
theorem Tallies.foldlM {ε : Type} (tallies : s.Tallies s') {branches branches' : List (Branch K V)}
    (turns : Branch.outlines branches = Branch.outlines branches') (adds : Outline → Tally)
    {f g : Branching K V → Branch K V → Except ε (Branching K V)}
    (step : ∀ x b y, f x b = .ok y → y.tally = x.tally + adds b.outline)
    (step' : ∀ x b y, g x b = .ok y → y.tally = x.tally + adds b.outline)
    (run : branches.foldlM f s = .ok after) (run' : branches'.foldlM g s' = .ok after') :
    after.Tallies after' := by
  have added := foldlM_adds (M := Tally) Branching.tally (fun b => adds b.outline) step run
  have added' := foldlM_adds (M := Tally) Branching.tally (fun b => adds b.outline) step' run'
  rw [tallies_iff, added, added', Branch.sum_outlines, Branch.sum_outlines, tallies_iff.mp tallies, turns]

variable [Token K] {p p' : Parser K V} {token : K}

theorem Tallies.pass (tallies : s.Tallies s') (same : p.table.Reordered p'.table) {fuel : Nat}
    (run : s.pass p token fuel = .ok after) (run' : s'.pass p' token fuel = .ok after') :
    after.Tallies after' := by
  induction fuel generalizing s s' with
  | zero =>
    rw [Branching.pass, isEmpty_eq_of_outlines tallies.live] at run
    rw [Branching.pass] at run'
    split at run
    · next none =>
      rw [if_pos none] at run'
      cases run
      cases run'
      exact tallies
    · cases run
  | succ fuel ih =>
    rw [Branching.pass, isEmpty_eq_of_outlines tallies.live] at run
    rw [Branching.pass] at run'
    split at run
    · next none =>
      rw [if_pos none] at run'
      cases run
      cases run'
      exact tallies
    · next some =>
      rw [if_neg some] at run'
      obtain ⟨stepped, round, rest⟩ := exists_of_bind_eq_ok run
      obtain ⟨stepped', round', rest'⟩ := exists_of_bind_eq_ok run'
      have begun : Tallies { s with live := [] } { s' with live := [] } := { tallies with live := rfl }
      have turned := begun.foldlM tallies.live (p.table.stepped token) (fun _ _ _ => tally_of_step)
        (fun _ _ _ => same.stepped token ▸ tally_of_step) round round'
      have next : Tallies { stepped with live := stepped.waiting, waiting := [] }
          { stepped' with live := stepped'.waiting, waiting := [] } :=
        { turned with live := turned.waiting, waiting := rfl }
      exact ih next rest rest'

theorem Tallies.recover (tallies : s.Tallies s') (same : p.table.Reordered p'.table) {fuel : Nat}
    (run : s.recover Branch.merge fuel p token = .ok after)
    (run' : s'.recover Branch.merge fuel p' token = .ok after') : after.Tallies after' := by
  obtain ⟨repaired, round, rest⟩ := exists_of_bind_eq_ok run
  obtain ⟨repaired', round', rest'⟩ := exists_of_bind_eq_ok run'
  cases rest
  cases rest'
  have begun : Tallies { s with stranded := [] } { s' with stranded := [] } :=
    { tallies with stranded := rfl }
  have turned := begun.foldlM tallies.stranded (p.table.repaired (Token.isEnd token) fuel)
    (fun _ _ _ => tally_of_repair) (fun _ _ _ => same.repaired _ fuel ▸ tally_of_repair) round round'
  obtain ⟨live, merged⟩ := Branch.outlines_merge turned.waiting
  exact { turned with live, waiting := rfl, stats := by simp only [turned.stats, merged] }

theorem Tallies.advance (tallies : s.Tallies s') (same : p.table.Reordered p'.table)
    {fuel rounds : Nat} (run : s.advance Branch.merge fuel p token rounds = .ok after)
    (run' : s'.advance Branch.merge fuel p' token rounds = .ok after') : after.Tallies after' := by
  induction rounds generalizing s s' with
  | zero => cases run
  | succ rounds ih =>
    obtain ⟨passed, first, rest⟩ := exists_of_bind_eq_ok run
    obtain ⟨passed', first', rest'⟩ := exists_of_bind_eq_ok run'
    have turned := tallies.pass same first first'
    rw [isEmpty_eq_of_outlines turned.shifted, isEmpty_eq_of_outlines turned.stranded,
      length_eq_of_outlines tallies.accepted, length_eq_of_outlines turned.accepted] at rest
    split at rest
    · next settled =>
      rw [if_pos settled] at rest'
      cases rest
      cases rest'
      exact turned
    · next open_ =>
      rw [if_neg open_] at rest'
      split at rest
      · next settled =>
        rw [if_pos settled] at rest'
        cases rest
        cases rest'
        exact turned
      · next stuck =>
        rw [if_neg stuck] at rest'
        obtain ⟨recovered, second, rest⟩ := exists_of_bind_eq_ok rest
        obtain ⟨recovered', second', rest'⟩ := exists_of_bind_eq_ok rest'
        exact ih (turned.recover same second second') rest rest'

theorem Tallies.input (tallies : s.Tallies s') (same : p.table.Reordered p'.table) {fuel : Nat}
    (run : s.input Branch.merge fuel p token = .ok after)
    (run' : s'.input Branch.merge fuel p' token = .ok after') : after.Tallies after' := by
  obtain ⟨last, advanced, settled⟩ := exists_of_bind_eq_ok run
  obtain ⟨last', advanced', settled'⟩ := exists_of_bind_eq_ok run'
  cases settled
  cases settled'
  have begun : Tallies { s with stats := { s.stats with tokens := s.stats.tokens + 1 } }
      { s' with stats := { s'.stats with tokens := s'.stats.tokens + 1 } } :=
    { tallies with stats := by simp only [tallies.stats] }
  have turned := begun.advance same advanced advanced'
  obtain ⟨shifted, merged⟩ := Branch.outlines_merge turned.shifted
  obtain ⟨accepted, merged'⟩ := Branch.outlines_merge turned.accepted
  exact { turned with
    live := shifted
    shifted := rfl
    stranded := rfl
    accepted := accepted
    stats := by simp only [settle, turned.stats, merged, merged'] }

theorem Tallies.parse (tallies : s.Tallies s') (same : p.table.Reordered p'.table) {fuel : Nat}
    {tokens : List K} (run : Branching.parse Branch.merge fuel p tokens s = .ok after)
    (run' : Branching.parse Branch.merge fuel p' tokens s' = .ok after') : after.Tallies after' := by
  induction tokens generalizing s s' with
  | nil =>
    cases run
    cases run'
    exact tallies
  | cons token rest ih =>
    obtain ⟨next, taken, run⟩ := exists_of_bind_eq_ok run
    obtain ⟨next', taken', run'⟩ := exists_of_bind_eq_ok run'
    exact ih (tallies.input same taken taken') run run'

end Branching

end Reordered

section Offers

private theorem Branch.perm_offers {a a' : Arena K V} {accepted : Bool} {heads heads' : List Head}
    {branches branches' : List (Branch K V)}
    (shown : List.Forall₂ (Head.Shown a accepted) heads branches)
    (shown' : List.Forall₂ (Head.Shown a' accepted) heads' branches')
    (same : outlines branches = outlines branches') :
    (heads.map fun head => (a.path head.top, head.level)).Perm
      (heads'.map fun head => (a'.path head.top, head.level)) := by
  have offers : ∀ {a : Arena K V} {heads : List Head} {branches : List (Branch K V)},
      List.Forall₂ (Head.Shown a accepted) heads branches →
        heads.map (fun head => (a.path head.top, head.level)) =
          (branches.map Branch.outline).map fun x => (x.1.reverse, x.2) := by
    intro a heads branches shown
    rw [List.map_map]
    refine map_eq_map_of_forall₂ shown fun head b same => ?_
    rw [same.holds.path, same.level, Frame.path_eq_reverse]
    rfl
  rw [offers shown, offers shown']
  exact (Multiset.coe_eq_coe.mp same).map _

variable [Token K] {p p' : Parser K V} {fuel fuel' : Nat} {tokens : List K} {e e' : Engine K V}

/-- The order of the entries for a state and a terminal only breaks ties. If both tables take in the
tokens, the live heads have the same paths with the same numbers of repairs, and so have the accepted
ones; up to the reclaimed nodes the counts are the same. -/
theorem Engine.parse_reordered (same : p.table.Reordered p'.table)
    (run : Engine.parse fuel p tokens .start = .ok e)
    (run' : Engine.parse fuel' p' tokens .start = .ok e') :
    (e.heads.map fun head => (e.arena.path head.top, head.level)).Perm
        (e'.heads.map fun head => (e'.arena.path head.top, head.level)) ∧
      (e.accepted.map fun head => (e.arena.path head.top, head.level)).Perm
        (e'.accepted.map fun head => (e'.arena.path head.top, head.level)) ∧
      { e.stats with reclaimed := 0 } = { e'.stats with reclaimed := 0 } := by
  obtain ⟨s, parsed, shows⟩ := Engine.exists_parse_of_parse run
  obtain ⟨s', parsed', shows'⟩ := Engine.exists_parse_of_parse run'
  have more := (Branching.parse_mono (p := p) Branch.merge tokens .start
    (le_max_left fuel fuel')).eq (by simp [parsed])
  have more' := (Branching.parse_mono (p := p') Branch.merge tokens .start
    (le_max_right fuel fuel')).eq (by simp [parsed'])
  have begun : (Branching.start : Branching K V).Tallies .start := ⟨rfl, rfl, rfl, rfl, rfl, rfl⟩
  have tallies := begun.parse same (more.trans parsed) (more'.trans parsed')
  exact ⟨Branch.perm_offers shows.live shows'.live tallies.live,
    Branch.perm_offers shows.accepted shows'.accepted tallies.accepted,
    shows.stats.trans (tallies.stats.trans shows'.stats.symm)⟩

end Offers

/-- A word can be read in two ways, and the value tells in which one it was. -/
def Word.twofold (first second : Nat) : Parser Word String where
  table :=
    { descriptions := ["a", "end"]
      endOfStream := 1
      productions := [⟨0, 1, false⟩, ⟨0, 1, false⟩, ⟨1, 1, true⟩]
      shiftEntries := [⟨0, 0, 1⟩]
      reduceEntries := [⟨1, 0, first⟩, ⟨1, 0, second⟩, ⟨2, 0, 2⟩]
      gotoEntries := [⟨0, 0, 2⟩] }
  reducer
    | 0 => Word.labelled "x"
    | 1 => Word.labelled "y"
    | _ => Word.joined

theorem Word.twofold_reordered : (Word.twofold 0 1).table.Reordered (Word.twofold 1 0).table where
  descriptions := rfl
  endOfStream := rfl
  production _ := rfl
  goto _ _ := rfl
  shiftChannel _ := rfl
  reduceChannel _ := rfl
  shifts _ _ := .refl _
  reduces state terminal := by
    refine List.Perm.map _ (List.Perm.filter _ ?_)
    exact .swap ..

theorem Engine.parse_reordered_twofold : ∃ e e',
    Engine.parse 9 (Word.twofold 0 1) [{ terminal := 0, text := "a" }, { terminal := 0 }] .start = .ok e ∧
      Engine.parse 9 (Word.twofold 1 0) [{ terminal := 0, text := "a" }, { terminal := 0 }] .start =
        .ok e' ∧
      e.stats.merged = 1 ∧ e.result 0 = .ok "x(a)" ∧ e'.result 0 = .ok "y(a)" ∧
      (e.accepted.map fun head => (e.arena.path head.top, head.level)).Perm
        (e'.accepted.map fun head => (e'.arena.path head.top, head.level)) := by
  obtain ⟨e, run, merged, result⟩ : ∃ e,
      Engine.parse 9 (Word.twofold 0 1) [{ terminal := 0, text := "a" }, { terminal := 0 }] .start =
        .ok e ∧ e.stats.merged = 1 ∧ e.result 0 = .ok "x(a)" := ⟨_, rfl, rfl, rfl⟩
  obtain ⟨e', run', result'⟩ : ∃ e',
      Engine.parse 9 (Word.twofold 1 0) [{ terminal := 0, text := "a" }, { terminal := 0 }] .start =
        .ok e' ∧ e'.result 0 = .ok "y(a)" := ⟨_, rfl, rfl⟩
  exact ⟨e, e', run, run', merged, result, result',
    (Engine.parse_reordered Word.twofold_reordered run run').2.1⟩

end GeneralizedLR
