import GeneralizedLR.Proofs.Engine.Deletion

/-!
Tokens that are inserted and tokens that are read. At the end of the stream a recovery inserts every
terminal that a stranded stack shifts. A run that reads one of these terminals in place of the end shifts
it from the same stacks, if they are reduced alike before both. So the insertions of this terminal echo
what that run shifts.
-/

set_option autoImplicit false
set_option relaxedAutoImplicit false

namespace GeneralizedLR

variable {K V : Type} [Token K] {p : Parser K V} {token last : K}

def Parser.correction (p : Parser K V) (token : K) (terminal : Nat) : K :=
  Token.correction token terminal (p.table.describe terminal)

/-- What comes of a stack if a terminal is inserted that the stack shifts at once. -/
def Parser.insertionsOf (p : Parser K V) (token : K) (terminal : Nat) (x : Sketch K V) :
    List (Sketch K V) :=
  (p.table.shifts (Frame.top x.1) terminal).map fun target =>
    (⟨target, .lexeme (p.correction token terminal)⟩ :: x.1,
      x.2 ++ [Branching.missing p token terminal])

def Parser.insertions (p : Parser K V) (token : K) (x : Sketch K V) : List (Sketch K V) :=
  p.table.insertable.flatMap fun terminal => p.insertionsOf token terminal x

omit [Token K] in
theorem Branch.Aged.repaired {level serial : Nat} {branches : List (Branch K V)}
    (aged : Branch.Aged level serial branches) (record : ErrorRecord) :
    Branch.Aged (level + 1) serial (branches.map (·.repaired record)) where
  ordered := List.pairwise_map.mpr aged.ordered
  level := by
    intro b member
    obtain ⟨b', listed, rfl⟩ := List.mem_map.mp member
    exact congrArg (· + 1) (aged.level b' listed)
  old := by
    intro b member
    obtain ⟨b', listed, rfl⟩ := List.mem_map.mp member
    exact aged.old b' listed

namespace Branching

section Recovery

variable {s next after : Branching K V} {b : Branch K V} {level fuel : Nat}

/-- Younger branches were put behind those that wait, and what was shifted or accepted is as it was. -/
structure Gains (level : Nat) (sketches : List (Sketch K V)) (s after : Branching K V) : Prop where
  waiting : ∃ more, after.waiting = s.waiting ++ more ∧ more.map Branch.sketch = sketches ∧
    Branch.Aged level after.serial more ∧ ∀ b ∈ more, s.serial < b.serial
  older : s.serial ≤ after.serial
  shifted : after.shifted = s.shifted
  accepted : after.accepted = s.accepted

namespace Gains

variable {sketches others : List (Sketch K V)}

omit [Token K] in
theorem refl (level : Nat) (s : Branching K V) : s.Gains level [] s :=
  ⟨⟨[], by simp, rfl, .nil, by simp⟩, le_rfl, rfl, rfl⟩

omit [Token K] in
theorem trans (first : s.Gains level sketches next) (second : next.Gains level others after) :
    s.Gains level (sketches ++ others) after := by
  obtain ⟨more, waiting, drawn, aged, young⟩ := first.waiting
  obtain ⟨more', waiting', drawn', aged', young'⟩ := second.waiting
  refine ⟨⟨more ++ more', by rw [waiting', waiting, List.append_assoc], by simp [drawn, drawn'],
    aged.append second.older aged' young', fun b member => ?_⟩, first.older.trans second.older,
    second.shifted.trans first.shifted, second.accepted.trans first.accepted⟩
  rcases List.mem_append.mp member with member | member
  · exact young b member
  · exact first.older.trans_lt (young' b member)

omit [Token K] in
theorem foldlM {ι : Type} {f : Branching K V → ι → Except (Option Fault) (Branching K V)}
    {made : ι → List (Sketch K V)} {l : List ι}
    (gains : ∀ s i after, i ∈ l → f s i = .ok after → s.Gains level (made i) after)
    (run : l.foldlM f s = .ok after) : s.Gains level (l.flatMap made) after := by
  induction l generalizing s with
  | nil =>
    cases run
    exact .refl level _
  | cons i l ih =>
    rw [List.foldlM_cons] at run
    obtain ⟨next, one, rest⟩ := exists_of_bind_eq_ok run
    rw [List.flatMap_cons]
    exact (gains s i next (List.mem_cons_self ..) one).trans
      (ih (fun s j after member => gains s j after (List.mem_cons_of_mem i member)) rest)

end Gains

private theorem insertAll_nil (s : Branching K V) (terminal fuel : Nat) :
    insertAll p last terminal fuel (s, []) = .ok s := by
  cases fuel <;> rfl

omit [Token K] in
private theorem map_sketch_repaired (branches : List (Branch K V)) (record : ErrorRecord) :
    (branches.map (·.repaired record)).map Branch.sketch =
      (branches.map Branch.sketch).map fun x => (x.1, x.2 ++ [record]) := by
  rw [List.map_map, List.map_map]
  rfl

private theorem insertAll_gains {terminal : Nat} (same : b.level = level)
    (still : p.table.reduces (Frame.top b.frames) terminal = [])
    (run : insertAll p last terminal fuel (s, [b]) = .ok after) :
    s.Gains (level + 1) (p.insertionsOf last terminal b.sketch) after := by
  cases fuel with
  | zero => cases run
  | succ fuel =>
    rw [insertAll, if_neg (by simp)] at run
    obtain ⟨⟨s', queue⟩, inserted, rest⟩ := exists_of_bind_eq_ok run
    rw [List.foldlM_cons] at inserted
    obtain ⟨_, one, done⟩ := exists_of_bind_eq_ok inserted
    cases done
    obtain ⟨made, found, prepared⟩ := insertAt_eq_ok.mp one
    obtain rfl : made = (p.table.shifts (Frame.top b.frames) terminal).map fun target =>
        (.shifted, ⟨target, .lexeme (p.correction last terminal)⟩ :: b.frames) := by
      rw [Parser.movesBefore, still] at found
      exact (Except.ok.inj found).symm.trans (List.append_nil _)
    obtain ⟨rfl, rfl⟩ := Prod.mk.inj prepared
    have queued : Fate.waiting.select (b.fork s.serial
        ((p.table.shifts (Frame.top b.frames) terminal).map fun target =>
          (Fate.shifted, ⟨target, .lexeme (p.correction last terminal)⟩ :: b.frames))) = [] := by
      refine List.map_eq_nil_iff.mp ((sketch_select_fork b .waiting s.serial _).trans ?_)
      simp
    rw [queued, List.append_nil, insertAll_nil] at rest
    cases rest
    refine ⟨⟨_, rfl, ?_, (Branch.Aged.fork same .shifted s.serial _).repaired _, fun b' member => ?_⟩,
      Nat.le_add_right _ _, rfl, rfl⟩
    · rw [map_sketch_repaired, sketch_select_fork]
      simp [Parser.insertionsOf, Branch.sketch, List.filter_map, Function.comp_def]
    · obtain ⟨b'', forked, rfl⟩ := List.mem_map.mp member
      have young := Branch.serial_lt_of_mem_fork forked
      exact young

theorem recover_inserts (ends : Token.isEnd last = true) (waiting : s.waiting = [])
    (stuck : ∀ b ∈ s.stranded, b.level = level ∧
      ∀ terminal ∈ p.table.insertable, p.table.reduces (Frame.top b.frames) terminal = [])
    (run : s.recover Branch.merge fuel p last = .ok after) :
    ∃ inserted serial, after.live = (Branch.merge inserted).1 ∧
      inserted.map Branch.sketch = (s.stranded.map Branch.sketch).flatMap (p.insertions last) ∧
        Branch.Aged (level + 1) serial inserted ∧ after.shifted = s.shifted ∧
          after.accepted = s.accepted := by
  obtain ⟨repaired, inserts, done⟩ := exists_of_bind_eq_ok run
  cases done
  have gains : { s with stranded := [] }.Gains (level + 1)
      (s.stranded.flatMap fun b : Branch K V => p.insertions last b.sketch) repaired := by
    refine Gains.foldlM (fun s' b after member one => ?_) inserts
    obtain ⟨same, still⟩ := stuck b member
    unfold Branching.repair at one
    rw [if_pos ends] at one
    exact Gains.foldlM (fun s' terminal after listed => insertAll_gains same (still terminal listed)) one
  obtain ⟨more, waits, drawn, aged, -⟩ := gains.waiting
  refine ⟨more, repaired.serial, ?_, ?_, aged, gains.shifted, gains.accepted⟩
  · rw [waits, show ({ s with stranded := [] } : Branching K V).waiting = [] from waiting, List.nil_append]
  · rw [drawn, List.flatMap_map]

end Recovery

end Branching

section Lacking

/-- What stays of a stack if the table has no action for the token: the stack itself. -/
def Parser.leftovers (p : Parser K V) (token : K) (x : Sketch K V) : List (Sketch K V) :=
  if p.targets token x.1 = [] ∧ p.rules token x.1 = [] then [x] else []

/-- The stacks lack a terminal before the last token: they are reduced before both alike, and where one of
them shifts the terminal, the table has no action for the last token. -/
structure Parser.Lacks (p : Parser K V) (last : K) (terminal : Nat) (lacking : List Nat → Prop) :
    Prop where
  insertable : terminal ∈ p.table.insertable
  described : ∀ other ∈ p.table.insertable,
    p.table.describe other = p.table.describe terminal → other = terminal
  values : ∀ production values,
    p.reducer production values (p.correction last terminal) = p.reducer production values last
  reduces : ∀ stack stack', lacking stack →
    p.table.Reduces (p.correction last terminal) stack stack' → lacking stack'
  targets : ∀ frames,
    p.targets (p.correction last terminal) frames = p.table.shifts (Frame.top frames) terminal
  rules : ∀ frames, lacking (Frame.states frames) →
    p.rules (p.correction last terminal) frames = p.rules last frames
  stuck : ∀ frames, lacking (Frame.states frames) → p.table.shifts (Frame.top frames) terminal ≠ [] →
    p.targets last frames = [] ∧ p.rules last frames = []

namespace Parser.Lacks

variable {terminal : Nat} {lacking : List Nat → Prop} {x y x' : Sketch K V}
  {records : List ErrorRecord}

private theorem reduct_eq (lacks : p.Lacks last terminal lacking) (frames : List (Frame K V)) :
    p.reduct (p.correction last terminal) frames = p.reduct last frames := by
  funext production
  simp only [Parser.reduct, lacks.values]

theorem offspring_waiting (lacks : p.Lacks last terminal lacking) (there : lacking (Frame.states x.1)) :
    p.offspring (p.correction last terminal) .waiting x = p.offspring last .waiting x := by
  unfold Parser.offspring Parser.movesOn Parser.moves
  rw [lacks.reduct_eq, lacks.rules x.1 there]
  cases (p.rules last x.1).mapM (p.reduct last x.1) with
  | error cause => rfl
  | ok reducts => simp [List.filter_map, Function.comp_def]

theorem offspring_shifted (lacks : p.Lacks last terminal lacking) (there : lacking (Frame.states x.1)) :
    p.offspring (p.correction last terminal) .shifted x =
      (p.table.shifts (Frame.top x.1) terminal).map fun target =>
        (⟨target, .lexeme (p.correction last terminal)⟩ :: x.1, x.2) := by
  by_cases none : p.table.shifts (Frame.top x.1) terminal = []
  · rw [none]
    refine List.eq_nil_iff_forall_not_mem.mpr fun x' member => ?_
    obtain ⟨⟨made, found, listed⟩, -⟩ := Parser.mem_offspring member
    obtain ⟨target, entry, -⟩ := (Parser.mem_moves_shifted found).mp listed
    rw [lacks.targets, none] at entry
    cases entry
  · have rules := (lacks.rules x.1 there).trans (lacks.stuck x.1 there none).2
    have moved : p.movesOn (p.correction last terminal) x.1 =
        .ok ((p.table.shifts (Frame.top x.1) terminal).map (fun target =>
          (.shifted, ⟨target, .lexeme (p.correction last terminal)⟩ :: x.1)) ++ []) := by
      rw [Parser.movesOn, lacks.targets, rules]
      rfl
    rw [Parser.offspring, moved]
    simp [List.filter_map, Function.comp_def]

omit [Token K] in
private theorem concat_inj {left right : List ErrorRecord} {a b : ErrorRecord}
    (same : left ++ [a] = right ++ [b]) : left = right ∧ a = b := by
  obtain ⟨lefts, rights⟩ := List.append_inj' same rfl
  exact ⟨lefts, List.singleton_inj.mp rights⟩

private theorem of_mem_insertionsOf (lacks : p.Lacks last terminal lacking) {other : Nat}
    (member : x' ∈ p.insertionsOf last other y)
    (same : x'.2 = records ++ [Branching.missing p last terminal]) :
    y.2 = records ∧ (other ∈ p.table.insertable → other = terminal) := by
  obtain ⟨target, -, rfl⟩ := List.mem_map.mp member
  obtain ⟨before, last⟩ := concat_inj same
  exact ⟨before, fun inside => lacks.described other inside (Option.some.inj (congrArg (·.argument) last))⟩

private theorem echo_insertions (lacks : p.Lacks last terminal lacking)
    (there : lacking (Frame.states x.1)) (same : x.1 = y.1) :
    Echo (records ++ [Branching.missing p last terminal])
      (p.offspring (p.correction last terminal) .shifted x) (p.insertions last y) := by
  obtain ⟨before, behind, split⟩ := List.append_of_mem lacks.insertable
  have distinct : p.table.insertable.Nodup := List.nodup_range.filter _
  rw [split] at distinct
  have others {terminals : List Nat} (inside : ∀ other ∈ terminals, other ∈ p.table.insertable)
      (fresh : terminal ∉ terminals) :
      Echo (records ++ [Branching.missing p last terminal]) []
        (terminals.flatMap fun other => p.insertionsOf last other y) := by
    refine .of_nil fun z member found => ?_
    obtain ⟨other, listed, member⟩ := List.mem_flatMap.mp member
    exact fresh ((lacks.of_mem_insertionsOf member found).2 (inside other listed) ▸ listed)
  have shifted : Echo (records ++ [Branching.missing p last terminal])
      (p.offspring (p.correction last terminal) .shifted x) (p.insertionsOf last terminal y) := by
    refine .of_map_eq ?_
    rw [lacks.offspring_shifted there, Parser.insertionsOf, same, List.map_map, List.map_map]
    rfl
  rw [Parser.insertions, split, List.flatMap_append, List.flatMap_cons]
  obtain ⟨-, last', apart⟩ := List.nodup_append.mp distinct
  have first := others (fun other (listed : other ∈ before) => split ▸ List.mem_append_left _ listed)
    fun known => apart terminal known terminal (List.mem_cons_self ..) rfl
  have final := others (fun other (listed : other ∈ behind) =>
      split ▸ List.mem_append_right _ (List.mem_cons_of_mem _ listed))
    (List.nodup_cons.mp last').1
  simpa using first.append (shifted.append final)

theorem echo_leftovers (lacks : p.Lacks last terminal lacking) {first second : List (Sketch K V)}
    (echo : Echo records first second) (there : ∀ x ∈ first, lacking (Frame.states x.1)) :
    Echo (records ++ [Branching.missing p last terminal])
      (first.flatMap (p.offspring (p.correction last terminal) .shifted))
      ((second.flatMap (p.leftovers last)).flatMap (p.insertions last)) := by
  rw [List.flatMap_assoc]
  refine echo.flatMap (fun x listed y states x' member => ?_) (fun x listed y same => ?_)
    fun y y' member same => ?_
  · rw [lacks.offspring_shifted (there x listed)] at member
    obtain ⟨target, entry, rfl⟩ := List.mem_map.mp member
    have top := Frame.top_eq_of_states states
    have strands := Parser.strands_states_iff.mpr
      (lacks.stuck x.1 (there x listed) (List.ne_nil_of_mem entry))
    have stuck := Parser.strands_states_iff.mp (states.symm ▸ strands)
    refine ⟨(⟨target, .lexeme (p.correction last terminal)⟩ :: y.1,
      y.2 ++ [Branching.missing p last terminal]), ?_, congrArg (target :: ·) states⟩
    rw [Parser.leftovers, if_pos stuck, List.flatMap_singleton]
    exact List.mem_flatMap.mpr
      ⟨terminal, lacks.insertable, List.mem_map_of_mem (show target ∈ _ from top ▸ entry)⟩
  · by_cases stuck : p.targets last y.1 = [] ∧ p.rules last y.1 = []
    · rw [Parser.leftovers, if_pos stuck, List.flatMap_singleton]
      exact lacks.echo_insertions (there x listed) same
    · have none : p.table.shifts (Frame.top x.1) terminal = [] :=
        not_ne_iff.mp fun some => stuck (same ▸ lacks.stuck x.1 (there x listed) some)
      rw [Parser.leftovers, if_neg stuck, lacks.offspring_shifted (there x listed), none]
      exact .of_nil fun _ => (nomatch ·)
  · obtain ⟨z, left, member⟩ := List.mem_flatMap.mp member
    obtain ⟨other, inside, member⟩ := List.mem_flatMap.mp member
    have found := (lacks.of_mem_insertionsOf member same).1
    unfold Parser.leftovers at left
    split at left
    · rwa [List.mem_singleton.mp left] at found
    · cases left

end Parser.Lacks

end Lacking

namespace Branching

section Pass

variable {s u after after' : Branching K V} {terminal fuel fuel' : Nat} {lacking : List Nat → Prop}
  {records : List ErrorRecord}

private theorem sketch_stranded_of_foldlM_step {branches : List (Branch K V)}
    (run : branches.foldlM (Branching.step p token) s = .ok after) :
    after.stranded.map Branch.sketch = s.stranded.map Branch.sketch ++
      (branches.map Branch.sketch).flatMap (p.leftovers token) := by
  induction branches generalizing s with
  | nil =>
    cases run
    simp
  | cons b branches ih =>
    rw [List.foldlM_cons] at run
    obtain ⟨stepped, one, rest⟩ := exists_of_bind_eq_ok run
    obtain ⟨made, found, rfl⟩ := step_eq_ok.mp one
    have count : made.length = 0 ↔ p.targets token b.sketch.1 = [] ∧ p.rules token b.sketch.1 = [] := by
      rw [Parser.length_moves found, Nat.add_eq_zero_iff, List.length_eq_zero_iff,
        List.length_eq_zero_iff]
      exact Iff.rfl
    have single : (if made.length = 0 then [b] else []).map Branch.sketch =
        p.leftovers token b.sketch := by
      by_cases none : made.length = 0
      · rw [if_pos none, Parser.leftovers, if_pos (count.mp none)]
        rfl
      · rw [if_neg none, Parser.leftovers, if_neg (mt count.mpr none)]
        rfl
    rw [ih rest, conclude_stranded, List.map_append, List.append_assoc, single, List.map_cons,
      List.flatMap_cons]
    rfl

/-- The second run, which comes to the last token, echoes in what it is to insert what the first one shifts,
which comes to the terminal instead. -/
structure Anticipates (p : Parser K V) (last : K) (terminal : Nat) (lacking : List Nat → Prop)
    (records : List ErrorRecord) (u s : Branching K V) : Prop where
  live : Echo records (u.live.map Branch.sketch) (s.live.map Branch.sketch)
  lacks : ∀ b ∈ u.live, lacking (Frame.states b.frames)
  inserted : Echo (records ++ [missing p last terminal]) (u.shifted.map Branch.sketch)
    ((s.stranded.map Branch.sketch).flatMap (p.insertions last))

theorem Anticipates.pass (anticipates : Anticipates p last terminal lacking records u s)
    (lacks : p.Lacks last terminal lacking) (waiting : u.waiting = []) (waiting' : s.waiting = [])
    (run : u.pass p (p.correction last terminal) fuel = .ok after)
    (run' : s.pass p last fuel' = .ok after') :
    Anticipates p last terminal lacking records after after' := by
  refine pass_related (Anticipates p last terminal lacking records)
    (fun u s begun => live_eq_nil_of_echo begun.live)
    (fun u s stepped stepped' begun waiting waiting' turn turn' => ?_) anticipates waiting waiting' run
    run'
  have there : ∀ x ∈ u.live.map Branch.sketch, lacking (Frame.states x.1) := by
    intro x member
    obtain ⟨b, listed, rfl⟩ := List.mem_map.mp member
    exact begun.lacks b listed
  have live := sketch_waiting_of_turn waiting turn
  refine ⟨?_, fun b member => ?_, ?_⟩
  · rw [live, sketch_waiting_of_turn waiting' turn',
      List.flatMap_congr fun x listed => lacks.offspring_waiting (there x listed)]
    exact begun.live.offspring p last .waiting
  · obtain ⟨x, listed, made⟩ := List.mem_flatMap.mp (live ▸ List.mem_map_of_mem member)
    obtain ⟨⟨moves, found, move⟩, -⟩ := Parser.mem_offspring made
    obtain ⟨production, entry, reduced⟩ :=
      (Parser.mem_moves_of_ne_shifted found Fate.noConfusion).mp move
    exact lacks.reduces _ _ (there x listed)
      (Parser.reduces_states_iff.mpr ⟨production, entry, _, reduced, rfl⟩)
  · rw [sketch_shifted_of_turn turn, sketch_stranded_of_foldlM_step turn', List.flatMap_append]
    exact begun.inserted.append (lacks.echo_leftovers begun.live there)

end Pass

section Supply

variable {s u passed after : Branching K V} {level terminal fuel fuel' rounds : Nat}
  {lacking : List Nat → Prop} {records : List ErrorRecord}

/-- The second run is at a token before which it has inserted what the first run has read. Neither has come
to an end. -/
structure Supplied (level : Nat) (records : List ErrorRecord) (u s : Branching K V) : Prop where
  first : u.Idle
  second : s.Idle
  quiet : u.accepted = []
  quiet' : s.accepted = []
  live : Echo records (u.live.map Branch.sketch) (s.live.map Branch.sketch)
  clean : ∀ b ∈ u.live, b.level = 0
  repaired : ∀ b ∈ s.live, b.level = level

private theorem turns_stranded (p : Parser K V) (token : K) (level : Nat) :
    Turns p token (fun b => b.level = level) (fun _ => True)
      (fun b => b.level = level ∧ p.rules token b.frames = []) (fun _ => True) where
  shift _ _ _ _ _ := trivial
  reduce _ _ _ same _ _ _ := same
  accept _ _ _ _ _ _ _ := trivial
  strand _ same _ rules := ⟨same, rules⟩

/-- If the second run does not come to an end in its next pass, it inserts the terminal that the first run
reads. -/
theorem Supplied.insert (supplied : Supplied level records u s)
    (lacks : p.Lacks last terminal lacking) (there : ∀ b ∈ u.live, lacking (Frame.states b.frames))
    (ends : Token.isEnd last = true)
    (still : ∀ frames, p.rules last frames = [] → ∀ other ∈ p.table.insertable,
      p.table.reduces (Frame.top frames) other = [])
    (first : u.pass p (p.correction last terminal) fuel = .ok passed) (goes : passed.shifted ≠ [])
    (quiet : passed.accepted = []) (run : s.advance Branch.merge fuel' p last rounds = .ok after)
    (unready : ∀ passed', s.pass p last fuel' = .ok passed' →
      passed'.shifted = [] ∧ passed'.accepted = []) :
    ∃ passed' recovered rounds', s.pass p last fuel' = .ok passed' ∧
      passed'.recover Branch.merge fuel' p last = .ok recovered ∧
        recovered.advance Branch.merge fuel' p last rounds' = .ok after ∧
          Supplied (level + 1) (records ++ [missing p last terminal]) (passed.settle Branch.merge)
            recovered := by
  cases rounds with
  | zero => cases run
  | succ rounds =>
    obtain ⟨passed', first', -⟩ := exists_of_bind_eq_ok run
    obtain ⟨shifted, accepted⟩ := unready passed' first'
    obtain ⟨empty, waiting⟩ := pass_eq_ok first' supplied.second.waiting
    have begun : Anticipates p last terminal lacking records u s := by
      refine ⟨supplied.live, there, ?_⟩
      rw [supplied.first.shifted, supplied.second.stranded]
      exact .of_nil fun _ => (nomatch ·)
    have anticipates := begun.pass lacks supplied.first.waiting supplied.second.waiting first first'
    have stranded : passed'.stranded ≠ [] := by
      obtain ⟨b, member⟩ := List.exists_mem_of_ne_nil _ goes
      obtain ⟨_, listed, -⟩ := anticipates.inserted.covered _ (List.mem_map_of_mem member)
      intro none
      simp [none] at listed
    rw [advance_eq_recover Branch.merge first' shifted (by simp [accepted]) stranded] at run
    obtain ⟨recovered, again, rest⟩ := exists_of_bind_eq_ok run
    have stuck := ((turns_stranded p last level).pass
      (supplied.second.sorted supplied.repaired (fun _ _ => trivial) s.stats) first').stuck
    obtain ⟨inserted, serial, live, drawn, aged, shifted', accepted'⟩ :=
      recover_inserts ends waiting
        (fun b member => ⟨(stuck b member).1, still b.frames (stuck b member).2⟩) again
    obtain ⟨-, idle, none⟩ := recover_keeps again
    have ages := (supplied.first.ages supplied.quiet supplied.clean u.stats).pass first
    refine ⟨passed', recovered, rounds, first', again, rest, ?_⟩
    exact {
      first := ⟨(pass_eq_ok first supplied.first.waiting).2, rfl, rfl⟩
      second := ⟨idle, shifted'.trans shifted, none⟩
      quiet := survivors_eq_nil_iff.mpr quiet
      quiet' := accepted'.trans accepted
      live := by
        rw [live]
        exact Echo.merge (drawn ▸ anticipates.inserted) (ages.held .shifted) aged
      clean := fun b member => (ages.held .shifted).level b (mem_of_mem_survivors member)
      repaired := fun b member => by
        rw [live] at member
        exact aged.level b (mem_of_mem_survivors member) }

/-- If the first run comes to an end, so does the second one in its next pass, and the merges leave the like of
what they leave in the first one. -/
theorem Supplied.finish (supplied : Supplied level records u s)
    (first : u.pass p last fuel = .ok passed) (done : passed.accepted ≠ [])
    (run : s.advance Branch.merge fuel' p last rounds = .ok after) :
    s.pass p last fuel' = .ok after ∧
      Echo records ((passed.settle Branch.merge).accepted.map Branch.sketch)
        ((after.settle Branch.merge).accepted.map Branch.sketch) := by
  cases rounds with
  | zero => cases run
  | succ rounds =>
    obtain ⟨passed', first', -⟩ := exists_of_bind_eq_ok run
    have begun : Echoes records u s := by
      refine ⟨supplied.live, ?_, ?_⟩
      · rw [supplied.first.shifted]
        exact .of_nil (by simp [supplied.second.shifted])
      · rw [supplied.quiet]
        exact .of_nil (by simp [supplied.quiet'])
    have echoes := begun.pass supplied.first.waiting supplied.second.waiting first first'
    obtain ⟨b, member⟩ := List.exists_mem_of_ne_nil _ done
    obtain ⟨_, listed, -⟩ := echoes.accepted.covered _ (List.mem_map_of_mem member)
    obtain ⟨b', accepted, -⟩ := List.mem_map.mp listed
    have settled : s.accepted.length < passed'.accepted.length := by
      rw [supplied.quiet']
      exact List.length_pos_of_mem accepted
    rw [advance_of_settled Branch.merge first' (.inr (.inl settled))] at run
    cases run
    have ages := (supplied.first.ages supplied.quiet supplied.clean u.stats).pass first
    have ages' := (supplied.second.ages supplied.quiet' supplied.repaired s.stats).pass first'
    exact ⟨first', echoes.accepted.merge (ages.held .accepted) (ages'.held .accepted)⟩

end Supply

end Branching

end GeneralizedLR
