import GeneralizedLR.Proofs.Engine.Abandoned

/-!
The accepted heads from one token to the next. They are merged anew with those that come behind them,
but they stand on different stacks and are older than all others. So each of them keeps its place, with
its value and its record of repairs, or leaves it to a head on the same stack with fewer repairs.
-/

set_option autoImplicit false
set_option relaxedAutoImplicit false

namespace GeneralizedLR

variable {K V : Type}

/-- The accepted heads stand on different stacks, and they are no younger than the serial number. -/
structure Engine.Settled (e : Engine K V) : Prop where
  distinct : (e.accepted.map fun head => e.arena.path head.top).Nodup
  old : ∀ head ∈ e.accepted, head.serial ≤ e.serial

private theorem Engine.Shows.map_path {e : Engine K V} {s : Branching K V} (shows : e.Shows s)
    {a : Arena K V} (grows : e.arena.Grows a) :
    (e.accepted.map fun head => a.path head.top) =
      e.accepted.map fun head => e.arena.path head.top := by
  refine List.map_congr_left fun head listed => ?_
  obtain ⟨frames, held⟩ := shows.exists_holds (List.mem_append_right _ listed)
  rw [held.path, (held.mono grows).path]

theorem Merged.exists_places {a : Arena K V} (linked : a.Linked) {old more : List Head}
    (filled : ∀ head ∈ old ++ more, (a.node? head.top).isSome)
    (distinct : (old.map fun head => a.path head.top).Nodup)
    (younger : ∀ head ∈ old, ∀ head' ∈ more, head.serial < head'.serial) :
    ∃ kept fresh, (ofHeads a (old ++ more)).heads = kept ++ fresh ∧
      List.Forall₂ (fun head head' => a.path head'.top = a.path head.top ∧
        (head' = head ∨ head'.level < head.level)) old kept := by
  rw [Merged.ofHeads_eq_survivors linked filled]
  obtain ⟨kept, fresh, split, places⟩ := exists_survivors_append Head.rank distinct more
  refine ⟨kept, fresh, split, ?_⟩
  have members := List.forall₂_iff_get.mp places
  refine List.forall₂_iff_get.mpr ⟨members.1, fun index inside inside' => ?_⟩
  obtain ⟨stack, same | ⟨member, lower⟩⟩ := members.2 index inside inside'
  · exact ⟨stack, .inl same⟩
  · have after := younger _ (List.get_mem old ⟨index, inside⟩) _ member
    rw [Head.rank, Head.rank, Prod.Lex.toLex_lt_toLex] at lower
    exact ⟨stack, .inr (by omega)⟩

private theorem Engine.settle_serial (e : Engine K V) (merge : Arena K V → List Head → Merged) :
    (e.settle merge).serial = e.serial := by
  have records : ∀ (e : Engine K V) pairs, (e.recordMerges pairs).serial = e.serial := by
    intro e pairs
    obtain ⟨journal, eq⟩ := e.recordMerges_eq pairs
    rw [eq]
  simp only [Engine.settle, Engine.record, records]

variable [Token K] {p : Parser K V} {past : List K} {token : K} {ended : Bool}
  {e after : Engine K V}

private theorem Engine.Shows.exists_last {s : Branching K V} (shows : e.Shows s)
    (takes : e.Takes Merged.ofHeads p token ended after) :
    ∃ last : Engine K V, e.Extends last ∧ after.serial = last.serial ∧
      after.arena.Grows last.arena ∧ last.arena.Linked ∧
      (after.accepted = e.accepted ∨ (∀ head ∈ last.accepted, (last.arena.node? head.top).isSome) ∧
        after.accepted = (Merged.ofHeads last.arena last.accepted).heads) := by
  cases takes with
  | @ok fuel _ run =>
    obtain ⟨last, advanced, rfl⟩ := Engine.exists_of_inputWith_eq_ok run
    obtain ⟨s', -, shows', extended⟩ :=
      (shows.begun.advance faithful_ofHeads fuel p token fuel).exists_of_eq_ok advanced
    refine ⟨last, { extended with }, last.settle_serial _, ?_, shows'.sound.linked,
      .inr ⟨fun head member => ?_, rfl⟩⟩
    · rw [Engine.settle_arena]
      exact Arena.grows_of_sweep ..
    · obtain ⟨b, -, shown⟩ := exists_of_forall₂_left shows'.accepted member
      obtain ⟨node, filled, -⟩ := shown.holds.node?
      exact Option.isSome_of_eq_some filled
  | @fault fuel cause _ run =>
    obtain ⟨last, advanced, rfl⟩ := Engine.exists_of_inputWith_eq_fault run
    have extended := ((shows.begun.advance faithful_ofHeads fuel p token fuel).of_eq_fault advanced).2
    refine ⟨last, { extended with }, rfl, Arena.grows_of_sweep .., extended.sound.linked, .inl ?_⟩
    exact (List.prefix_iff_eq_take.mp extended.accepted).symm

private theorem Engine.Settled.takes (settled : e.Settled) {s s' : Branching K V}
    (shows : e.Shows s) (shows' : after.Shows s')
    (takes : e.Takes Merged.ofHeads p token ended after) : after.Settled := by
  obtain ⟨last, extended, serial, shrinks, linked, kept⟩ := shows.exists_last takes
  obtain ⟨fresh, split, young⟩ := extended.adds
  have old : ∀ head ∈ last.accepted, head.serial ≤ after.serial := by
    intro head member
    rcases List.mem_append.mp (split ▸ member) with member | member
    · exact (settled.old head member).trans (serial ▸ extended.serial)
    · exact serial ▸ (young head member).2
  constructor
  · rw [← shows'.map_path shrinks]
    rcases kept with same | ⟨filled, merged⟩
    · rw [same, shows.map_path extended.grows]
      exact settled.distinct
    · rw [merged, Merged.ofHeads_eq_survivors linked filled]
      exact nodup_map_key_survivors ..
  · intro head member
    rcases kept with same | ⟨filled, merged⟩
    · exact old head (extended.accepted.subset (same ▸ member))
    · rw [merged, Merged.ofHeads_eq_survivors linked filled] at member
      exact old head (mem_of_mem_survivors member)

theorem Engine.Reached.settled (reached : Engine.Reached p past e) : e.Settled := by
  induction reached with
  | start => exact ⟨List.nodup_nil, fun _ => (nomatch ·)⟩
  | input before run ih =>
    obtain ⟨s, -, shows⟩ := before.shows
    obtain ⟨s', -, shows'⟩ := (before.input run).shows
    exact ih.takes shows shows' (.ok run)
  | fault before run ih =>
    obtain ⟨s, -, shows⟩ := before.shows
    obtain ⟨s', -, shows'⟩ := (before.fault run).shows
    exact ih.takes shows shows' (.fault run)

omit [Token K] in
private theorem Engine.result_eq_of_getElem? {index : Nat} {head : Head}
    (here : e.accepted[index]? = some head) (there : after.accepted[index]? = some head)
    (node : after.arena.node? head.top = e.arena.node? head.top) :
    after.result index = e.result index ∧
      ∀ codes, after.diagnostics codes index = e.diagnostics codes index := by
  have results : after.result index = e.result index := by
    simp only [Engine.result, here, there, node]
  refine ⟨results, fun codes => ?_⟩
  simp only [Engine.diagnostics, results, here, there]

/-- Results that were accepted stay. After a call that ends well or in a fault there are no fewer of
them, and at each index stands the same head with the same result and diagnostics, or one on the same
path with fewer repairs. -/
theorem Engine.Reached.stable (reached : Engine.Reached p past e)
    (takes : e.Takes Merged.ofHeads p token ended after) :
    e.accepted.length ≤ after.accepted.length ∧
    ∀ index head, e.accepted[index]? = some head → ∃ head', after.accepted[index]? = some head' ∧
      after.arena.path head'.top = e.arena.path head.top ∧
      ((head' = head ∧ after.result index = e.result index ∧
        ∀ codes, after.diagnostics codes index = e.diagnostics codes index) ∨
          head'.level < head.level) := by
  obtain ⟨s, -, shows⟩ := reached.shows
  obtain ⟨s', -, shows'⟩ := (reached.takes takes).shows
  obtain ⟨last, extended, -, shrinks, linked, kept⟩ := shows.exists_last takes
  obtain ⟨front, fresh, split, places⟩ : ∃ front fresh, after.accepted = front ++ fresh ∧
      List.Forall₂ (fun head head' => last.arena.path head'.top = last.arena.path head.top ∧
        (head' = head ∨ head'.level < head.level)) e.accepted front := by
    rcases kept with same | ⟨filled, merged⟩
    · exact ⟨e.accepted, [], by rw [same, List.append_nil],
        List.forall₂_same.mpr fun _ _ => ⟨rfl, .inl rfl⟩⟩
    · obtain ⟨more, grown, young⟩ := extended.adds
      rw [grown] at filled merged
      rw [merged]
      refine Merged.exists_places linked filled ?_ fun head member head' new => ?_
      · rw [shows.map_path extended.grows]
        exact reached.settled.distinct
      · exact (reached.settled.old head member).trans_lt (young head' new).1
  refine ⟨by simp [split, ← places.length_eq], fun index head here => ?_⟩
  have here' := here
  rw [List.getElem?_eq_some_iff] at here'
  obtain ⟨inside, rfl⟩ := here'
  have inside' : index < front.length := places.length_eq ▸ inside
  have there : after.accepted[index]? = some front[index] := by
    rw [split, List.getElem?_append_left inside', List.getElem?_eq_getElem inside']
  obtain ⟨stack, place⟩ := (List.forall₂_iff_get.mp places).2 index inside inside'
  obtain ⟨frames, held⟩ := shows.exists_holds (List.mem_append_right _ (List.getElem_mem inside))
  obtain ⟨frames', held'⟩ := shows'.exists_holds
    (List.mem_append_right _ (List.mem_of_getElem? there))
  have path : Frame.path frames' = Frame.path frames := by
    rw [← (held'.mono shrinks).path, ← (held.mono extended.grows).path]
    exact stack
  refine ⟨front[index], there, by rw [held.path, held'.path, path], ?_⟩
  rcases place with same | lower
  · left
    have same : front[index] = e.accepted[index] := same
    rw [same] at there held' ⊢
    obtain ⟨node, found, -⟩ := held.node?
    obtain ⟨node', found', -⟩ := held'.node?
    have node : after.arena.node? e.accepted[index].top = e.arena.node? e.accepted[index].top := by
      rw [found', found, ← shrinks found', extended.grows found]
    exact ⟨rfl, Engine.result_eq_of_getElem? here there node⟩
  · exact .inr lower

/-- From the second word on every word ends a parse, and all parses end on the same path. -/
def Word.repeated : Parser Word String where
  table :=
    { descriptions := ["a", "end"]
      endOfStream := 1
      productions := [⟨0, 1, true⟩, ⟨0, 2, true⟩]
      shiftEntries := [⟨0, 0, 1⟩, ⟨1, 0, 2⟩, ⟨2, 0, 2⟩]
      reduceEntries := [⟨1, 0, 0⟩, ⟨2, 0, 1⟩] }
  reducer := fun _ => Word.joined

theorem Engine.Reached.stable_repeated : ∃ e after,
    Engine.Reached Word.repeated [Word.a, Word.a] e ∧
      e.Takes Merged.ofHeads Word.repeated Word.a true after ∧ after.stats.merged = 1 ∧
        e.result 0 = .ok "a" ∧ after.result 0 = e.result 0 := by
  obtain ⟨e, run, result, level⟩ : ∃ e,
      Engine.parse 9 Word.repeated [Word.a, Word.a] .start = .ok e ∧ e.result 0 = .ok "a" ∧
        e.accepted.map Head.level = [0] := ⟨_, rfl, rfl, rfl⟩
  have reached := Engine.Reached.start.parse run
  obtain ⟨after, last, merged⟩ : ∃ after,
      e.input 9 Word.repeated Word.a = .ok after ∧ after.stats.merged = 1 := by
    cases run
    exact ⟨_, rfl, rfl⟩
  have takes : e.Takes Merged.ofHeads Word.repeated Word.a true after := .ok last
  obtain ⟨head, accepted, clean⟩ := List.map_eq_singleton_iff.mp level
  obtain ⟨head', -, -, ⟨-, same, -⟩ | lower⟩ :=
    (reached.stable takes).2 0 head (by rw [accepted]; rfl)
  · exact ⟨e, after, reached, takes, merged, result, same⟩
  · omega

end GeneralizedLR
