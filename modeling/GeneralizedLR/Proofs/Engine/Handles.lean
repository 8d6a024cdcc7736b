import GeneralizedLR.Arithmetic.Evaluate
import GeneralizedLR.Proofs.Engine.Run

/-!
The arena behind the heads. Within a call the arena only grows, and the sweep at its end keeps what
stands below the heads that stay. So a node in use is neither reclaimed nor overwritten, a node out of
use is gone, and every number that a head or a node holds leads to a node.
-/

set_option autoImplicit false
set_option relaxedAutoImplicit false

namespace GeneralizedLR

variable {K V : Type}

section Faults

inductive Fault.OfTable : Fault → Prop
  | missingGoto (state nonterminal : Nat) : Fault.OfTable (.missingGoto state nonterminal)
  | unknownProduction (production : Nat) : Fault.OfTable (.unknownProduction production)
  | stackUnderflow (arity : Nat) : Fault.OfTable (.stackUnderflow arity)

theorem Table.ofTable_of_landing {t : Table} {rule : Production} {state : Nat} {cause : Fault}
    (failed : t.landing rule state = .error cause) : cause.OfTable := by
  unfold Table.landing at failed
  split at failed
  · cases failed
  · split at failed <;> cases failed
    exact .missingGoto state rule.nonterminal

theorem Parser.ofTable_of_reduct {p : Parser K V} {lookahead : K} {frames : List (Frame K V)}
    {production : Nat} {cause : Fault}
    (failed : p.reduct lookahead frames production = .error cause) : cause.OfTable := by
  unfold Parser.reduct at failed
  split at failed
  · cases failed
    exact .unknownProduction production
  · next rule _ =>
    by_cases short : frames.length < rule.arity
    · rw [if_pos short] at failed
      cases failed
      exact .stackUnderflow rule.arity
    · simp only [if_neg short] at failed
      cases landing : p.table.landing rule (Frame.top (frames.drop rule.arity)) with
      | error other =>
        rw [landing] at failed
        cases failed
        exact Table.ofTable_of_landing landing
      | ok state =>
        rw [landing] at failed
        cases failed

theorem Parser.ofTable_of_moves {p : Parser K V} {lookahead lexeme : K} {targets rules : List Nat}
    {frames : List (Frame K V)} {cause : Fault}
    (failed : p.moves lookahead lexeme targets rules frames = .error cause) : cause.OfTable := by
  unfold Parser.moves at failed
  split at failed
  · next reducts =>
    cases failed
    exact of_mapM_eq_error (fun _ => Parser.ofTable_of_reduct) reducts
  · cases failed

namespace Branching

variable {p : Parser K V} {token : K} {s : Branching K V}

private def Blames (stop : Option Fault) : Prop := ∀ cause, stop = some cause → cause.OfTable

private theorem blames_none : Blames none := fun _ same => nomatch same

private theorem blames_of_moves {lookahead lexeme : K} {targets rules : List Nat}
    {frames : List (Frame K V)} {cause : Fault}
    (failed : p.moves lookahead lexeme targets rules frames = .error cause) : Blames (some cause) :=
  fun _ same => Option.some.inj same ▸ Parser.ofTable_of_moves failed

variable [Token K]

private theorem blames_step {b : Branch K V} {stop : Option Fault}
    (failed : s.step p token b = .error stop) : Blames stop := by
  unfold Branching.step at failed
  split at failed
  · next made =>
    cases failed
    exact blames_of_moves made
  · cases failed

private theorem blames_pass {fuel : Nat} {stop : Option Fault}
    (failed : s.pass p token fuel = .error stop) : Blames stop := by
  induction fuel generalizing s with
  | zero =>
    unfold Branching.pass at failed
    split at failed <;> cases failed
    exact blames_none
  | succ fuel ih =>
    unfold Branching.pass at failed
    split at failed
    · cases failed
    · exact of_bind_eq_error failed (of_foldlM_eq_error fun _ _ => blames_step) fun _ => ih

private theorem blames_insertAt {terminal : Nat} {x : Branching K V × List (Branch K V)}
    {b : Branch K V} {stop : Option Fault}
    (failed : Branching.insertAt p token terminal x b = .error stop) : Blames stop := by
  unfold Branching.insertAt at failed
  split at failed
  split at failed
  · next made =>
    cases failed
    exact blames_of_moves made
  · cases failed

private theorem blames_insertAll {terminal fuel : Nat} {x : Branching K V × List (Branch K V)}
    {stop : Option Fault} (failed : insertAll p token terminal fuel x = .error stop) :
    Blames stop := by
  induction fuel generalizing x with
  | zero =>
    unfold Branching.insertAll at failed
    split at failed <;> cases failed
    exact blames_none
  | succ fuel ih =>
    unfold Branching.insertAll at failed
    split at failed
    · cases failed
    · exact of_bind_eq_error failed (of_foldlM_eq_error fun _ _ => blames_insertAt) fun _ => ih

private theorem blames_recover {policy : List (Branch K V) → List (Branch K V) × Nat} {fuel : Nat}
    {stop : Option Fault} (failed : s.recover policy fuel p token = .error stop) : Blames stop := by
  refine of_bind_eq_error failed (of_foldlM_eq_error fun _ _ repaired => ?_) fun _ done => nomatch done
  exact of_foldlM_eq_error (fun _ _ => blames_insertAll) repaired

private theorem blames_advance {policy : List (Branch K V) → List (Branch K V) × Nat}
    {fuel rounds : Nat} {stop : Option Fault}
    (failed : s.advance policy fuel p token rounds = .error stop) : Blames stop := by
  induction rounds generalizing s with
  | zero =>
    cases failed
    exact blames_none
  | succ rounds ih =>
    refine of_bind_eq_error failed blames_pass fun next rest => ?_
    split at rest
    · cases rest
    · split at rest
      · cases rest
      · exact of_bind_eq_error rest blames_recover fun _ => ih

theorem ofTable_of_input {policy : List (Branch K V) → List (Branch K V) × Nat} {fuel : Nat}
    {cause : Fault} (failed : s.input policy fuel p token = .error (some cause)) : cause.OfTable :=
  of_bind_eq_error (P := Blames) failed blames_advance (fun _ done => nomatch done) cause rfl

end Branching

end Faults

section Sweep

variable {e : Engine K V}

theorem Engine.recordMerges_arena (e : Engine K V) (pairs : List (Head × Head)) :
    (e.recordMerges pairs).arena = e.arena := by
  obtain ⟨journal, eq⟩ := e.recordMerges_eq pairs
  rw [eq]

theorem Engine.settle_arena (merge : Arena K V → List Head → Merged) (e : Engine K V) :
    (e.settle merge).arena = (e.arena.sweep (e.settle merge).roots).1 := by
  simp only [Engine.settle, Engine.record, Engine.roots, Engine.recordMerges_arena]

variable [Token K] {merge : Arena K V → List Head → Merged} {fuel : Nat} {p : Parser K V} {token : K}
  {after : Engine K V}

/-- The engine before a token is stepped: the journal is empty and the token is counted. -/
def Engine.begun (e : Engine K V) : Engine K V :=
  { e with
    journal := []
    stats := { e.stats with tokens := e.stats.tokens + 1 } }

omit [Token K] in
theorem Engine.Shows.begun {s : Branching K V} (shows : e.Shows s) :
    e.begun.Shows { s with stats := { s.stats with tokens := s.stats.tokens + 1 } } :=
  { shows with stats := by simp [Engine.begun, ← shows.stats] }

theorem Engine.exists_of_inputWith_eq_ok (run : e.inputWith merge fuel p token = .ok after) :
    ∃ stepped, e.begun.advance merge fuel p token fuel = .ok stepped ∧
      after = stepped.settle merge := by
  unfold Engine.inputWith at run
  dsimp only at run
  split at run
  · next stepped advanced =>
    cases run
    exact ⟨stepped, advanced, rfl⟩
  · cases run
  · cases run

theorem Engine.exists_of_inputWith_eq_fault {cause : Fault}
    (run : e.inputWith merge fuel p token = .error (.fault cause after)) :
    ∃ stopped, e.begun.advance merge fuel p token fuel = .error (.fault cause stopped) ∧
      after = stopped.abandon e.accepted.length token cause := by
  unfold Engine.inputWith at run
  dsimp only at run
  split at run
  · cases run
  · next stopped advanced =>
    cases run
    exact ⟨stopped, advanced, rfl⟩
  · cases run

theorem Engine.Shows.exists_sweep {s : Branching K V}
    {policy : List (Branch K V) → List (Branch K V) × Nat} (shows : e.Shows s)
    (faithful : Faithful merge policy) {ended : Bool} (takes : e.Takes merge p token ended after) :
    ∃ grown : Arena K V, e.arena.Grows grown ∧ grown.Sound ∧
      after.arena = (grown.sweep after.roots).1 := by
  cases takes with
  | @ok fuel _ run =>
    obtain ⟨stepped, moved, rfl⟩ := Engine.exists_of_inputWith_eq_ok run
    obtain ⟨s', -, -, extended⟩ :=
      (shows.begun.advance faithful fuel p token fuel).exists_of_eq_ok moved
    exact ⟨_, extended.grows, extended.sound, Engine.settle_arena merge stepped⟩
  | @fault fuel cause _ run =>
    obtain ⟨stopped, moved, rfl⟩ := Engine.exists_of_inputWith_eq_fault run
    have extended := ((shows.begun.advance faithful fuel p token fuel).of_eq_fault moved).2
    exact ⟨_, extended.grows, extended.sound, rfl⟩

omit [Token K] in
theorem Engine.Shows.exists_holds {s : Branching K V} (shows : e.Shows s) {head : Head}
    (listed : head ∈ e.heads ++ e.accepted) : ∃ frames, e.arena.Holds head.top frames := by
  rcases List.mem_append.mp listed with live | accepted
  · obtain ⟨b, -, shown⟩ := exists_of_forall₂_left shows.live live
    exact ⟨b.frames, shown.holds⟩
  · obtain ⟨b, -, shown⟩ := exists_of_forall₂_left shows.accepted accepted
    exact ⟨b.frames, shown.holds⟩

end Sweep

section Reached

variable [Token K] {p : Parser K V} {past : List K} {e after : Engine K V}

def Branch.Reduced (b : Branch K V) : Prop :=
  ∃ state v below, b.frames = ⟨state, .reduced v⟩ :: below

theorem Parser.contract_reduced (p : Parser K V) (token : K) :
    Branching.Contract p token (fun _ => True) (fun _ _ => True) (fun _ => True) (fun _ => True)
      Branch.Reduced where
  shift _ _ _ _ _ := trivial
  reduce _ _ _ _ _ _ _ := trivial
  accept := by
    intro b serial frames _ production _ reduced
    obtain ⟨rule, -, -, -, rfl⟩ := Parser.reduct_accepted_iff.mp reduced
    exact ⟨_, _, _, rfl⟩
  delete _ _ _ _ := trivial
  queue _ _ _ _ := trivial
  prepare _ _ _ _ _ _ _ _ _ := trivial
  insert _ _ _ _ _ _ _ := trivial

theorem Branching.Reached.reduced {s : Branching K V} (reached : Branching.Reached p past s) :
    ∀ b ∈ s.accepted, b.Reduced :=
  (reached.invariant (fun _ _ => True) (fun _ => Branch.Reduced) trivial (fun _ _ _ _ => trivial)
    (fun _ => p.contract_reduced) (fun _ _ _ reduced => reduced)).2

omit [Token K] in
theorem Engine.result_eq_ok {index : Nat} (inside : index < e.accepted.length) {b : Branch K V}
    (shown : e.accepted[index].Shown e.arena true b) (reduced : b.Reduced) :
    ∃ value, e.result index = .ok value := by
  obtain ⟨state, v, below, frames⟩ := reduced
  have held := shown.holds
  rw [frames] at held
  cases held with
  | frame found _ => exact ⟨v, by simp [Engine.result, inside, found]⟩

/-- What the caller gets for a record: the span, the argument and the code of the kind. An error
without a kind counts as other. -/
inductive Forwarded (codes : ErrorCodes) : ErrorRecord → Diagnostic → Prop
  | unexpected (span : Option Span) (argument : Option String) :
      Forwarded codes ⟨some .unexpected, span, argument⟩ ⟨codes.unexpected, span, argument⟩
  | missing (span : Option Span) (argument : Option String) :
      Forwarded codes ⟨some .missing, span, argument⟩ ⟨codes.missing, span, argument⟩
  | other (span : Option Span) (argument : Option String) :
      Forwarded codes ⟨some .other, span, argument⟩ ⟨codes.other, span, argument⟩
  | unnamed (span : Option Span) (argument : Option String) :
      Forwarded codes ⟨none, span, argument⟩ ⟨codes.other, span, argument⟩

theorem ErrorRecord.forwarded (codes : ErrorCodes) (record : ErrorRecord) :
    Forwarded codes record (record.diagnostic codes) := by
  obtain ⟨kind, span, argument⟩ := record
  cases kind with
  | none => exact .unnamed span argument
  | some kind =>
    cases kind with
    | unexpected => exact .unexpected span argument
    | missing => exact .missing span argument
    | other => exact .other span argument

/-- Every number that a head or a node holds leads to a node, so a call never meets a node that was
reclaimed. There is a result for each accepted head, and with it the caller gets the errors of this
head, each once and in order. -/
theorem Engine.Reached.handles (reached : Engine.Reached p past e) :
    (∀ head ∈ e.heads ++ e.accepted, ∃ node, e.arena.node? head.top = some node) ∧
    (∀ id node, e.arena.node? id = some node →
      (∀ below, node.below = some below →
        ∃ base, e.arena.node? below = some base ∧ node.depth = base.depth + 1) ∧
      (node.below = none ↔ node.value = none) ∧
      (node.below = none → node.state = 0 ∧ node.depth = 0)) ∧
    (∀ fuel token cause stopped, e.input fuel p token = .error (.fault cause stopped) →
      ∀ id, cause ≠ .staleNode id) ∧
    ∀ index,
      (∀ inside : index < e.accepted.length, (∃ value, e.result index = .ok value) ∧
        List.Forall₂ (Forwarded p.codes) e.accepted[index].errors (e.diagnostics p.codes index)) ∧
      (e.accepted.length ≤ index →
        e.result index = .error (.resultOutOfRange index e.accepted.length) ∧
          e.diagnostics p.codes index = []) := by
  obtain ⟨s, found, shows⟩ := reached.shows
  refine ⟨fun head listed => ?_, fun id node filled => ?_, ?_, fun index => ⟨?_, ?_⟩⟩
  · obtain ⟨frames, held⟩ := shows.exists_holds listed
    obtain ⟨node, filled, -⟩ := held.node?
    exact ⟨node, filled⟩
  · obtain rfl | ⟨state, content, below, base, rfl, under⟩ := shows.sound.grounded id node filled
    · simp
    · refine ⟨fun other stands => ?_, by simp, by simp⟩
      cases stands
      exact ⟨base, under, rfl⟩
  · intro fuel token cause stopped run id stale
    have taken := shows.input faithful_ofHeads found.idle.waiting fuel p token
    rw [show Engine.inputWith Merged.ofHeads fuel p token e = _ from run] at taken
    generalize result : s.input Branch.merge fuel p token = outcome at taken
    cases taken with
    | fault _ =>
      have blamed := Branching.ofTable_of_input result
      rw [stale] at blamed
      cases blamed
  · intro inside
    obtain ⟨b, member, shown⟩ := exists_of_forall₂_left shows.accepted (List.getElem_mem inside)
    obtain ⟨value, result⟩ := Engine.result_eq_ok inside shown (found.reduced b member)
    have reports : e.diagnostics p.codes index =
        e.accepted[index].errors.map (·.diagnostic p.codes) := by
      simp [Engine.diagnostics, result, inside]
    rw [reports, List.forall₂_map_right_iff]
    exact ⟨⟨value, result⟩, List.forall₂_same.mpr fun record _ => record.forwarded p.codes⟩
  · intro beyond
    have result : e.result index = .error (.resultOutOfRange index e.accepted.length) := by
      simp [Engine.result, beyond]
    exact ⟨result, by simp [Engine.diagnostics, result]⟩

def Arithmetic.one : Arithmetic.Lexeme := { terminal := .number, payload := .number 1 }

def Arithmetic.stop : Arithmetic.Lexeme := { terminal := .endOfInput }

def Arithmetic.stray : List Arithmetic.Lexeme :=
  [{ Arithmetic.one with span := some ⟨⟨0, 0⟩, ⟨0, 1⟩⟩ },
    { terminal := .rightParen, span := some ⟨⟨0, 1⟩, ⟨0, 2⟩⟩ },
    { terminal := .plus, span := some ⟨⟨0, 2⟩, ⟨0, 3⟩⟩ },
    { Arithmetic.stop with span := some ⟨⟨0, 3⟩, ⟨0, 3⟩⟩ }]

/-- The parenthesis is dropped and the number behind the operator is supplied, and the caller hears of
both under the codes that were chosen. -/
theorem Engine.Reached.handles_stray : ∃ e,
    Engine.Reached (Arithmetic.parser .precedence ⟨7, 8, 9⟩) Arithmetic.stray e ∧
      e.accepted.length = 1 ∧ (∃ value, e.result 0 = .ok value) ∧
      List.Forall₂ (Forwarded ⟨7, 8, 9⟩)
        [⟨some .unexpected, some ⟨⟨0, 1⟩, ⟨0, 2⟩⟩, some ")"⟩,
          ⟨some .missing, some ⟨⟨0, 3⟩, ⟨0, 3⟩⟩, some "number"⟩]
        (e.diagnostics ⟨7, 8, 9⟩ 0) ∧
      e.diagnostics ⟨7, 8, 9⟩ 0 =
        [⟨7, some ⟨⟨0, 1⟩, ⟨0, 2⟩⟩, some ")"⟩, ⟨8, some ⟨⟨0, 3⟩, ⟨0, 3⟩⟩, some "number"⟩] ∧
      e.result 1 = .error (.resultOutOfRange 1 1) ∧ e.diagnostics ⟨7, 8, 9⟩ 1 = [] := by
  obtain ⟨e, run, errors, reports⟩ : ∃ e, Engine.parse 9 (Arithmetic.parser .precedence ⟨7, 8, 9⟩)
      Arithmetic.stray .start = .ok e ∧
        e.accepted.map (·.errors) = [[⟨some .unexpected, some ⟨⟨0, 1⟩, ⟨0, 2⟩⟩, some ")"⟩,
          ⟨some .missing, some ⟨⟨0, 3⟩, ⟨0, 3⟩⟩, some "number"⟩]] ∧
        e.diagnostics ⟨7, 8, 9⟩ 0 = [⟨7, some ⟨⟨0, 1⟩, ⟨0, 2⟩⟩, some ")"⟩,
          ⟨8, some ⟨⟨0, 3⟩, ⟨0, 3⟩⟩, some "number"⟩] := ⟨_, rfl, rfl, rfl⟩
  have reached := Engine.Reached.start.parse run
  obtain ⟨head, heads, records⟩ := List.map_eq_singleton_iff.mp errors
  have length : e.accepted.length = 1 := congrArg List.length heads
  obtain ⟨result, forwarded⟩ := (reached.handles.2.2.2 0).1 (by omega)
  obtain ⟨beyond, silent⟩ := (reached.handles.2.2.2 1).2 length.le
  simp only [heads, List.getElem_cons_zero, records] at forwarded
  exact ⟨e, reached, length, result, forwarded, reports, length ▸ beyond, silent⟩

theorem Engine.Reached.mem_chain_of_takes (reached : Engine.Reached p past e) {token : K}
    {ended : Bool} (takes : e.Takes Merged.ofHeads p token ended after) {id : NodeId}
    {node : Node K V} (filled : after.arena.node? id = some node) :
    ∃ head ∈ after.heads ++ after.accepted, id ∈ (after.arena.chain head.top).map (·.1) := by
  obtain ⟨s, -, shows⟩ := reached.shows
  obtain ⟨t, -, shows'⟩ := (reached.takes takes).shows
  obtain ⟨grown, -, sound, swept⟩ := shows.exists_sweep faithful_ofHeads takes
  have shrinks := grown.grows_of_sweep after.roots
  rw [← swept] at shrinks
  have holds : ∀ root ∈ after.roots, ∃ frames, after.arena.Holds root frames := by
    intro root member
    obtain ⟨head, listed, rfl⟩ := List.mem_map.mp member
    exact shows'.exists_holds listed
  rw [swept] at filled
  obtain ⟨root, member, listed⟩ := (sound.sweep_filled_iff (fun root member =>
    (holds root member).imp fun _ held => held.mono shrinks) id).mp ⟨node, filled⟩
  obtain ⟨frames, held⟩ := holds root member
  obtain ⟨head, live, rfl⟩ := List.mem_map.mp member
  exact ⟨head, live, held.chain_eq shrinks ▸ listed⟩

theorem Engine.Reached.mem_chain_of_node? (reached : Engine.Reached p past e) {id : NodeId}
    {node : Node K V} (filled : e.arena.node? id = some node) :
    ∃ head ∈ e.heads ++ e.accepted, id ∈ (e.arena.chain head.top).map (·.1) := by
  cases reached with
  | start =>
    have first : id = 0 := Nat.lt_one_iff.mp (Arena.lt_size_of_node? filled)
    have listed : { top := 0, serial := 0 } ∈
        (Engine.start : Engine K V).heads ++ (Engine.start : Engine K V).accepted :=
      List.mem_singleton_self _
    obtain ⟨frames, held⟩ := Engine.shows_start.exists_holds listed
    exact ⟨_, listed, (held.mem_chain_iff id).mpr (first ▸ .refl)⟩
  | input before run => exact before.mem_chain_of_takes (.ok run) filled
  | fault before run => exact before.mem_chain_of_takes (.fault run) filled

/-- After a call the filled slots are those on the chains of the live and of the accepted heads, and a
node that was there before is reclaimed or has stayed as it was. -/
theorem Engine.Reached.reclaims (reached : Engine.Reached p past e) {token : K} {ended : Bool}
    (takes : e.Takes Merged.ofHeads p token ended after) :
    (∀ id, (∃ node, after.arena.node? id = some node) ↔
      ∃ head ∈ after.heads ++ after.accepted, id ∈ (after.arena.chain head.top).map (·.1)) ∧
    ∀ id node, e.arena.node? id = some node →
      after.arena.node? id = none ∨ after.arena.node? id = some node := by
  obtain ⟨s, -, shows⟩ := reached.shows
  obtain ⟨grown, grows, -, swept⟩ := shows.exists_sweep faithful_ofHeads takes
  have shrinks := grown.grows_of_sweep after.roots
  rw [← swept] at shrinks
  refine ⟨fun id => ⟨?_, ?_⟩, fun id node before => ?_⟩
  · rintro ⟨node, filled⟩
    exact reached.mem_chain_of_takes takes filled
  · rintro ⟨head, -, member⟩
    exact Arena.exists_node?_of_mem_chain member
  · cases filled : after.arena.node? id with
    | none => exact .inl rfl
    | some node' =>
      have same := (shrinks filled).symm.trans (grows before)
      exact .inr same

/-- The node of the number is there when the end comes in, and the call reclaims it: the one accepted
head stands on another node. -/
theorem Engine.Reached.reclaims_one : ∃ e after,
    Engine.Reached (Arithmetic.parser .precedence) [Arithmetic.one] e ∧
      e.Takes Merged.ofHeads (Arithmetic.parser .precedence) Arithmetic.stop true after ∧
        e.arena.node? 1 = some ⟨1, some (.lexeme Arithmetic.one), some 0, 1⟩ ∧
          (after.heads ++ after.accepted).map
            (fun head => (after.arena.chain head.top).map (·.1)) = [[3, 0]] ∧
              after.arena.node? 1 = none := by
  obtain ⟨e, run, filled⟩ : ∃ e, Engine.parse 9 (Arithmetic.parser .precedence)
      [Arithmetic.one] .start = .ok e ∧
        e.arena.node? 1 = some ⟨1, some (.lexeme Arithmetic.one), some 0, 1⟩ := ⟨_, rfl, rfl⟩
  have reached := Engine.Reached.start.parse run
  obtain ⟨after, last, chains⟩ : ∃ after,
      e.input 9 (Arithmetic.parser .precedence) Arithmetic.stop = .ok after ∧
        (after.heads ++ after.accepted).map
          (fun head => (after.arena.chain head.top).map (·.1)) = [[3, 0]] := by
    cases run
    exact ⟨_, rfl, rfl⟩
  have takes : e.Takes Merged.ofHeads (Arithmetic.parser .precedence) Arithmetic.stop true after :=
    .ok last
  refine ⟨e, after, reached, takes, filled, chains, ?_⟩
  obtain ⟨filledOnChains, stays⟩ := reached.reclaims takes
  rcases stays 1 _ filled with gone | stayed
  · exact gone
  · obtain ⟨head, listed, member⟩ := (filledOnChains 1).mp ⟨_, stayed⟩
    have chain := List.mem_map_of_mem (f := fun head => (after.arena.chain head.top).map (·.1)) listed
    rw [chains, List.mem_singleton] at chain
    simp [chain] at member

end Reached

end GeneralizedLR
