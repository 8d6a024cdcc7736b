import GeneralizedLR.Proofs.Exactness

/-!
Where the first error is. As long as the automaton goes on, a branch without repairs does, and then
nothing is repaired. So the first record of a branch is about the first token where the automaton
stops, even if the branch made reductions before it.
-/

set_option autoImplicit false
set_option relaxedAutoImplicit false

namespace GeneralizedLR

open Relation (ReflTransGen)

variable {K V : Type} [Token K] {p : Parser K V}

/-- Behind the tokens the automaton can shift the next one, or end before it. -/
def Table.Admits (t : Table) (past : List K) (token : K) : Prop :=
  ∃ ready, t.Faces past token ready ∧ ((∃ after, t.Shifts token ready after) ∨ t.Ends token ready)

theorem Table.Reaches.admits {t : Table} {past future : List K} {token : K} {stack : List Nat}
    (reached : t.Reaches (past ++ token :: future) stack) : t.Admits past token := by
  induction future using List.reverseRecOn generalizing stack with
  | nil =>
    obtain ⟨before, ready, reached, chain, shifts⟩ := reached.exists_of_concat
    exact ⟨ready, ⟨before, reached, chain⟩, .inl ⟨stack, shifts⟩⟩
  | append_singleton future last ih =>
    rw [← List.cons_append, ← List.append_assoc] at reached
    obtain ⟨before, _, reached, -⟩ := reached.exists_of_concat
    exact ih reached

/-- The automaton comes to the token, but not on from there. -/
structure Table.StopsAt (t : Table) (past : List K) (token : K) : Prop where
  reaches : ∃ stack, t.Reaches past stack
  stuck : ¬ t.Admits past token

/-- The record of a repair at a token, which is dropped unless the stream ends there, or before which a
terminal is inserted. -/
def Table.Records (t : Table) (token : K) (record : ErrorRecord) : Prop :=
  (Token.isEnd token = false ∧ record = Branching.unexpected token) ∨
    ∃ terminal, record = ⟨some .missing, Token.span token, some (t.describe terminal)⟩

theorem Table.Records.span {t : Table} {token : K} {record : ErrorRecord}
    (records : t.Records token record) : record.span = Token.span token := by
  rcases records with ⟨-, rfl⟩ | ⟨terminal, rfl⟩ <;> rfl

def Table.Blames (t : Table) (tokens : List K) (errors : List ErrorRecord) : Prop :=
  ∃ past token future first rest, tokens = past ++ token :: future ∧ t.StopsAt past token ∧
    errors = first :: rest ∧ t.Records token first

theorem Table.Blames.concat {t : Table} {tokens : List K} {errors : List ErrorRecord}
    (blames : t.Blames tokens errors) (record : ErrorRecord) :
    t.Blames tokens (errors ++ [record]) := by
  obtain ⟨past, token, future, first, rest, rfl, stops, rfl, repairs⟩ := blames
  exact ⟨past, token, future, first, rest ++ [record], rfl, stops, rfl, repairs⟩

theorem Table.Blames.later {t : Table} {tokens : List K} {errors : List ErrorRecord}
    (blames : t.Blames tokens errors) (next : K) : t.Blames (tokens ++ [next]) errors := by
  obtain ⟨past, token, future, first, rest, rfl, stops, rfl, repairs⟩ := blames
  exact ⟨past, token, future ++ [next], first, rest, by simp, stops, rfl, repairs⟩

theorem Table.StopsAt.blames {t : Table} {past : List K} {token : K} (stops : t.StopsAt past token)
    {record : ErrorRecord} (records : t.Records token record) :
    t.Blames (past ++ [token]) [record] :=
  ⟨past, token, [], record, [], rfl, stops, rfl, records⟩

namespace Branching

variable {token : K} {fuel : Nat} {s after : Branching K V}

theorem length_accepted_lt_of_pass (run : s.pass p token fuel = .ok after) {b : Branch K V}
    (member : b ∈ s.live) {ready : List Nat}
    (chain : ReflTransGen (p.table.Reduces token) (Frame.states b.frames) ready)
    (ends : p.table.Ends token ready) : s.accepted.length < after.accepted.length := by
  induction fuel generalizing s b with
  | zero =>
    obtain ⟨_, _, none, -⟩ := exists_round_of_pass run member
    cases none
  | succ fuel ih =>
    obtain ⟨_, s', same, stepped, rest⟩ := exists_round_of_pass run member
    cases same
    obtain ⟨x, y, before, stepped, behind⟩ := exists_step_of_foldlM member stepped
    obtain ⟨moves, made, rfl⟩ := step_eq_ok.mp stepped
    have later := (behind.accepted.trans (pass_grows rest).1.accepted).length_le
    rcases chain.cases_head with rfl | ⟨middle, first, chain⟩
    · obtain ⟨production, entry, frames, reduced⟩ := Parser.ends_states_iff.mp ends
      have more := length_held_lt_take_conclude x b moves.length
        ((Parser.mem_moves_of_ne_shifted made Fate.noConfusion).mpr ⟨production, entry, reduced⟩)
      exact (before.accepted.length_le.trans_lt more).trans_le later
    · obtain ⟨production, entry, frames, reduced, rfl⟩ := Parser.reduces_states_iff.mp first
      obtain ⟨number, member⟩ := exists_mem_held_take_conclude x b moves.length
        ((Parser.mem_moves_of_ne_shifted made Fate.noConfusion).mpr ⟨production, entry, reduced⟩)
      have early := (before.accepted.trans (held_prefix_take_conclude x b moves _ .accepted)).trans
        behind.accepted
      have more := ih (b := { b with frames, serial := number }) rest
        (behind.waiting.subset member) chain
      exact early.length_le.trans_lt more

theorem advance_of_admits {past : List K} (admits : p.table.Admits past token)
    (lives : ∀ stack, p.table.Reaches past stack →
      ∃ b ∈ s.live, b.level = 0 ∧ Frame.states b.frames = stack)
    {policy : List (Branch K V) → List (Branch K V) × Nat} {rounds : Nat}
    (run : s.advance policy fuel p token rounds = .ok after) :
    s.pass p token fuel = .ok after := by
  obtain ⟨passed, first, -⟩ := advance_keeps run
  obtain ⟨rounds, rfl⟩ : ∃ more, rounds = more + 1 := by
    cases rounds with
    | zero => cases run
    | succ more => exact ⟨more, rfl⟩
  obtain ⟨ready, ⟨stack, reached, chain⟩, goes⟩ := admits
  obtain ⟨b, member, -, rfl⟩ := lives stack reached
  have settled : passed.shifted ≠ [] ∨ s.accepted.length < passed.accepted.length := by
    rcases goes with ⟨stack', shifts⟩ | ends
    · obtain ⟨b', shifted, -⟩ := (pass_complete first member chain).1 stack' shifts
      exact .inl (List.ne_nil_of_mem shifted)
    · exact .inr (length_accepted_lt_of_pass first member chain ends)
  rw [advance_of_settled policy first (settled.imp_right .inl)] at run
  exact first.trans run

end Branching

/-- A branch without a record stands where the automaton does, and any other one blames a token. -/
def Branch.Accounted (t : Table) (tokens : List K) (allowed : List Nat → Prop) (b : Branch K V) :
    Prop :=
  (b.errors = [] ∧ allowed (Frame.states b.frames)) ∨ t.Blames tokens b.errors

private theorem Parser.turns_accounted (p : Parser K V) (past : List K) (token : K) :
    Branching.Turns p token (Branch.Accounted p.table past (p.table.Faces past token))
      (Branch.Accounted p.table (past ++ [token]) (p.table.Reaches (past ++ [token])))
      (fun _ => True) (Branch.Accounted p.table (past ++ [token]) fun _ => True) where
  shift := by
    rintro b serial (⟨clean, stack, reached, chain⟩ | blames) target entry
    · exact .inl ⟨clean, reached.consume chain (Parser.shifts_states_iff.mpr ⟨target, entry, rfl⟩)⟩
    · exact .inr (blames.later token)
  reduce := by
    rintro b serial frames (⟨clean, stack, reached, chain⟩ | blames) production entry reduced
    · exact .inl ⟨clean, stack, reached, chain.tail
        (Parser.reduces_states_iff.mpr ⟨production, entry, frames, reduced, rfl⟩)⟩
    · exact .inr blames
  accept := by
    rintro b serial frames (⟨clean, -⟩ | blames) production entry reduced
    · exact .inl ⟨clean, trivial⟩
    · exact .inr (blames.later token)
  strand := fun _ _ _ _ => trivial

private theorem Parser.contract_accounted (p : Parser K V) {past : List K} {token : K}
    (stuck : ¬ p.table.Admits past token) :
    Branching.Contract p token
      (Branch.Accounted p.table (past ++ [token]) (p.table.Faces past token))
      (fun _ => Branch.Accounted p.table (past ++ [token]) fun _ => p.table.StopsAt past token)
      (Branch.Accounted p.table (past ++ [token]) (p.table.Faces past token))
      (fun b => p.table.Blames (past ++ [token]) b.errors)
      (Branch.Accounted p.table (past ++ [token]) fun _ => True) where
  shift := by
    rintro b serial (⟨-, faces⟩ | blames) target entry
    · exact absurd ⟨_, faces, .inl ⟨_, Parser.shifts_states_iff.mpr ⟨target, entry, rfl⟩⟩⟩ stuck
    · exact blames
  reduce := by
    rintro b serial frames (⟨clean, stack, reached, chain⟩ | blames) production entry reduced
    · exact .inl ⟨clean, stack, reached, chain.tail
        (Parser.reduces_states_iff.mpr ⟨production, entry, frames, reduced, rfl⟩)⟩
    · exact .inr blames
  accept := by
    rintro b serial frames (⟨-, faces⟩ | blames) production entry reduced
    · exact absurd
        ⟨_, faces, .inr (Parser.ends_states_iff.mpr ⟨production, entry, frames, reduced⟩)⟩ stuck
    · exact .inr blames
  delete := by
    rintro b serial (⟨clean, stack, reached, -⟩ | blames) goes
    · have stops : p.table.StopsAt past token := ⟨⟨stack, reached⟩, stuck⟩
      have blamed := stops.blames (.inl ⟨goes, rfl⟩)
      simpa [Branch.repaired, clean] using blamed
    · exact blames.concat (Branching.unexpected token)
  queue := by
    rintro b (⟨clean, stack, reached, -⟩ | blames) terminal -
    · exact .inl ⟨clean, ⟨stack, reached⟩, stuck⟩
    · exact .inr blames
  prepare := fun _ _ _ _ _ accounted _ _ _ => accounted
  insert := by
    rintro terminal - b serial (⟨clean, stops⟩ | blames) target -
    · have repairs : p.table.Records token (Branching.missing p token terminal) :=
        .inr ⟨terminal, rfl⟩
      have blamed := stops.blames repairs
      exact .inr (by simpa [Branch.repaired, clean] using blamed)
    · exact .inr (blames.concat (Branching.missing p token terminal))

/-- Without a fault, every branch with a record blames the first token where the automaton stops. -/
theorem Branching.parse_accounted {fuel : Nat} {tokens : List K} {s : Branching K V}
    (run : Branching.parse Branch.merge fuel p tokens .start = .ok s) :
    (∀ b ∈ s.live, b.Accounted p.table tokens (p.table.Reaches tokens)) ∧
      ∀ b ∈ s.accepted, b.Accounted p.table tokens fun _ => True := by
  induction tokens using List.reverseRecOn generalizing s with
  | nil =>
    cases run
    refine ⟨fun b member => ?_, fun _ member => nomatch member⟩
    obtain rfl := List.mem_singleton.mp member
    exact .inl ⟨rfl, .start⟩
  | append_singleton past token ih =>
    rw [Branching.parse_append] at run
    obtain ⟨before, earlier, last⟩ := exists_of_bind_eq_ok run
    obtain ⟨after, last, done⟩ := exists_of_bind_eq_ok last
    cases done
    obtain ⟨lives, accepts⟩ := ih earlier
    have idle := (Branching.Reached.start.parse earlier).idle
    have alive := (Branching.parse_complete earlier).1
    have faces : ∀ b ∈ before.live, (b.errors = [] ∧ p.table.Faces past token (Frame.states b.frames)) ∨
        p.table.Blames past b.errors := fun b member =>
      (lives b member).imp_left fun clean => ⟨clean.1, _, clean.2, .refl⟩
    have done : ∀ b ∈ before.accepted, b.Accounted p.table (past ++ [token]) fun _ => True :=
      fun b member => (accepts b member).imp_right fun blames => blames.later token
    by_cases admits : p.table.Admits past token
    · obtain ⟨advanced, moved, settled⟩ := exists_of_bind_eq_ok last
      cases settled
      have passed := Branching.advance_of_admits admits (by exact alive) moved
      have sorted := (p.turns_accounted past token).pass (idle.sorted faces done _) passed
      exact ⟨fun b member => sorted.gone b (selects_merge _ b member),
        fun b member => sorted.done b (selects_merge _ b member)⟩
    · have blamed := (p.contract_accounted admits).input selects_merge idle
        (fun b member => (faces b member).imp_right fun blames => blames.later token) done last
      exact ⟨fun b member => .inr (blamed.1 b member), blamed.2⟩

/-- Without a fault, an error that comes first in a head is about the first token where the automaton
stops. -/
theorem Engine.parse_accounted {fuel : Nat} {tokens : List K} {e : Engine K V}
    (run : Engine.parse fuel p tokens .start = .ok e) :
    ∀ head ∈ e.heads ++ e.accepted, head.errors = [] ∨ p.table.Blames tokens head.errors := by
  obtain ⟨s, parsed, shows⟩ := Engine.exists_parse_of_parse run
  obtain ⟨lives, accepts⟩ := Branching.parse_accounted parsed
  intro head listed
  rcases List.mem_append.mp listed with live | accepted
  · obtain ⟨b, member, shown⟩ := exists_of_forall₂_left shows.live live
    rw [shown.errors]
    exact (lives b member).imp_left And.left
  · obtain ⟨b, member, shown⟩ := exists_of_forall₂_left shows.accepted accepted
    rw [shown.errors]
    exact (accepts b member).imp_left And.left

end GeneralizedLR
