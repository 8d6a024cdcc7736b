import GeneralizedLR.Proofs.Automaton
import GeneralizedLR.Proofs.Engine.Contract
import GeneralizedLR.Proofs.Engine.Fuel

/-!
When a token is taken in to its end. If no live branch can run into a fault and every reduction makes
a stack lighter, a pass ends, and so does an insertion, with as many rounds as the heaviest branch
has weight. A pass drops no branch: each one shifts, is accepted or is stranded in the end, and a
stranded one is repaired.
-/

set_option autoImplicit false
set_option relaxedAutoImplicit false

namespace GeneralizedLR

open Relation (ReflTransGen)

variable {K V : Type}

/-- A reduction that succeeds, and that makes the stack lighter if the parse goes on. -/
def Parser.Lightens (p : Parser K V) (weight : List (Frame K V) → Nat) (lookahead : K)
    (frames : List (Frame K V)) (production : Nat) : Prop :=
  ∃ fate frames', p.reduct lookahead frames production = .ok (fate, frames') ∧
    (fate = .waiting → weight frames' < weight frames)

theorem Parser.exists_moves_eq_ok {p : Parser K V} {weight : List (Frame K V) → Nat}
    {lookahead : K} {rules : List Nat} {frames : List (Frame K V)}
    (lightens : ∀ production ∈ rules, p.Lightens weight lookahead frames production) (lexeme : K)
    (targets : List Nat) :
    ∃ made, p.moves lookahead lexeme targets rules frames = .ok made := by
  have reducts : ∀ production ∈ rules, ∃ move, p.reduct lookahead frames production = .ok move := by
    intro production entry
    obtain ⟨fate, frames', reduced, -⟩ := lightens production entry
    exact ⟨_, reduced⟩
  obtain ⟨made, run⟩ := exists_mapM_eq_ok reducts
  exact ⟨_, by rw [Parser.moves, run]⟩

theorem Parser.weight_lt_of_mem_moves {p : Parser K V} {weight : List (Frame K V) → Nat}
    {lookahead lexeme : K} {targets rules : List Nat} {frames frames' : List (Frame K V)}
    {made : List (Move K V)} (run : p.moves lookahead lexeme targets rules frames = .ok made)
    (lightens : ∀ production ∈ rules, p.Lightens weight lookahead frames production)
    (listed : (.waiting, frames') ∈ made) : weight frames' < weight frames := by
  obtain ⟨production, entry, reduced⟩ :=
    (Parser.mem_moves_of_ne_shifted run Fate.noConfusion).mp listed
  obtain ⟨fate, frames'', same, lighter⟩ := lightens production entry
  rw [reduced] at same
  cases same
  exact lighter rfl

variable [Token K]

/-- No branch of a contract runs into a fault, and every reduction makes it lighter. -/
structure Branching.Descends (p : Parser K V) (token : K) (live : Branch K V → Prop)
    (queued : Nat → Branch K V → Prop) (weight : List (Frame K V) → Nat) : Prop where
  step : ∀ b, live b → ∀ production ∈ p.rules token b.frames,
    p.Lightens weight token b.frames production
  insert : ∀ terminal ∈ p.table.insertable, ∀ b, queued terminal b →
    ∀ production ∈ p.table.reduces (Frame.top b.frames) terminal,
      p.Lightens weight token b.frames production

namespace Branching.Descends

variable {p : Parser K V} {token : K} {live : Branch K V → Prop}
  {queued : Nat → Branch K V → Prop} {next shifted accepted : Branch K V → Prop}
  {weight : List (Frame K V) → Nat} {s : Branching K V}

theorem exists_pass (descends : Descends p token live queued weight)
    (contract : Contract p token live queued next shifted accepted) {fuel : Nat}
    (meets : s.Meets live live shifted accepted) (waiting : s.waiting = [])
    (light : ∀ b ∈ s.live, weight b.frames < fuel) : ∃ after, s.pass p token fuel = .ok after := by
  induction fuel generalizing s with
  | zero =>
    have none : s.live = [] :=
      List.eq_nil_iff_forall_not_mem.mpr fun b member => Nat.not_lt_zero _ (light b member)
    exact ⟨s, by simp [Branching.pass, none]⟩
  | succ fuel ih =>
    unfold Branching.pass
    split
    · exact ⟨s, rfl⟩
    · have cleared : { s with live := [] }.Meets live live shifted accepted :=
        { meets with alive := by simp }
      have started : { s with live := [] }.Meets live live shifted accepted ∧
          ∀ b ∈ s.waiting, weight b.frames < fuel := ⟨cleared, by simp [waiting]⟩
      obtain ⟨s', stepped, kept, lighter⟩ := exists_foldlM_eq_ok (f := Branching.step p token)
        (l := s.live) (fun x : Branching K V =>
          x.Meets live live shifted accepted ∧ ∀ b ∈ x.waiting, weight b.frames < fuel)
        (by
          rintro x b member ⟨held, waits⟩
          have reduces := descends.step b (meets.alive b member)
          obtain ⟨moves, made⟩ :=
            Parser.exists_moves_eq_ok reduces token (p.targets token b.frames)
          have run : x.step p token b = .ok ((x.take b moves).conclude b moves.length) :=
            step_eq_ok.mpr ⟨moves, made, rfl⟩
          refine ⟨_, run, contract.step (meets.alive b member) held run, fun b' member' => ?_⟩
          rcases mem_held_take_conclude .waiting member' with old | ⟨frames, number, move, rfl⟩
          · exact waits b' old
          · have lighter := Parser.weight_lt_of_mem_moves made reduces move
            have bound := light b member
            exact (by omega : weight frames < fuel))
        started
      have turned : { s' with live := s'.waiting, waiting := [] }.Meets live live shifted accepted :=
        { kept with alive := kept.waits, waits := by simp }
      obtain ⟨after, rest⟩ := ih turned rfl lighter
      exact ⟨after, by rw [stepped]; exact rest⟩

theorem exists_insertAll (descends : Descends p token live queued weight)
    (contract : Contract p token live queued next shifted accepted) {terminal : Nat}
    (insertable : terminal ∈ p.table.insertable) {fuel : Nat} {queue : List (Branch K V)}
    (meets : s.Meets live next shifted accepted)
    (ready : ∀ b ∈ queue, queued terminal b ∧ weight b.frames < fuel) :
    ∃ after, insertAll p token terminal fuel (s, queue) = .ok after := by
  induction fuel generalizing s queue with
  | zero =>
    have none : queue = [] :=
      List.eq_nil_iff_forall_not_mem.mpr fun b member => Nat.not_lt_zero _ (ready b member).2
    exact ⟨s, by simp [Branching.insertAll, none]⟩
  | succ fuel ih =>
    unfold Branching.insertAll
    split
    · exact ⟨s, rfl⟩
    · obtain ⟨⟨s', queue'⟩, inserted, kept, lighter⟩ := exists_foldlM_eq_ok
        (f := Branching.insertAt p token terminal) (l := queue)
        (fun x : Branching K V × List (Branch K V) =>
          x.1.Meets live next shifted accepted ∧
            ∀ b ∈ x.2, queued terminal b ∧ weight b.frames < fuel)
        (by
          rintro x b member ⟨held, waits⟩
          obtain ⟨found, bound⟩ := ready b member
          have reduces := descends.insert terminal insertable b found
          obtain ⟨moves, made⟩ := Parser.exists_moves_eq_ok reduces
            (Token.correction token terminal (p.table.describe terminal))
            (p.table.shifts (Frame.top b.frames) terminal)
          have run : insertAt p token terminal x b = .ok (prepare (missing p token terminal) b moves x) :=
            insertAt_eq_ok.mpr ⟨moves, made, rfl⟩
          obtain ⟨kept, queued⟩ := contract.insertAt insertable found held
            (fun b member => (waits b member).1) run
          refine ⟨_, run, kept, fun b' member' => ⟨queued b' member', ?_⟩⟩
          rcases List.mem_append.mp member' with old | forked
          · exact (waits b' old).2
          · obtain ⟨frames, number, move, rfl⟩ := Branch.exists_move_of_mem_fork forked
            have lighter := Parser.weight_lt_of_mem_moves made reduces move
            exact (by omega : weight frames < fuel))
        (x := (s, [])) ⟨meets, by simp⟩
      obtain ⟨after, rest⟩ := ih kept lighter
      exact ⟨after, by rw [inserted]; exact rest⟩

theorem exists_repair (descends : Descends p token live queued weight)
    (contract : Contract p token live queued next shifted accepted) {fuel : Nat} {b : Branch K V}
    (lives : live b) (light : weight b.frames < fuel) (meets : s.Meets live next shifted accepted) :
    ∃ after, s.repair fuel p token b = .ok after ∧ after.Meets live next shifted accepted := by
  unfold Branching.repair
  refine exists_foldlM_eq_ok (fun x : Branching K V => x.Meets live next shifted accepted)
    (fun x terminal member held => ?_) (contract.delete_meets lives meets)
  have ready : ∀ b' ∈ [b], queued terminal b' ∧ weight b'.frames < fuel := by
    intro b' listed
    obtain rfl := List.mem_singleton.mp listed
    exact ⟨contract.queue b' lives terminal member, light⟩
  obtain ⟨after, run⟩ := descends.exists_insertAll contract member held ready
  exact ⟨after, run, contract.insertAll member held (fun b' listed => (ready b' listed).1) run⟩

theorem exists_recover (descends : Descends p token live queued weight)
    (contract : Contract p token live queued next shifted accepted)
    (policy : List (Branch K V) → List (Branch K V) × Nat) {fuel : Nat}
    (meets : s.Meets live live shifted accepted) (waiting : s.waiting = [])
    (light : ∀ b ∈ s.stranded, weight b.frames < fuel) :
    ∃ after, s.recover policy fuel p token = .ok after := by
  have cleared : { s with stranded := [] }.Meets live next shifted accepted :=
    { meets with
      waits := by simp [waiting]
      stuck := fun _ member => nomatch member }
  obtain ⟨s', repaired, -⟩ := exists_foldlM_eq_ok
    (fun x : Branching K V => x.Meets live next shifted accepted)
    (fun x b member held =>
      descends.exists_repair contract (meets.stuck b member) (light b member) held) cleared
  exact ⟨_, by unfold Branching.recover; rw [repaired]; rfl⟩

end Branching.Descends

section Outcome

namespace Branching

variable {p : Parser K V} {token : K} {s after : Branching K V} {b : Branch K V}

/-- A branch that is stepped brings in something or is stranded by the end of the pass. `property` is
what the reductions of the pass keep. -/
theorem pass_outcome {fuel : Nat} (run : s.pass p token fuel = .ok after) (member : b ∈ s.live)
    {property : List (Frame K V) → Prop}
    (closed : ∀ frames frames', property frames → ∀ production ∈ p.rules token frames,
      p.reduct token frames production = .ok (.waiting, frames') → property frames')
    (start : property b.frames) :
    after.shifted ≠ [] ∨ s.accepted.length < after.accepted.length ∨
      ∃ b' ∈ after.stranded, property b'.frames ∧ p.targets token b'.frames = [] ∧
        p.rules token b'.frames = [] := by
  induction fuel generalizing s b with
  | zero =>
    obtain ⟨_, _, none, -⟩ := exists_round_of_pass run member
    cases none
  | succ fuel ih =>
    obtain ⟨_, s', same, stepped, rest⟩ := exists_round_of_pass run member
    cases same
    obtain ⟨x, y, before, stepped, behind⟩ := exists_step_of_foldlM member stepped
    obtain ⟨moves, made, rfl⟩ := step_eq_ok.mp stepped
    obtain ⟨kept, strandings⟩ := pass_grows rest
    have count := Parser.length_moves made
    cases moves with
    | nil =>
      rw [List.length_nil] at count
      refine .inr (.inr ⟨b, strandings.subset (behind.stranded.subset ?_), start, ?_, ?_⟩)
      · rw [conclude_stranded]
        simp
      · exact List.length_eq_zero_iff.mp (by omega)
      · exact List.length_eq_zero_iff.mp (by omega)
    | cons move moves =>
      obtain ⟨fate, frames⟩ := move
      have listed : (fate, frames) ∈ (fate, frames) :: moves := List.mem_cons_self ..
      obtain ⟨number, found⟩ :=
        exists_mem_held_take_conclude x b ((fate, frames) :: moves).length listed
      cases fate with
      | shifted =>
        exact .inl (List.ne_nil_of_mem (kept.shifted.subset (behind.shifted.subset found)))
      | accepted =>
        have more := length_held_lt_take_conclude x b ((.accepted, frames) :: moves).length listed
        exact .inr (.inl (before.accepted.length_le.trans_lt
          (more.trans_le (behind.accepted.trans kept.accepted).length_le)))
      | waiting =>
        obtain ⟨production, entry, reduced⟩ :=
          (Parser.mem_moves_of_ne_shifted made Fate.noConfusion).mp listed
        have turned := ih (b := { b with frames, serial := number }) rest
          (behind.waiting.subset found) (closed _ _ start production entry reduced)
        have first := (before.accepted.trans (held_prefix_take_conclude x b _ _ .accepted)).trans
          behind.accepted
        rcases turned with shifted | accepted | stranded
        · exact .inl shifted
        · exact .inr (.inl (Nat.lt_of_le_of_lt first.length_le accepted))
        · exact .inr (.inr stranded)

/-- A recovery drops the token for every stranded branch, unless the stream ends there. -/
theorem recover_shifted_ne_nil {policy : List (Branch K V) → List (Branch K V) × Nat} {fuel : Nat}
    (run : s.recover policy fuel p token = .ok after) (goes : Token.isEnd token = false)
    (stranded : s.stranded ≠ []) : after.shifted ≠ [] := by
  obtain ⟨s', repaired, rest⟩ := exists_of_bind_eq_ok run
  cases rest
  obtain ⟨b, member⟩ := List.exists_mem_of_ne_nil _ stranded
  obtain ⟨x, y, -, one, behind⟩ := exists_repair_of_foldlM member repaired
  unfold Branching.repair at one
  rw [if_neg (by simp [goes])] at one
  have grown : (x.delete token b).Grows y :=
    foldlM_keeps _ (fun _ _ _ _ held one => held.trans (insertAll_grows one).1) (.refl _) one
  have last := (grown.shifted.trans behind.shifted).length_le
  intro none
  have empty : s'.shifted = [] := none
  simp [empty, Branching.delete] at last

private theorem insertAll_complete {terminal fuel : Nat} {queue : List (Branch K V)}
    (run : insertAll p token terminal fuel (s, queue) = .ok after) (member : b ∈ queue)
    {ready stack : List Nat}
    (chain : ReflTransGen (p.table.Prepares terminal) (Frame.states b.frames) ready)
    (inserts : p.table.Inserts terminal ready stack) :
    ∃ b' ∈ after.waiting, Frame.states b'.frames = stack ∧ b'.level = b.level + 1 := by
  induction fuel generalizing s b queue with
  | zero =>
    rw [Branching.insertAll, if_neg (by simp [List.ne_nil_of_mem member])] at run
    cases run
  | succ fuel ih =>
    rw [Branching.insertAll, if_neg (by simp [List.ne_nil_of_mem member])] at run
    obtain ⟨⟨s', queue'⟩, inserted, rest⟩ := exists_of_bind_eq_ok run
    obtain ⟨x, y, -, one, ⟨waiting, queued⟩⟩ := exists_round_of_foldlM
      (R := fun x y : Branching K V × List (Branch K V) =>
        x.1.waiting <+: y.1.waiting ∧ x.2 <+: y.2)
      (fun _ => ⟨List.prefix_refl _, List.prefix_refl _⟩)
      (fun first second => ⟨first.1.trans second.1, first.2.trans second.2⟩)
      (fun x b y one => by
        obtain ⟨moves, -, rfl⟩ := insertAt_eq_ok.mp one
        exact ⟨List.prefix_append .., List.prefix_append ..⟩) member inserted
    obtain ⟨moves, made, rfl⟩ := insertAt_eq_ok.mp one
    rcases chain.cases_head with rfl | ⟨middle, first, chain⟩
    · obtain ⟨target, entry, rfl⟩ := Parser.inserts_states_iff.mp inserts
      obtain ⟨number, forked⟩ := b.exists_mem_fork
        ((Parser.mem_moves_shifted made).mpr ⟨target, entry, rfl⟩) x.1.serial
      refine ⟨_, (waiting.trans (insertAll_grows rest).1.waiting).subset (List.mem_append_right _
        (List.mem_map_of_mem (f := (·.repaired (missing p token terminal))) forked)), rfl, rfl⟩
    · obtain ⟨production, entry, frames, reduced, rfl⟩ :=
        (Parser.prepares_states_iff token).mp first
      obtain ⟨number, forked⟩ := b.exists_mem_fork
        ((Parser.mem_moves_of_ne_shifted made Fate.noConfusion).mpr ⟨production, entry, reduced⟩)
        x.1.serial
      exact ih (b := { b with frames, serial := number }) rest
        (queued.subset (List.mem_append_right _ forked)) chain

/-- A recovery inserts every terminal at every stranded branch that can shift it after reductions, and
no worse branch is kept for the stack that this yields. -/
theorem recover_complete {fuel : Nat} (run : s.recover Branch.merge fuel p token = .ok after)
    (member : b ∈ s.stranded) {terminal : Nat} (insertable : terminal ∈ p.table.insertable)
    {ready stack : List Nat}
    (chain : ReflTransGen (p.table.Prepares terminal) (Frame.states b.frames) ready)
    (inserts : p.table.Inserts terminal ready stack) :
    ∃ kept ∈ after.live, Frame.states kept.frames = stack ∧ kept.level ≤ b.level + 1 := by
  obtain ⟨s', repaired, rest⟩ := exists_of_bind_eq_ok run
  cases rest
  obtain ⟨x, y, -, one, behind⟩ := exists_repair_of_foldlM member repaired
  unfold Branching.repair at one
  obtain ⟨x', y', -, one, behind'⟩ := exists_round_of_foldlM
    (f := fun s terminal => insertAll p token terminal fuel (s, [b])) Grows.refl Grows.trans
    (fun _ _ _ one => (insertAll_grows one).1) insertable one
  obtain ⟨b', waits, states, raised⟩ :=
    insertAll_complete one (List.mem_singleton_self b) chain inserts
  obtain ⟨kept, survives, states', level⟩ := Branch.exists_mem_merge
    ((behind'.waiting.trans behind.waiting).subset waits)
  exact ⟨kept, survives, states'.trans states, level.trans_eq raised⟩

end Branching

end Outcome

end GeneralizedLR
