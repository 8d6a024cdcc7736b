import GeneralizedLR.Proofs.Engine.Handles

/-!
The reductions that a call makes. A call comes to a reduction in a pass, when a head has its turn, or in
a recovery, ahead of the insertion of a terminal. Wherever that is, also on the way to a fault, the arena
is sound and the head stands on the stack of a branch with what the contract of the parser says.
-/

set_option autoImplicit false
set_option relaxedAutoImplicit false

namespace GeneralizedLR

variable {K V : Type}

section Occurrences

variable [Token K] (p : Parser K V) (token : K)

namespace Engine

/-- Stepping the head `h` comes to `production`; the engine that is about to reduce is `x`. -/
def StepReduces (e : Engine K V) (h : Head) (production : Nat) (x : Engine K V) : Prop :=
  ∃ state, e.arena.state h.top = .ok state ∧
    ComesTo (reduceBy p token h state)
      (p.table.reduces state (Token.classify (p.table.reduceChannel? state) token))
      ((p.table.shifts state (Token.classify (p.table.shiftChannel? state) token)).foldl
        (shiftTo token h state) e)
      production x

/-- A pass comes to a reduction, in this round or in a later one. -/
inductive PassReduces (h : Head) (production : Nat) (x : Engine K V) : Nat → Engine K V → Prop
  | here {fuel : Nat} {e y : Engine K V} :
      ComesTo (stepHead p token) e.heads { e with heads := [] } h y →
        y.StepReduces p token h production x → PassReduces h production x (fuel + 1) e
  | later {fuel : Nat} {e y : Engine K V} : e.heads ≠ [] →
      e.heads.foldlM (stepHead p token) { e with heads := [] } = .ok y →
        PassReduces h production x fuel { y with heads := y.waiting.reverse, waiting := [] } →
          PassReduces h production x (fuel + 1) e

def InsertAtReduces (terminal : Nat) (y : Engine K V × List Head) (h : Head) (production : Nat)
    (x : Engine K V) : Prop :=
  ∃ state queue, y.1.arena.state h.top = .ok state ∧
    ComesTo (prepareBy p token h) (p.table.reduces state terminal)
      ((p.table.shifts state terminal).foldl (insertTo p token terminal h state) y.1, y.2)
      production (x, queue)

/-- Inserting `terminal` at a queue of heads comes to a reduction, in this round or in a later one. -/
inductive InsertAllReduces (terminal : Nat) (h : Head) (production : Nat) (x : Engine K V) :
    Nat → Engine K V × List Head → Prop
  | here {fuel : Nat} {y z : Engine K V × List Head} :
      ComesTo (insertAt p token terminal) y.2 (y.1, []) h z →
        InsertAtReduces p token terminal z h production x →
          InsertAllReduces terminal h production x (fuel + 1) y
  | later {fuel : Nat} {y z : Engine K V × List Head} : y.2 ≠ [] →
      y.2.foldlM (insertAt p token terminal) (y.1, []) = .ok z →
        InsertAllReduces terminal h production x fuel z →
          InsertAllReduces terminal h production x (fuel + 1) y

/-- Repairing the head `first` comes to a reduction, ahead of the insertion of some terminal. -/
def RepairReduces (fuel : Nat) (e : Engine K V) (first h : Head) (production : Nat)
    (x : Engine K V) : Prop :=
  ∃ terminal y,
    ComesTo (fun e terminal => insertAll p token terminal fuel (e, [first])) p.table.insertable
      (if Token.isEnd token then e else e.deleteBefore token first) terminal y ∧
    InsertAllReduces p token terminal h production x fuel (y, [first])

/-- A recovery comes to a reduction, in the repair of one of the stranded heads. -/
def RecoverReduces (fuel : Nat) (e : Engine K V) (h : Head) (production : Nat) (x : Engine K V) :
    Prop :=
  ∃ first y,
    ComesTo (repair fuel p token) e.stranded.reverse
      { e.record (.recovering e.stranded.reverse.length (Token.literal token) (Token.span token)) with
        stranded := [] } first y ∧
    RepairReduces p token fuel y first h production x

/-- Passes and recoveries in turn come to a reduction. -/
inductive AdvanceReduces (merge : Arena K V → List Head → Merged) (fuel : Nat) (h : Head)
    (production : Nat) (x : Engine K V) : Nat → Engine K V → Prop
  | pass {rounds : Nat} {e : Engine K V} : PassReduces p token h production x fuel e →
      AdvanceReduces merge fuel h production x (rounds + 1) e
  | recover {rounds : Nat} {e passed : Engine K V} : e.pass p token fuel = .ok passed →
      passed.shifted = [] → passed.accepted.length ≤ e.accepted.length →
        RecoverReduces p token fuel passed h production x →
          AdvanceReduces merge fuel h production x (rounds + 1) e
  | later {rounds : Nat} {e passed next : Engine K V} : e.pass p token fuel = .ok passed →
      passed.shifted = [] → passed.accepted.length ≤ e.accepted.length → passed.stranded ≠ [] →
        passed.recover merge fuel p token = .ok next →
          AdvanceReduces merge fuel h production x rounds next →
            AdvanceReduces merge fuel h production x (rounds + 1) e

/-- The call with `token` comes to reduce `production` at the head `h`, and the engine is then `x`. -/
def Reduces (e : Engine K V) (h : Head) (production : Nat) (x : Engine K V) : Prop :=
  ∃ fuel, AdvanceReduces p token Merged.ofHeads fuel h production x fuel e.begun

end Engine

end Occurrences

section Stands

variable [Token K] {p : Parser K V} {token : K} {live : Branch K V → Prop}
  {queued : Nat → Branch K V → Prop} {next shifted accepted : Branch K V → Prop}
  {e base x : Engine K V} {s : Branching K V} {h : Head} {b : Branch K V} {production : Nat}

/-- The arena is sound, and the head stands on the stack of a branch that reduces `production`: one
with a turn, before the token, or one that looks for a place to insert a terminal. -/
def Engine.Stands (p : Parser K V) (token : K) (live : Branch K V → Prop)
    (queued : Nat → Branch K V → Prop) (x : Engine K V) (h : Head) (production : Nat) : Prop :=
  x.arena.Sound ∧ ∃ b, h.Shown x.arena false b ∧
    (live b ∧ production ∈ p.rules token b.frames ∨
      ∃ terminal ∈ p.table.insertable, queued terminal b ∧
        production ∈ p.table.reduces (Frame.top b.frames) terminal)

namespace Engine.Shows

theorem stepReduces (shows : e.Shows s) (shown : h.Shown e.arena false b) (lives : live b)
    (reduces : e.StepReduces p token h production x) :
    x.Stands p token live queued h production := by
  obtain ⟨state, top, comes⟩ := reduces
  obtain rfl : Frame.top b.frames = state := Except.ok.inj (shown.holds.state.symm.trans top)
  obtain ⟨t, shows', extends'⟩ := comes.keeps (fun y => ∃ t, e.Follows y t)
    (fun y i z _ held one => by
      obtain ⟨t, shows', extends'⟩ := held
      rcases shows'.reduceBy (shown.mono extends'.grows) p token (Frame.top b.frames) i with
        ⟨_, _, _, halted, _⟩ | ⟨_, z', _, done, shows'', extends''⟩
      · rw [halted] at one
        cases one
      · rw [done] at one
        cases one
        exact ⟨_, shows'', extends'.trans extends''⟩)
    ⟨_, shows.shiftAll shown token (Frame.top b.frames) _⟩
  exact ⟨extends'.sound, b, shown.mono extends'.grows, .inl ⟨lives, comes.mem⟩⟩

theorem passReduces (contract : Branching.Contract p token live queued next shifted accepted)
    (shows : e.Shows s) (meets : s.Meets live live shifted accepted) {fuel : Nat}
    (reduces : PassReduces p token h production x fuel e) :
    x.Stands p token live queued h production := by
  induction reduces generalizing s with
  | here comes steps =>
    obtain ⟨b, t, comes', follows, shown⟩ := Agrees.comesTo shows.live
      (fun _ _ _ _ follows shown => agrees_stepHead follows shown p token) shows.cleared comes
    exact follows.1.stepReduces (shown.mono follows.2.grows) (meets.alive b comes'.mem) steps
  | later _ run _ ih =>
    obtain ⟨t, run', follows⟩ := (Agrees.foldlM shows.live
      (fun _ _ _ _ follows shown => agrees_stepHead follows shown p token)
      shows.cleared).exists_of_eq_ok run
    have cleared : { s with live := [] }.Meets live live shifted accepted :=
      { meets with alive := fun _ member => nomatch member }
    have kept : t.Meets live live shifted accepted :=
      foldlM_keeps _ (fun _ b _ member held one => contract.step (meets.alive b member) held one)
        cleared run'
    exact ih follows.1.turned { kept with
      alive := kept.waits
      waits := fun _ member => nomatch member }

variable {terminal : Nat} {y : Engine K V × List Head} {z : Branching K V × List (Branch K V)}

theorem insertAtReduces (shows : y.1.Shows z.1)
    (queue : List.Forall₂ (Head.Shown y.1.arena false) y.2 z.2) (shown : h.Shown y.1.arena false b)
    (insertable : terminal ∈ p.table.insertable) (ready : queued terminal b)
    (reduces : InsertAtReduces p token terminal y h production x) :
    x.Stands p token live queued h production := by
  obtain ⟨state, heads, top, comes⟩ := reduces
  obtain rfl : Frame.top b.frames = state := Except.ok.inj (shown.holds.state.symm.trans top)
  obtain ⟨t, ⟨shows', extends'⟩, -⟩ := comes.keeps (fun w => ∃ t, y.1.FollowsWith w t)
    (fun w i w' _ held one => by
      obtain ⟨t, ⟨shows', extends'⟩, queue'⟩ := held
      rcases shows'.prepareBy (shown.mono extends'.grows) p token terminal i queue' with
        ⟨_, _, _, halted, _⟩ | ⟨_, w'', _, done, ⟨shows'', extends''⟩, queue''⟩
      · rw [halted] at one
        cases one
      · rw [done] at one
        cases one
        exact ⟨_, ⟨shows'', extends'.trans extends''⟩, queue''⟩)
    ⟨_, shows.insertEach shown p token terminal (Frame.top b.frames) _ queue⟩
  exact ⟨extends'.sound, b, shown.mono extends'.grows,
    .inr ⟨terminal, insertable, ready, comes.mem⟩⟩

theorem insertAllReduces (contract : Branching.Contract p token live queued next shifted accepted)
    (shows : y.1.Shows z.1) (queue : List.Forall₂ (Head.Shown y.1.arena false) y.2 z.2)
    (insertable : terminal ∈ p.table.insertable) (meets : z.1.Meets live next shifted accepted)
    (ready : ∀ b ∈ z.2, queued terminal b) {fuel : Nat}
    (reduces : InsertAllReduces p token terminal h production x fuel y) :
    x.Stands p token live queued h production := by
  induction reduces generalizing z with
  | @here fuel y _ comes inserts =>
    have start : y.1.FollowsWith (y.1, []) (z.1, []) := ⟨⟨shows, shows.extends⟩, .nil⟩
    obtain ⟨b, t, comes', ⟨⟨shows', extends'⟩, queue'⟩, shown⟩ := Agrees.comesTo queue
      (fun _ _ _ _ follows shown => agrees_insertAt follows shown p token terminal) start comes
    exact shows'.insertAtReduces queue' (shown.mono extends'.grows) insertable
      (ready b comes'.mem) inserts
  | @later fuel y _ _ run _ ih =>
    have start : y.1.FollowsWith (y.1, []) (z.1, []) := ⟨⟨shows, shows.extends⟩, .nil⟩
    obtain ⟨t, run', ⟨shows', -⟩, queue'⟩ := (Agrees.foldlM queue
      (fun _ _ _ _ follows shown => agrees_insertAt follows shown p token terminal)
      start).exists_of_eq_ok run
    have kept : t.1.Meets live next shifted accepted ∧ ∀ b ∈ t.2, queued terminal b :=
      foldlM_keeps (fun w : Branching K V × List (Branch K V) =>
        w.1.Meets live next shifted accepted ∧ ∀ b ∈ w.2, queued terminal b)
        (fun _ b _ member held => contract.insertAt insertable (ready b member) held.1 held.2)
        (x := (z.1, [])) ⟨meets, fun _ member => nomatch member⟩ run'
    exact ih shows' queue' kept.1 kept.2

theorem repairReduces (contract : Branching.Contract p token live queued next shifted accepted)
    (shows : e.Shows s) {first : Head} (shown : first.Shown e.arena false b) (lives : live b)
    (meets : s.Meets live next shifted accepted) {fuel : Nat}
    (reduces : RepairReduces p token fuel e first h production x) :
    x.Stands p token live queued h production := by
  obtain ⟨terminal, y, comes, inserts⟩ := reduces
  obtain ⟨_, t, comes', follows, rfl⟩ := Agrees.comesTo (I := Eq) (List.forall₂_refl _)
    (fun _ _ _ _ follows same => agrees_insertEach follows shown p token fuel same)
    (shows.dropped shown token) comes
  have ready : ∀ terminal ∈ p.table.insertable, ∀ b' ∈ [b], queued terminal b' :=
    fun terminal member => List.forall_mem_singleton.mpr (contract.queue b lives terminal member)
  have kept : t.Meets live next shifted accepted :=
    comes'.keeps _ (fun _ terminal _ member held one =>
      contract.insertAll member held (ready terminal member) one) (contract.delete_meets lives meets)
  exact insertAllReduces contract (y := (y, [first])) (z := (t, [b])) follows.1
    (.cons (shown.mono follows.2.grows) .nil) comes'.mem kept (ready terminal comes'.mem) inserts

theorem recoverReduces (contract : Branching.Contract p token live queued next shifted accepted)
    (shows : e.Shows s) (meets : s.Meets live live shifted accepted) (waiting : s.waiting = [])
    {fuel : Nat} (reduces : RecoverReduces p token fuel e h production x) :
    x.Stands p token live queued h production := by
  obtain ⟨first, y, comes, repairs⟩ := reduces
  have started : e.Follows
      { e.record (.recovering e.stranded.reverse.length (Token.literal token) (Token.span token)) with
        stranded := [] } { s with stranded := [] } :=
    ⟨{ shows with stranded := .nil }, shows.extends.keep rfl rfl (Nat.le_refl _)⟩
  obtain ⟨b, t, comes', follows, shown⟩ := Agrees.comesTo shows.stranded
    (fun _ _ _ _ follows shown => agrees_repair follows shown fuel p token) started comes
  have cleared : { s with stranded := [] }.Meets live next shifted accepted :=
    { meets with
      waits := by simp [waiting]
      stuck := fun _ member => nomatch member }
  have kept : t.Meets live next shifted accepted :=
    comes'.keeps _ (fun _ b _ member held one => contract.repair (meets.stuck b member) held one)
      cleared
  exact repairReduces contract follows.1 (shown.mono follows.2.grows) (meets.stuck b comes'.mem) kept
    repairs

theorem advanceReduces (contract : Branching.Contract p token live queued live shifted accepted)
    (shows : e.Shows s) (meets : s.Meets live live shifted accepted) (waiting : s.waiting = [])
    {fuel rounds : Nat}
    (reduces : AdvanceReduces p token Merged.ofHeads fuel h production x rounds e) :
    x.Stands p token live queued h production := by
  induction reduces generalizing s with
  | pass passes => exact passReduces contract shows meets passes
  | recover run _ _ recovers =>
    obtain ⟨t, run', follows⟩ := (shows.pass p token fuel).exists_of_eq_ok run
    exact recoverReduces contract follows.1 (contract.pass meets run')
      (Branching.pass_eq_ok run' waiting).2 recovers
  | later run _ _ _ recovered _ ih =>
    obtain ⟨t, run', follows⟩ := (shows.pass p token fuel).exists_of_eq_ok run
    obtain ⟨t', recovered', follows'⟩ :=
      (follows.1.recover faithful_ofHeads fuel p token).exists_of_eq_ok recovered
    have kept := contract.recover selects_merge (contract.pass meets run')
      (Branching.pass_eq_ok run' waiting).2 recovered'
    exact ih follows'.1 kept (Branching.recover_keeps recovered').2.1

/-- Whenever a call comes to a reduction, the head stands on the stack of a branch that the contract
speaks about. -/
theorem reduces (contract : Branching.Contract p token live queued live shifted accepted)
    (shows : e.Shows s) (idle : s.Idle) (lives : ∀ b ∈ s.live, live b)
    (accepts : ∀ b ∈ s.accepted, accepted b) (reduces : e.Reduces p token h production x) :
    x.Stands p token live queued h production := by
  obtain ⟨fuel, advances⟩ := reduces
  exact advanceReduces contract shows.begun (idle.meets lives accepts _) idle.waiting advances

end Engine.Shows

end Stands

end GeneralizedLR
