import GeneralizedLR.Proofs.Engine.Repairs
import GeneralizedLR.Proofs.Engine.Stability

/-!
A token before the end of the stream is survived with one recovery at most. A pass leaves something of
every live head: what shifts the token or ends a parse, or a candidate for repairs. If there are only
candidates, a recovery drops the token before each of them, so that none follows the next pass. And only
a recovery repairs anything: whatever the token leads to has one repair more for each of them.
-/

set_option autoImplicit false
set_option relaxedAutoImplicit false

namespace GeneralizedLR

variable {K V : Type} [Token K]

section Origins

/-- How a stack gets past a token, and by how many repairs. -/
inductive Parser.Survives (p : Parser K V) (token : K) :
    Nat → Fate → List (Frame K V) → List (Frame K V) → Prop
  | shift {frames : List (Frame K V)} {target : Nat} :
      target ∈ p.targets token frames →
        Parser.Survives p token 0 .shifted frames (⟨target, .lexeme token⟩ :: frames)
  | accept {frames last : List (Frame K V)} {production : Nat} :
      production ∈ p.rules token frames →
        p.reduct token frames production = .ok (.accepted, last) →
          Parser.Survives p token 0 .accepted frames last
  | reduce {repairs : Nat} {fate : Fate} {frames frames' last : List (Frame K V)} {production : Nat} :
      production ∈ p.rules token frames →
        p.reduct token frames production = .ok (.waiting, frames') →
          Parser.Survives p token repairs fate frames' last →
            Parser.Survives p token repairs fate frames last
  | drop {frames : List (Frame K V)} :
      Token.isEnd token = false → p.targets token frames = [] → p.rules token frames = [] →
        Parser.Survives p token 1 .shifted frames frames
  | insert {repairs terminal : Nat} {fate : Fate} {frames frames' last : List (Frame K V)} :
      p.targets token frames = [] → p.rules token frames = [] →
        terminal ∈ p.table.insertable → p.Inserts token terminal frames frames' →
          Parser.Survives p token repairs fate frames' last →
            Parser.Survives p token (repairs + 1) fate frames last

/-- A branch comes from another one past a token, and each repair on the way is recorded in it. -/
structure Branch.Descends (p : Parser K V) (token : K) (repairs : Nat) (fate : Fate)
    (origin b : Branch K V) : Prop where
  leads : p.Survives token repairs fate origin.frames b.frames
  level : b.level = origin.level + repairs
  errors : ∃ records, b.errors = origin.errors ++ records ∧ records.length = repairs

private structure Branch.Nears (p : Parser K V) (token : K) (origin b : Branch K V) : Prop where
  leads : ∀ {repairs fate last}, p.Survives token repairs fate b.frames last →
    p.Survives token repairs fate origin.frames last
  level : b.level = origin.level
  errors : b.errors = origin.errors

variable {p : Parser K V} {token : K}

private theorem Branch.Nears.descends {repairs : Nat} {fate : Fate} {origin b last : Branch K V}
    (nears : Branch.Nears p token origin b) (descends : b.Descends p token repairs fate last) :
    origin.Descends p token repairs fate last where
  leads := nears.leads descends.leads
  level := nears.level ▸ descends.level
  errors := nears.errors ▸ descends.errors

private theorem Branch.descends_repaired (goes : Token.isEnd token = false) {b : Branch K V}
    (stuck : p.targets token b.frames = [] ∧ p.rules token b.frames = []) (serial : Nat) :
    b.Descends p token 1 .shifted { b.repaired (Branching.unexpected token) with serial } where
  leads := .drop goes stuck.1 stuck.2
  level := rfl
  errors := ⟨_, rfl, rfl⟩

private theorem Branch.Gains.descends {terminal repairs : Nat} {fate : Fate}
    (insertable : terminal ∈ p.table.insertable) {b gained last : Branch K V}
    (stuck : p.targets token b.frames = [] ∧ p.rules token b.frames = [])
    (gains : b.Gains p token terminal gained) (descends : gained.Descends p token repairs fate last) :
    b.Descends p token (repairs + 1) fate last := by
  obtain ⟨frames, serial, inserts, rfl⟩ := gains
  obtain ⟨survives, level, records, errors, count⟩ := descends
  refine ⟨.insert stuck.1 stuck.2 insertable inserts survives, ?_,
    Branching.missing p token terminal :: records, ?_, congrArg (· + 1) count⟩
  · rw [level]
    exact Nat.add_right_comm ..
  · rw [errors]
    exact List.append_assoc ..

namespace Branching

variable {s after : Branching K V}

private def Near (p : Parser K V) (token : K) (s : Branching K V) (b : Branch K V) : Prop :=
  ∃ origin ∈ s.live, Branch.Nears p token origin b

private def Brings (p : Parser K V) (token : K) (repairs : Nat) (fate : Fate) (s : Branching K V)
    (b : Branch K V) : Prop :=
  b ∈ s.held fate ∨ ∃ origin ∈ s.live, origin.Descends p token repairs fate b

private theorem turns_near (p : Parser K V) (token : K) (s : Branching K V) :
    Turns p token (s.Near p token) (s.Brings p token 0 .shifted)
      (fun b => s.Near p token b ∧ p.targets token b.frames = [] ∧ p.rules token b.frames = [])
      (s.Brings p token 0 .accepted) where
  shift := by
    rintro b serial ⟨origin, lives, nears⟩ target entry
    exact .inr ⟨origin, lives, nears.descends ⟨.shift entry, rfl, [], (List.append_nil _).symm, rfl⟩⟩
  reduce := by
    rintro b serial frames ⟨origin, lives, nears⟩ production entry reduced
    exact ⟨origin, lives, fun leads => nears.leads (.reduce entry reduced leads), nears.level,
      nears.errors⟩
  accept := by
    rintro b serial frames ⟨origin, lives, nears⟩ production entry reduced
    exact .inr ⟨origin, lives,
      nears.descends ⟨.accept entry reduced, rfl, [], (List.append_nil _).symm, rfl⟩⟩
  strand _ near targets rules := ⟨near, targets, rules⟩

private theorem sorted_of_pass {fuel : Nat} (run : s.pass p token fuel = .ok after)
    (waiting : s.waiting = []) (stranded : s.stranded = []) :
    after.Sorted (s.Near p token) (s.Brings p token 0 .shifted)
      (fun b => s.Near p token b ∧ p.targets token b.frames = [] ∧ p.rules token b.frames = [])
      (s.Brings p token 0 .accepted) :=
  (turns_near p token s).pass
    { alive := fun b lives => ⟨b, lives, fun leads => leads, rfl, rfl⟩
      waits := by simp [waiting]
      gone := fun _ => .inl
      stuck := by simp [stranded]
      done := fun _ => .inl } run

end Branching

end Origins

section Rounds

/-- The loop of passes and recoveries over a token, with the number of recoveries that it takes. -/
inductive Engine.Advances (p : Parser K V) (token : K) (fuel : Nat) :
    Nat → Engine K V → Engine K V → Prop
  | settled {e passed : Engine K V} :
      e.pass p token fuel = .ok passed →
        passed.shifted ≠ [] ∨ e.accepted.length < passed.accepted.length →
          Engine.Advances p token fuel 0 e passed
  | ended {e passed : Engine K V} :
      e.pass p token fuel = .ok passed →
        passed.shifted = [] → passed.accepted.length ≤ e.accepted.length → passed.stranded = [] →
          Engine.Advances p token fuel 0 e (passed.record (.deadEnd token))
  | recovered {recoveries : Nat} {e passed next last : Engine K V} :
      e.pass p token fuel = .ok passed →
        passed.shifted = [] → passed.accepted.length ≤ e.accepted.length → passed.stranded ≠ [] →
          passed.recover Merged.ofHeads fuel p token = .ok next →
            Engine.Advances p token fuel recoveries next last →
              Engine.Advances p token fuel (recoveries + 1) e last

variable {p : Parser K V} {token : K} {fuel : Nat} {e last : Engine K V} {s : Branching K V}

theorem Engine.exists_advances {rounds : Nat}
    (run : e.advance Merged.ofHeads fuel p token rounds = .ok last) :
    ∃ recoveries, Engine.Advances p token fuel recoveries e last := by
  induction rounds generalizing e with
  | zero => cases run
  | succ rounds ih =>
    obtain ⟨passed, pass, rest⟩ := exists_of_bind_eq_ok run
    split at rest
    · next brings =>
      cases rest
      exact ⟨0, .settled pass (by simpa using brings)⟩
    · next unsettled =>
      obtain ⟨shifted, accepted⟩ : passed.shifted = [] ∧
          passed.accepted.length ≤ e.accepted.length := by simpa using unsettled
      split at rest
      · next none =>
        cases rest
        exact ⟨0, .ended pass shifted accepted (List.isEmpty_iff.mp none)⟩
      · next some =>
        obtain ⟨next, recover, rest⟩ := exists_of_bind_eq_ok rest
        obtain ⟨recoveries, advances⟩ := ih rest
        exact ⟨recoveries + 1,
          .recovered pass shifted accepted (by simpa using some) recover advances⟩

omit [Token K] in
private theorem Engine.Shows.shifted_eq_nil_iff (shows : e.Shows s) :
    e.shifted = [] ↔ s.shifted = [] := by
  have same := isEmpty_eq_of_forall₂ shows.shifted
  rw [List.isEmpty_reverse] at same
  rw [← List.isEmpty_iff, same, List.isEmpty_iff]

omit [Token K] in
private theorem Engine.Shows.stranded_eq_nil_iff (shows : e.Shows s) :
    e.stranded = [] ↔ s.stranded = [] := by
  have same := isEmpty_eq_of_forall₂ shows.stranded
  rw [List.isEmpty_reverse] at same
  rw [← List.isEmpty_iff, same, List.isEmpty_iff]

private theorem Engine.Shows.exists_recover (shows : e.Shows s) {passed next : Engine K V}
    (pass : e.pass p token fuel = .ok passed) (shifted : passed.shifted = [])
    (accepted : passed.accepted.length ≤ e.accepted.length) (stranded : passed.stranded ≠ [])
    (recover : passed.recover Merged.ofHeads fuel p token = .ok next) : ∃ passed' next',
      s.pass p token fuel = .ok passed' ∧ e.Follows passed passed' ∧
      (passed'.shifted = [] ∧ passed'.accepted = s.accepted ∧ passed'.stranded ≠ []) ∧
      passed'.recover Branch.merge fuel p token = .ok next' ∧ e.Follows next next' := by
  obtain ⟨passed', pass', follows⟩ := (shows.pass p token fuel).exists_of_eq_ok pass
  obtain ⟨next', recover', follows'⟩ :=
    (follows.1.recover faithful_ofHeads fuel p token).exists_of_eq_ok recover
  refine ⟨passed', next', pass', follows, ⟨follows.1.shifted_eq_nil_iff.mp shifted, ?_,
    mt follows.1.stranded_eq_nil_iff.mpr stranded⟩, recover', follows'.1, follows.2.trans follows'.2⟩
  rw [follows.1.accepted.length_eq, shows.accepted.length_eq] at accepted
  exact ((Branching.pass_grows pass').1.accepted.eq_of_length_le accepted).symm

private structure Branching.Inherits (p : Parser K V) (token : K) (recoveries : Nat)
    (s after : Branching K V) : Prop where
  waiting : after.waiting = []
  keeps : s.Keeps after
  shifted : ∀ b ∈ after.shifted, s.Brings p token recoveries .shifted b
  accepted : ∀ b ∈ after.accepted, s.Brings p token recoveries .accepted b

private theorem Branching.inherits_of_pass {after : Branching K V}
    (run : s.pass p token fuel = .ok after) (waiting : s.waiting = []) (stranded : s.stranded = []) :
    s.Inherits p token 0 after where
  waiting := (pass_eq_ok run waiting).2
  keeps := (pass_grows run).1
  shifted := (sorted_of_pass run waiting stranded).gone
  accepted := (sorted_of_pass run waiting stranded).done

private theorem Branching.Inherits.recover {passed next after : Branching K V}
    (goes : Token.isEnd token = false) (waiting : s.waiting = []) (stranded : s.stranded = [])
    (pass : s.pass p token fuel = .ok passed) (shifted : passed.shifted = [])
    (accepted : passed.accepted = s.accepted)
    (recover : passed.recover Branch.merge fuel p token = .ok next)
    (inherits : next.Inherits p token 0 after) : s.Inherits p token 1 after := by
  have sorted := sorted_of_pass pass waiting stranded
  obtain ⟨accepted', dropped, shifted', drops⟩ := recover_shifts goes recover
  have inserted : ∀ {fate b}, (∃ origin ∈ next.live, origin.Descends p token 0 fate b) →
      ∃ origin ∈ s.live, origin.Descends p token 1 fate b := by
    rintro fate b ⟨gained, lives, descends⟩
    obtain ⟨candidate, member, terminal, insertable, gains⟩ :=
      exists_of_mem_recover recover (pass_eq_ok pass waiting).2 lives
    obtain ⟨⟨origin, lives', nears⟩, stuck⟩ := sorted.stuck candidate member
    exact ⟨origin, lives', nears.descends (gains.descends insertable stuck descends)⟩
  refine ⟨inherits.waiting,
    (pass_grows pass).1.trans ((recover_keeps recover).1.trans inherits.keeps),
    fun b member => .inr ?_, fun b member => ?_⟩
  · rcases inherits.shifted b member with before | descends
    · rw [show next.held .shifted = dropped by rw [held, shifted', shifted, List.nil_append]] at before
      obtain ⟨candidate, listed, serial, rfl⟩ := exists_of_forall₂_right drops before
      obtain ⟨⟨origin, lives, nears⟩, stuck⟩ := sorted.stuck candidate listed
      exact ⟨origin, lives, nears.descends (Branch.descends_repaired goes stuck serial)⟩
    · exact inserted descends
  · rcases inherits.accepted b member with before | descends
    · exact .inl ((accepted'.trans accepted : next.held .accepted = s.held .accepted) ▸ before)
    · exact .inr (inserted descends)

namespace Engine.Advances

variable {recoveries : Nat}

private theorem eq_zero (advances : Engine.Advances p token fuel recoveries e last) (shows : e.Shows s)
    (filled : s.shifted ≠ []) : recoveries = 0 := by
  cases advances with
  | settled => rfl
  | ended => rfl
  | recovered pass shifted accepted stranded recover =>
    obtain ⟨passed, next, pass', -, ⟨none, -⟩, -⟩ :=
      shows.exists_recover pass shifted accepted stranded recover
    exact absurd (List.prefix_nil.mp (none ▸ (Branching.pass_grows pass').1.shifted)) filled

private theorem le_one (advances : Engine.Advances p token fuel recoveries e last) (shows : e.Shows s)
    (goes : Token.isEnd token = false) : recoveries ≤ 1 := by
  cases advances with
  | settled => exact Nat.zero_le 1
  | ended => exact Nat.zero_le 1
  | recovered pass shifted accepted stranded recover rest =>
    obtain ⟨passed, next, -, -, ⟨-, -, some⟩, recover', follows⟩ :=
      shows.exists_recover pass shifted accepted stranded recover
    rw [rest.eq_zero follows.1 (Branching.recover_shifted_ne_nil recover' goes some)]

private theorem inherits (advances : Engine.Advances p token fuel recoveries e last)
    (shows : e.Shows s) (waiting : s.waiting = []) (stranded : s.stranded = [])
    (goes : Token.isEnd token = false) :
    ∃ after, e.Follows last after ∧ s.Inherits p token recoveries after := by
  induction advances generalizing s with
  | settled pass =>
    obtain ⟨after, pass', follows⟩ := (shows.pass p token fuel).exists_of_eq_ok pass
    exact ⟨after, follows, Branching.inherits_of_pass pass' waiting stranded⟩
  | ended pass =>
    obtain ⟨after, pass', follows⟩ := (shows.pass p token fuel).exists_of_eq_ok pass
    exact ⟨after, ⟨{ follows.1 with }, follows.2.keep rfl rfl (Nat.le_refl _)⟩,
      Branching.inherits_of_pass pass' waiting stranded⟩
  | recovered pass shifted accepted some recover rest ih =>
    obtain ⟨passed, next, pass', -, ⟨none, same, some'⟩, recover', follows⟩ :=
      shows.exists_recover pass shifted accepted some recover
    obtain ⟨-, waiting', stranded'⟩ := Branching.recover_keeps recover'
    obtain ⟨after, follows', inherits⟩ := ih follows.1 waiting' stranded'
    obtain rfl := rest.eq_zero follows.1 (Branching.recover_shifted_ne_nil recover' goes some')
    exact ⟨after, ⟨follows'.1, follows.2.trans follows'.2⟩,
      inherits.recover goes waiting stranded pass' none same recover'⟩

private theorem brings (advances : Engine.Advances p token fuel recoveries e last) (shows : e.Shows s)
    (goes : Token.isEnd token = false) (alive : s.live ≠ [] ∨ s.shifted ≠ []) :
    last.shifted ≠ [] ∨ e.accepted.length < last.accepted.length := by
  induction advances generalizing s with
  | settled _ brings => exact brings
  | ended pass shifted accepted stranded =>
    obtain ⟨passed, pass', follows⟩ := (shows.pass p token fuel).exists_of_eq_ok pass
    have none := follows.1.shifted_eq_nil_iff.mp shifted
    rcases alive with lives | filled
    · obtain ⟨b, member⟩ := List.exists_mem_of_ne_nil _ lives
      rcases Branching.pass_outcome pass' member (fun _ _ (_ : True) _ _ _ => trivial) trivial with
        some | more | ⟨b', listed, -⟩
      · exact absurd none some
      · rw [← shows.accepted.length_eq, ← follows.1.accepted.length_eq] at more
        exact absurd more accepted.not_gt
      · rw [follows.1.stranded_eq_nil_iff.mp stranded] at listed
        cases listed
    · exact absurd (List.prefix_nil.mp (none ▸ (Branching.pass_grows pass').1.shifted)) filled
  | recovered pass shifted accepted some recover _ ih =>
    obtain ⟨passed, next, -, -, ⟨-, -, some'⟩, recover', follows⟩ :=
      shows.exists_recover pass shifted accepted some recover
    refine (ih follows.1 (.inr (Branching.recover_shifted_ne_nil recover' goes some'))).imp_right ?_
    exact follows.2.accepted.length_le.trans_lt

private theorem keeps (advances : Engine.Advances p token fuel 1 e last) (shows : e.Shows s)
    (goes : Token.isEnd token = false) {passed : Engine K V} (pass : e.pass p token fuel = .ok passed)
    {candidate : Head} (member : candidate ∈ passed.stranded) :
    ∃ head ∈ last.shifted, last.arena.path head.top = passed.arena.path candidate.top := by
  cases advances with
  | recovered pass' shifted accepted stranded recover rest =>
    obtain rfl := Except.ok.inj (pass.symm.trans pass')
    obtain ⟨passed', next, -, first, -, recover', follows⟩ :=
      shows.exists_recover pass shifted accepted stranded recover
    obtain ⟨-, waiting, stranded'⟩ := Branching.recover_keeps recover'
    obtain ⟨after, final, inherits⟩ := rest.inherits follows.1 waiting stranded' goes
    obtain ⟨-, dropped, shifted', drops⟩ := Branching.recover_shifts goes recover'
    obtain ⟨b, listed, pair⟩ :=
      exists_of_forall₂_left first.1.stranded (List.mem_reverse.mpr member)
    obtain ⟨_, listed', serial, rfl⟩ := exists_of_forall₂_left drops listed
    have kept := inherits.keeps.shifted.subset (shifted' ▸ List.mem_append_right _ listed')
    obtain ⟨head, there, pair'⟩ := exists_of_forall₂_right final.1.shifted kept
    refine ⟨head, List.mem_reverse.mp there, ?_⟩
    rw [pair'.holds.path, pair.holds.path]
    rfl

end Engine.Advances

omit [Token K] in
private theorem Engine.Shows.exists_merged (shows : last.Shows s) (waiting : s.waiting = [])
    {head : Head} (member : head ∈ last.shifted) : ∃ kept ∈ (last.settle Merged.ofHeads).heads,
      (last.settle Merged.ofHeads).arena.path kept.top = last.arena.path head.top := by
  obtain ⟨b, listed, pair⟩ := exists_of_forall₂_left shows.shifted (List.mem_reverse.mpr member)
  obtain ⟨b', survives, states, -⟩ := Branch.exists_mem_merge listed
  obtain ⟨kept, lives, pair'⟩ :=
    exists_of_forall₂_right (shows.settle faithful_ofHeads waiting).live survives
  refine ⟨kept, lives, ?_⟩
  rw [pair'.holds.path, pair.holds.path, Frame.path_eq_reverse, Frame.path_eq_reverse, states]

/-- A head of `a` comes from a live head of `e` past a token, and each repair on the way is recorded in
it. -/
def Engine.Descends (e : Engine K V) (p : Parser K V) (token : K) (repairs : Nat) (fate : Fate)
    (a : Arena K V) (head : Head) : Prop :=
  ∃ origin ∈ e.heads, ∃ frames last, e.arena.Holds origin.top frames ∧ a.Holds head.top last ∧
    p.Survives token repairs fate frames last ∧ head.level = origin.level + repairs ∧
      ∃ records, head.errors = origin.errors ++ records ∧ records.length = repairs

private theorem Engine.Shows.descends (shows : e.Shows s) {repairs : Nat} {fate : Fate}
    {a : Arena K V} {accepted : Bool} {head : Head} {b : Branch K V} (pair : head.Shown a accepted b)
    (descends : ∃ origin ∈ s.live, origin.Descends p token repairs fate b) :
    e.Descends p token repairs fate a head := by
  obtain ⟨branch, listed, survives, level, errors⟩ := descends
  obtain ⟨origin, lives, pair'⟩ := exists_of_forall₂_right shows.live listed
  refine ⟨origin, lives, branch.frames, b.frames, pair'.holds, pair.holds, survives, ?_, ?_⟩
  · rw [pair.level, pair'.level, level]
  · rw [pair.errors, pair'.errors]
    exact errors

variable {past : List K} {after : Engine K V}

/-- If a call with a live head returns before the end of the stream, it has recovered once at most, and
a head lives or was accepted on the token. All these heads come from heads that were live, with one
repair if there was a recovery and with none otherwise, and the path of every candidate of the recovery
is still the path of a live head. -/
theorem Engine.Reached.survives (reached : Engine.Reached p past e) (alive : e.heads ≠ [])
    (goes : Token.isEnd token = false) (run : e.input fuel p token = .ok after) :
    ∃ recoveries last fresh, Engine.Advances p token fuel recoveries e.begun last ∧
      after = last.settle Merged.ofHeads ∧ last.accepted = e.accepted ++ fresh ∧
      recoveries ≤ 1 ∧ (after.heads ≠ [] ∨ fresh ≠ []) ∧
      (∀ head ∈ after.heads, e.Descends p token recoveries .shifted after.arena head) ∧
      (∀ head ∈ fresh, e.Descends p token recoveries .accepted last.arena head) ∧
      ∀ passed, e.begun.pass p token fuel = .ok passed → recoveries = 1 →
        ∀ candidate ∈ passed.stranded, ∃ head ∈ after.heads,
          after.arena.path head.top = passed.arena.path candidate.top := by
  obtain ⟨s, found, shows⟩ := reached.shows
  obtain ⟨last, advanced, rfl⟩ := Engine.exists_of_inputWith_eq_ok run
  obtain ⟨recoveries, advances⟩ := Engine.exists_advances advanced
  obtain ⟨final, follows, inherits⟩ :=
    advances.inherits shows.begun found.idle.waiting found.idle.stranded goes
  obtain ⟨fresh, split, young⟩ := follows.2.adds
  have settled := follows.1.settle faithful_ofHeads inherits.waiting
  refine ⟨recoveries, last, fresh, advances, rfl, split, advances.le_one shows.begun goes, ?_,
    fun head lives => ?_, fun head listed => ?_, fun passed pass once candidate member => ?_⟩
  · have lives : s.live ≠ [] := fun none =>
      alive (List.forall₂_nil_right_iff.mp (none ▸ shows.live))
    rcases advances.brings shows.begun goes (.inl lives) with shifted | accepted
    · obtain ⟨head, member⟩ := List.exists_mem_of_ne_nil _ shifted
      obtain ⟨kept, lives, -⟩ := follows.1.exists_merged inherits.waiting member
      exact .inl (List.ne_nil_of_mem lives)
    · right
      rintro rfl
      rw [split, List.append_nil] at accepted
      exact lt_irrefl _ accepted
  · obtain ⟨b, member, pair⟩ := exists_of_forall₂_left settled.live lives
    rcases inherits.shifted b (selects_merge _ b member) with before | descends
    · rw [show s.shifted = [] from found.idle.shifted] at before
      cases before
    · exact shows.descends pair descends
  · obtain ⟨b, member, pair⟩ := exists_of_forall₂_left follows.1.accepted
      (split ▸ List.mem_append_right _ listed)
    rcases inherits.accepted b member with before | descends
    · -- The serial number is too young for a head that was accepted before.
      obtain ⟨old, listed', pair'⟩ := exists_of_forall₂_right shows.accepted before
      have older := reached.settled.old old listed'
      rw [pair'.serial, ← pair.serial] at older
      exact absurd older (young head listed).1.not_ge
    · exact shows.descends pair descends
  · subst once
    obtain ⟨head, shifted, path⟩ := advances.keeps shows.begun goes pass member
    obtain ⟨kept, lives, path'⟩ := follows.1.exists_merged inherits.waiting shifted
    exact ⟨kept, lives, path'.trans path⟩

theorem Engine.Reached.survives_pairs : ∃ after last,
    Engine.start.input 9 Word.pairs Word.b = .ok after ∧
      Engine.Advances Word.pairs Word.b 9 1 Engine.start.begun last ∧
        after = last.settle Merged.ofHeads ∧ ∃ head ∈ after.heads, after.arena.path head.top = [0] := by
  obtain ⟨after, run, levels⟩ : ∃ after, Engine.start.input 9 Word.pairs Word.b = .ok after ∧
      after.heads.map Head.level = [1, 1] := ⟨_, rfl, rfl⟩
  obtain ⟨passed, pass, paths⟩ : ∃ passed,
      Engine.start.begun.pass Word.pairs Word.b 9 = .ok passed ∧
        passed.stranded.map (fun head => passed.arena.path head.top) = [[0]] := ⟨_, rfl, rfl⟩
  obtain ⟨recoveries, last, fresh, advances, settled, -, -, -, descends, -, keeps⟩ :=
    Engine.Reached.survives (p := Word.pairs) .start (by simp [Engine.start]) rfl run
  have once : recoveries = 1 := by
    obtain ⟨head, rest, lives, level, -⟩ := List.map_eq_cons_iff.mp levels
    obtain ⟨origin, listed, -, -, -, -, -, raised, -⟩ :=
      descends head (lives ▸ List.mem_cons_self ..)
    obtain rfl := List.mem_singleton.mp listed
    rw [level] at raised
    exact (Nat.zero_add recoveries ▸ raised).symm
  subst once
  obtain ⟨candidate, stranded, path⟩ := List.map_eq_singleton_iff.mp paths
  obtain ⟨head, lives, same⟩ := keeps passed pass rfl candidate (stranded ▸ List.mem_singleton_self _)
  exact ⟨after, last, run, advances, settled, head, lives, same.trans path⟩

end Rounds

end GeneralizedLR
