import GeneralizedLR.Proofs.Engine.Shows

/-!
Every step that one head makes, in a pass or in a repair, is the step of its branch, and so are the
passes and the repairs that are made of such steps.
-/

set_option autoImplicit false
set_option relaxedAutoImplicit false

namespace GeneralizedLR

section Step

variable {K V : Type} {e base : Engine K V} {s : Branching K V} {h : Head} {b : Branch K V}

abbrev Engine.Follows (base e : Engine K V) (s : Branching K V) : Prop :=
  e.Shows s ∧ base.Extends e

private theorem Engine.Shows.extends_push (shows : e.Shows s) {id : NodeId}
    {frames : List (Frame K V)} (held : e.arena.Holds id frames) (state : Nat)
    (content : Content K V) {later : Engine K V}
    (arena : later.arena = (e.arena.push state (some content) (some id)).1)
    (serial : later.serial = e.serial + 1) {fresh : List Head}
    (accepted : later.accepted = e.accepted ++ fresh)
    (young : ∀ head ∈ fresh, head.serial = e.serial + 1) : e.Extends later where
  sound := arena ▸ held.sound_push shows.sound state content
  grows := arena ▸ shows.sound.grows_push
  serial := serial ▸ Nat.le_succ _
  adds := ⟨fresh, accepted, fun head member => by have := young head member; omega⟩

private theorem Engine.Shows.shiftTo (shows : e.Shows s) (shown : h.Shown e.arena false b)
    (token : K) (state target : Nat) :
    (Engine.shiftTo token h state e target).Shows
        (s.take b [(.shifted, ⟨target, .lexeme token⟩ :: b.frames)]) ∧
      e.Extends (Engine.shiftTo token h state e target) := by
  have pushed := shows.push shown.holds target (.lexeme token)
  have new : ({ h with serial := e.serial + 1, top := (e.arena.push target (some (.lexeme token))
      (some h.top)).2 } : Head).Shown (e.arena.push target (some (.lexeme token)) (some h.top)).1
      false { b with frames := ⟨target, .lexeme token⟩ :: b.frames, serial := s.serial + 1 } :=
    ⟨shown.holds.push shows.sound.toTidy target _, shown.errors, shown.level,
      congrArg (· + 1) shows.serial, shown.accepted⟩
  refine ⟨?_, shows.extends_push shown.holds target _ rfl rfl
    (List.append_nil _).symm (fun _ => (nomatch ·))⟩
  rw [Branching.take_shifted]
  exact {
    sound := pushed.sound
    live := pushed.live
    waiting := pushed.waiting
    shifted := forall₂_concat pushed.shifted new
    stranded := pushed.stranded
    accepted := pushed.accepted
    serial := congrArg (· + 1) shows.serial
    stats := by simp [Engine.shiftTo, ← shows.stats] }

theorem Engine.Shows.shiftAll (shows : e.Shows s) (shown : h.Shown e.arena false b)
    (token : K) (state : Nat) (targets : List Nat) :
    e.Follows (targets.foldl (Engine.shiftTo token h state) e)
      (s.take b (targets.map fun target =>
        (.shifted, ⟨target, .lexeme token⟩ :: b.frames))) := by
  induction targets generalizing e s with
  | nil => exact ⟨by simpa [Branching.take_nil] using shows, shows.extends⟩
  | cons target targets ih =>
    obtain ⟨shows', extends'⟩ := shows.shiftTo shown token state target
    obtain ⟨shows'', extends''⟩ := ih shows' (shown.mono extends'.grows)
    refine ⟨?_, extends'.trans extends''⟩
    exact Branching.take_append s b [_] _ ▸ shows''

private theorem Head.Shown.replace (shown : h.Shown e.arena false b) (shows : e.Shows s)
    {r : Reduction V} {below : List (Frame K V)} (held : e.arena.Holds r.base below) :
    ((h.fork (e.serial + 1)).replace e.arena r).1.Shown ((h.fork (e.serial + 1)).replace e.arena r).2
      r.ends { b with frames := ⟨r.state, .reduced r.value⟩ :: below, serial := s.serial + 1 } where
  holds := held.push shows.sound.toTidy r.state _
  errors := shown.errors
  level := shown.level
  serial := congrArg (· + 1) shows.serial
  accepted := by simp [Head.replace, Head.fork, shown.accepted]

theorem Engine.Shows.reduceBy (shows : e.Shows s) (shown : h.Shown e.arena false b)
    (p : Parser K V) (token : K) (state production : Nat) :
    (∃ cause stopped, p.reduct token b.frames production = .error cause ∧
      Engine.reduceBy p token h state e production = .error (.fault cause stopped) ∧
        e.Extends stopped) ∨
    ∃ move e', p.reduct token b.frames production = .ok move ∧
      Engine.reduceBy p token h state e production = .ok e' ∧
        e.Follows e' (s.take b [move]) := by
  unfold Engine.reduceBy
  rcases shown.reduction p token production with ⟨cause, failed, halted⟩ | ⟨r, below, done, held, made⟩
  · exact .inl ⟨cause, { e with serial := e.serial + 1 }, failed, by rw [halted],
      shows.extends.keep rfl rfl (Nat.le_succ _)⟩
  · refine .inr ?_
    have pushed := shows.push held r.state (.reduced r.value)
    have new := shown.replace shows held
    have flag : ((h.fork (e.serial + 1)).replace e.arena r).1.accepted = r.ends := new.accepted
    rw [done, made]
    simp only [flag]
    cases ends : r.ends with
    | true =>
      rw [ends] at new
      refine ⟨_, _, rfl, rfl, ?_, shows.extends_push held _ _ rfl rfl rfl
        (List.forall_mem_singleton.mpr rfl)⟩
      rw [if_pos rfl, Branching.take_accepted]
      exact {
        sound := pushed.sound
        live := pushed.live
        waiting := pushed.waiting
        shifted := pushed.shifted
        stranded := pushed.stranded
        accepted := List.rel_append pushed.accepted (.cons new .nil)
        serial := congrArg (· + 1) shows.serial
        stats := by simp [← shows.stats] }
    | false =>
      rw [ends] at new
      refine ⟨_, _, rfl, rfl, ?_, shows.extends_push held _ _ rfl rfl
        (List.append_nil _).symm (fun _ => (nomatch ·))⟩
      rw [if_neg Bool.false_ne_true, Branching.take_waiting]
      exact {
        sound := pushed.sound
        live := pushed.live
        waiting := forall₂_concat pushed.waiting new
        shifted := pushed.shifted
        stranded := pushed.stranded
        accepted := pushed.accepted
        serial := congrArg (· + 1) shows.serial
        stats := by simp [← shows.stats] }

private theorem Engine.Shows.conclude (shows : e.Shows s) (shown : h.Shown e.arena false b)
    (actions : Nat) : (e.conclude h actions).Shows (s.conclude b actions) := by
  unfold Engine.conclude Branching.conclude
  split
  · exact { shows with
      stranded := forall₂_concat shows.stranded shown
      stats := by simp [← shows.stats] }
  · exact { shows with stats := by simp [← shows.stats] }

private theorem Engine.Shows.extends_conclude (shows : e.Shows s) (h : Head) (actions : Nat) :
    e.Extends (e.conclude h actions) := by
  unfold Engine.conclude
  split
  · exact shows.extends.keep rfl rfl (Nat.le_refl _)
  · exact shows.extends.keep rfl rfl (Nat.le_refl _)

variable [Token K]

theorem Engine.Shows.stepHead (shows : e.Shows s) (shown : h.Shown e.arena false b)
    (p : Parser K V) (token : K) :
    Agrees e.Follows e.Extends (Engine.stepHead p token e h) (s.step p token b) := by
  unfold Engine.stepHead Branching.step Parser.movesOn Parser.moves
  rw [shown.holds.state]
  obtain ⟨shows', extends'⟩ := shows.shiftAll shown token (Frame.top b.frames)
    (p.targets token b.frames)
  -- The engine reduces by one production after the other and may fault halfway, while the branch
  -- computes all reductions before it takes any.
  have reductions := Agrees.foldlM_mapM (R := e.Follows) (S := e.Extends)
    (f := Engine.reduceBy p token h (Frame.top b.frames)) (g := p.reduct token b.frames)
    (fun moves s => Branching.take s b moves) (fun s => s.take_nil b)
    (fun m rest s => s.take_append b [m] rest)
    (by
      rintro e' s' production ⟨shows', extends'⟩
      rcases shows'.reduceBy (shown.mono extends'.grows) p token (Frame.top b.frames) production with
        ⟨cause, stopped, failed, halted, stop⟩ | ⟨move, e'', made, done, shows'', extends''⟩
      · exact .inl ⟨cause, stopped, failed, halted, extends'.trans stop⟩
      · exact .inr ⟨move, e'', made, done, shows'', extends'.trans extends''⟩)
    (p.rules token b.frames) ⟨shows', extends'⟩
  have concluded := reductions.bind (N := e.Follows)
    (f := fun e => .ok (e.conclude h ((p.targets token b.frames).length +
      (p.rules token b.frames).length)))
    (g := fun s => .ok (s.conclude b ((p.targets token b.frames).length +
      (p.rules token b.frames).length)))
    (fun e' s' ⟨shows', extends'⟩ => .ok ⟨shows'.conclude (shown.mono extends'.grows) _,
      extends'.trans (shows'.extends_conclude h _)⟩)
  cases made : (p.rules token b.frames).mapM (p.reduct token b.frames) with
  | error cause =>
    rw [made] at concluded
    exact concluded
  | ok reducts =>
    have count := (forall₂_of_mapM_eq_ok made).length_eq
    rw [made] at concluded
    simp only [List.length_append, List.length_map, Branching.take_append, ← count]
    exact concluded

theorem Engine.agrees_stepHead (follows : base.Follows e s) (shown : h.Shown base.arena false b)
    (p : Parser K V) (token : K) :
    Agrees base.Follows base.Extends (Engine.stepHead p token e h) (s.step p token b) :=
  (follows.1.stepHead (shown.mono follows.2.grows) p token).imp
    (fun _ _ next => ⟨next.1, follows.2.trans next.2⟩) fun _ => follows.2.trans

theorem isEmpty_eq_of_forall₂ {α β : Type} {R : α → β → Prop} {l : List α} {l' : List β}
    (related : List.Forall₂ R l l') : l.isEmpty = l'.isEmpty := by
  cases related <;> rfl

omit [Token K] in
theorem Engine.Shows.cleared (shows : e.Shows s) :
    e.Follows { e with heads := [] } { s with live := [] } :=
  ⟨{ shows with live := .nil }, shows.extends.keep rfl rfl (Nat.le_refl _)⟩

omit [Token K] in
theorem Engine.Shows.turned (shows : e.Shows s) :
    { e with heads := e.waiting.reverse, waiting := [] }.Shows
      { s with live := s.waiting, waiting := [] } :=
  { shows with live := shows.waiting, waiting := .nil }

theorem Engine.Shows.pass (shows : e.Shows s) (p : Parser K V) (token : K) (fuel : Nat) :
    Agrees e.Follows e.Extends (Engine.pass p token fuel e) (s.pass p token fuel) := by
  induction fuel generalizing e s with
  | zero =>
    unfold Engine.pass Branching.pass
    rw [isEmpty_eq_of_forall₂ shows.live]
    split
    · exact .ok ⟨shows, shows.extends⟩
    · exact .exhausted
  | succ fuel ih =>
    unfold Engine.pass Branching.pass
    rw [isEmpty_eq_of_forall₂ shows.live]
    split
    · exact .ok ⟨shows, shows.extends⟩
    · refine (Agrees.foldlM shows.live (fun e' s' h b follows shown =>
        Engine.agrees_stepHead follows shown p token) shows.cleared).bind fun e' s' follows => ?_
      have kept : e.Extends { e' with heads := e'.waiting.reverse, waiting := [] } :=
        follows.2.keep rfl rfl (Nat.le_refl _)
      exact (ih follows.1.turned).imp (fun _ _ next => ⟨next.1, kept.trans next.2⟩) fun _ => kept.trans

end Step

section Repair

variable {K V : Type} {e base : Engine K V} {s : Branching K V} {h : Head} {b : Branch K V}

/-- The engine with a queue of heads shows a branching with a queue of branches. -/
abbrev Engine.FollowsWith (base : Engine K V) (x : Engine K V × List Head)
    (y : Branching K V × List (Branch K V)) : Prop :=
  base.Follows x.1 y.1 ∧ List.Forall₂ (Head.Shown x.1.arena false) x.2 y.2

variable [Token K]

theorem Engine.Shows.deleteBefore (shows : e.Shows s) (shown : h.Shown e.arena false b)
    (token : K) : e.Follows (e.deleteBefore token h) (s.delete token b) := by
  have new : (((h.fork (e.serial + 1)).raise).addError (Branching.unexpected token)).Shown e.arena
      false { b.repaired (Branching.unexpected token) with serial := s.serial + 1 } :=
    ⟨shown.holds, by simp [Head.addError, Head.raise, Head.fork, Branch.repaired, shown.errors],
      congrArg (· + 1) shown.level, congrArg (· + 1) shows.serial, shown.accepted⟩
  refine ⟨?_, shows.extends.keep rfl rfl (Nat.le_succ _)⟩
  exact { shows with
    shifted := forall₂_concat shows.shifted new
    serial := congrArg (· + 1) shows.serial
    stats := by simp [Engine.deleteBefore, Branching.delete, ← shows.stats] }

private theorem Engine.Shows.insertTo (shows : e.Shows s) (shown : h.Shown e.arena false b)
    (p : Parser K V) (token : K) (terminal state target : Nat) {heads : List Head}
    {queue : List (Branch K V)} (queued : List.Forall₂ (Head.Shown e.arena false) heads queue) :
    e.FollowsWith (Engine.insertTo p token terminal h state e target, heads)
      (Branching.prepare (Branching.missing p token terminal) b [(.shifted,
        ⟨target, .lexeme (Token.correction token terminal (p.table.describe terminal))⟩ :: b.frames)]
        (s, queue)) := by
  let lexeme : Content K V := .lexeme (Token.correction token terminal (p.table.describe terminal))
  have pushed := shows.push shown.holds target lexeme
  have new : (((h.fork (e.serial + 1)).shift e.arena
      (Token.correction token terminal (p.table.describe terminal)) target).1.raise.addError
        (Branching.missing p token terminal)).Shown
      (e.arena.push target (some lexeme) (some h.top)).1 false
      ({ b with frames := ⟨target, lexeme⟩ :: b.frames, serial := s.serial + 1 }.repaired
        (Branching.missing p token terminal)) :=
    ⟨shown.holds.push shows.sound.toTidy target lexeme,
      by simp [Head.addError, Head.raise, Head.fork, Head.shift, Branch.repaired, shown.errors],
      congrArg (· + 1) shown.level, congrArg (· + 1) shows.serial, shown.accepted⟩
  rw [Branching.prepare_shifted]
  refine ⟨⟨?_, shows.extends_push shown.holds target lexeme rfl rfl
      (List.append_nil _).symm (fun _ => (nomatch ·))⟩,
    forall₂_shown_mono shows.sound.grows_push queued⟩
  exact {
    sound := pushed.sound
    live := pushed.live
    waiting := forall₂_concat pushed.waiting new
    shifted := pushed.shifted
    stranded := pushed.stranded
    accepted := pushed.accepted
    serial := congrArg (· + 1) shows.serial
    stats := by simp [Engine.insertTo, ← shows.stats] }

theorem Engine.Shows.insertEach (shows : e.Shows s) (shown : h.Shown e.arena false b)
    (p : Parser K V) (token : K) (terminal state : Nat) (targets : List Nat) {heads : List Head}
    {queue : List (Branch K V)} (queued : List.Forall₂ (Head.Shown e.arena false) heads queue) :
    e.FollowsWith (targets.foldl (Engine.insertTo p token terminal h state) e, heads)
      (Branching.prepare (Branching.missing p token terminal) b (targets.map fun target => (.shifted,
        ⟨target, .lexeme (Token.correction token terminal (p.table.describe terminal))⟩ :: b.frames))
        (s, queue)) := by
  induction targets generalizing e s queue with
  | nil => exact ⟨⟨by simpa [Branching.prepare_nil] using shows, shows.extends⟩,
      by simpa [Branching.prepare_nil] using queued⟩
  | cons target targets ih =>
    obtain ⟨⟨shows', extends'⟩, queued'⟩ := shows.insertTo shown p token terminal state target queued
    obtain ⟨⟨shows'', extends''⟩, queued''⟩ := ih shows' (shown.mono extends'.grows) queued'
    rw [List.map_cons, List.foldl_cons]
    exact ⟨⟨Branching.prepare_append _ b [_] _ (s, queue) ▸ shows'', extends'.trans extends''⟩,
      Branching.prepare_append _ b [_] _ (s, queue) ▸ queued''⟩

theorem Engine.Shows.prepareBy (shows : e.Shows s) (shown : h.Shown e.arena false b)
    (p : Parser K V) (token : K) (terminal production : Nat) {heads : List Head}
    {queue : List (Branch K V)} (queued : List.Forall₂ (Head.Shown e.arena false) heads queue) :
    (∃ cause stopped, p.reduct token b.frames production = .error cause ∧
      Engine.prepareBy p token h (e, heads) production = .error (.fault cause stopped) ∧
        e.Extends stopped) ∨
    ∃ move x, p.reduct token b.frames production = .ok move ∧
      Engine.prepareBy p token h (e, heads) production = .ok x ∧
        e.FollowsWith x
          (Branching.prepare (Branching.missing p token terminal) b [move] (s, queue)) := by
  unfold Engine.prepareBy
  rcases shown.reduction p token production with ⟨cause, failed, halted⟩ | ⟨r, below, done, held, made⟩
  · exact .inl ⟨cause, { e with serial := e.serial + 1 }, failed, by simp only [halted],
      shows.extends.keep rfl rfl (Nat.le_succ _)⟩
  · refine .inr ?_
    have pushed := shows.push held r.state (.reduced r.value)
    have new := shown.replace shows held
    have flag : ((h.fork (e.serial + 1)).replace e.arena r).1.accepted = r.ends := new.accepted
    have extended : e.Extends
        { e with
          arena := (e.arena.push r.state (some (.reduced r.value)) (some r.base)).1
          serial := e.serial + 1 } :=
      shows.extends_push held r.state (.reduced r.value) rfl rfl
        (List.append_nil _).symm (fun _ => (nomatch ·))
    have kept := forall₂_shown_mono extended.grows queued
    have followed : e.Follows
        { e with
          arena := (e.arena.push r.state (some (.reduced r.value)) (some r.base)).1
          serial := e.serial + 1
          stats := { e.stats with closures := e.stats.closures + 1 } }
        { s with
          serial := s.serial + 1
          stats := { s.stats with closures := s.stats.closures + 1 } } :=
      ⟨{ pushed with
        serial := congrArg (· + 1) shows.serial
        stats := by simp [← shows.stats] }, extended.keep rfl rfl (Nat.le_refl _)⟩
    simp only [done, flag]
    cases ends : r.ends with
    | true =>
      rw [ends, if_pos rfl] at made
      refine ⟨_, _, made, rfl, ?_⟩
      rw [Branching.prepare_accepted]
      exact ⟨followed, kept⟩
    | false =>
      rw [ends] at new
      rw [ends, if_neg Bool.false_ne_true] at made
      refine ⟨_, _, made, rfl, ?_⟩
      rw [Branching.prepare_waiting]
      exact ⟨followed, List.rel_append kept (.cons new .nil)⟩

theorem Engine.Shows.insertAt (shows : e.Shows s) (shown : h.Shown e.arena false b)
    (p : Parser K V) (token : K) (terminal : Nat) {heads : List Head} {queue : List (Branch K V)}
    (queued : List.Forall₂ (Head.Shown e.arena false) heads queue) :
    Agrees e.FollowsWith e.Extends (Engine.insertAt p token terminal (e, heads) h)
      (Branching.insertAt p token terminal (s, queue) b) := by
  unfold Engine.insertAt Branching.insertAt Parser.movesBefore Parser.moves
  simp only [shown.holds.state]
  have shifts := shows.insertEach shown p token terminal (Frame.top b.frames)
    (p.table.shifts (Frame.top b.frames) terminal) queued
  have reductions := Agrees.foldlM_mapM
    (R := e.FollowsWith) (S := e.Extends) (f := Engine.prepareBy p token h)
    (g := p.reduct token b.frames)
    (fun moves y => Branching.prepare (Branching.missing p token terminal) b moves y)
    (Branching.prepare_nil _ b)
    (fun m rest y => Branching.prepare_append _ b [m] rest y)
    (by
      rintro ⟨e', heads'⟩ ⟨s', queue'⟩ production ⟨⟨shows', extends'⟩, queued'⟩
      rcases shows'.prepareBy (shown.mono extends'.grows) p token terminal production queued' with
        ⟨cause, stopped, failed, halted, stop⟩ | ⟨move, x, made, done, ⟨shows'', extends''⟩, queued''⟩
      · exact .inl ⟨cause, stopped, failed, halted, extends'.trans stop⟩
      · exact .inr ⟨move, x, made, done, ⟨shows'', extends'.trans extends''⟩, queued''⟩)
    (p.table.reduces (Frame.top b.frames) terminal) shifts
  cases made : (p.table.reduces (Frame.top b.frames) terminal).mapM (p.reduct token b.frames) with
  | error cause =>
    rw [made] at reductions
    exact reductions
  | ok reducts =>
    rw [made] at reductions
    simp only [Branching.prepare_append]
    exact reductions

theorem Engine.agrees_insertAt {y : Engine K V × List Head} {z : Branching K V × List (Branch K V)}
    (follows : base.FollowsWith y z) (shown : h.Shown base.arena false b) (p : Parser K V) (token : K)
    (terminal : Nat) :
    Agrees base.FollowsWith base.Extends (Engine.insertAt p token terminal y h)
      (Branching.insertAt p token terminal z b) := by
  obtain ⟨⟨shows, extended⟩, queued⟩ := follows
  exact (shows.insertAt (shown.mono extended.grows) p token terminal queued).imp
    (fun _ _ next => ⟨⟨next.1.1, extended.trans next.1.2⟩, next.2⟩) fun _ => extended.trans

/-- Inserting a terminal at a queue of heads is inserting it at their branches. -/
theorem Engine.Shows.insertAll (p : Parser K V) (token : K) (terminal fuel : Nat)
    {x : Engine K V × List Head} {y : Branching K V × List (Branch K V)}
    (follows : base.FollowsWith x y) :
    Agrees base.Follows base.Extends (Engine.insertAll p token terminal fuel x)
      (Branching.insertAll p token terminal fuel y) := by
  induction fuel generalizing x y with
  | zero =>
    unfold Engine.insertAll Branching.insertAll
    simp only [isEmpty_eq_of_forall₂ follows.2]
    split
    · exact .ok follows.1
    · exact .exhausted
  | succ fuel ih =>
    unfold Engine.insertAll Branching.insertAll
    simp only [isEmpty_eq_of_forall₂ follows.2]
    split
    · exact .ok follows.1
    · obtain ⟨⟨shows, extended⟩, queued⟩ := follows
      have round := Agrees.foldlM (R := x.1.FollowsWith) (S := x.1.Extends) queued
        (f := Engine.insertAt p token terminal) (g := Branching.insertAt p token terminal)
        (fun _ _ _ _ follows shown => Engine.agrees_insertAt follows shown p token terminal)
        (x := (x.1, [])) (y := (y.1, [])) ⟨⟨shows, shows.extends⟩, .nil⟩
      exact (round.imp (fun _ _ next => ⟨⟨next.1.1, extended.trans next.1.2⟩, next.2⟩)
        fun _ => extended.trans).bind fun _ _ => ih

theorem Engine.Shows.dropped (shows : e.Shows s) (shown : h.Shown e.arena false b) (token : K) :
    e.Follows (if Token.isEnd token then e else e.deleteBefore token h)
      (if Token.isEnd token then s else s.delete token b) := by
  split
  · exact ⟨shows, shows.extends⟩
  · exact shows.deleteBefore shown token

theorem Engine.agrees_insertEach (follows : base.Follows e s) (shown : h.Shown base.arena false b)
    (p : Parser K V) (token : K) (fuel : Nat) {terminal terminal' : Nat}
    (same : terminal = terminal') :
    Agrees base.Follows base.Extends (Engine.insertAll p token terminal fuel (e, [h]))
      (Branching.insertAll p token terminal' fuel (s, [b])) :=
  same ▸ Engine.Shows.insertAll p token terminal fuel
    ⟨follows, .cons (shown.mono follows.2.grows) .nil⟩

theorem Engine.Shows.repair (shows : e.Shows s) (shown : h.Shown e.arena false b)
    (fuel : Nat) (p : Parser K V) (token : K) :
    Agrees e.Follows e.Extends (Engine.repair fuel p token e h) (s.repair fuel p token b) :=
  Agrees.foldlM (I := Eq) (List.forall₂_refl _)
    (fun _ _ _ _ follows same => Engine.agrees_insertEach follows shown p token fuel same)
    (shows.dropped shown token)

theorem Engine.agrees_repair (follows : base.Follows e s) (shown : h.Shown base.arena false b)
    (fuel : Nat) (p : Parser K V) (token : K) :
    Agrees base.Follows base.Extends (Engine.repair fuel p token e h) (s.repair fuel p token b) :=
  (follows.1.repair (shown.mono follows.2.grows) fuel p token).imp
    (fun _ _ next => ⟨next.1, follows.2.trans next.2⟩) fun _ => follows.2.trans

end Repair

end GeneralizedLR
