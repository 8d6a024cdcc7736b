import GeneralizedLR.Proofs.Engine.Halting
import GeneralizedLR.Proofs.Engine.Abandoned
import GeneralizedLR.Word
import Mathlib.Order.Bounds.Defs

/-!
What a recovery makes of its candidates. It drops the token before each of them, unless the stream ends
there, and it inserts every terminal wherever a stack shifts it after the reductions that it calls for.
The heads with an insertion are merged, so that each path is left with the fewest repairs that lead to
it. All this is done for any list of candidates, and the other heads do not matter.
-/

set_option autoImplicit false
set_option relaxedAutoImplicit false

namespace GeneralizedLR

open Relation (ReflTransGen)

section Apart

variable {K V : Type}

/-- The heads of `rest` beside whatever else a repair of `e` works on. -/
def Engine.amid (e rest : Engine K V) : Engine K V :=
  { rest with
    arena := e.arena
    waiting := e.waiting
    serial := e.serial
    stats := e.stats
    journal := e.journal }

variable [Token K] {p : Parser K V} {token : K} {e rest : Engine K V}

omit [Token K] in
private theorem Engine.prepareBy_amid {head : Head} {queue : List Head} {production : Nat}
    {y : Engine K V × List Head}
    (run : Engine.prepareBy p token head (e.amid rest, queue) production = .ok y) :
    ∃ y', Engine.prepareBy p token head (e, queue) production = .ok y' ∧
      y = (y'.1.amid rest, y'.2) := by
  simp only [Engine.prepareBy, show (e.amid rest).arena = e.arena from rfl] at run ⊢
  cases made : head.reduction e.arena p.table p.reducer production token with
  | error cause =>
    rw [made] at run
    cases run
  | ok r =>
    rw [made] at run
    cases run
    exact ⟨_, rfl, rfl⟩

private theorem Engine.insertAt_amid {terminal : Nat} {head : Head} {queue : List Head}
    {y : Engine K V × List Head}
    (run : Engine.insertAt p token terminal (e.amid rest, queue) head = .ok y) :
    ∃ y', Engine.insertAt p token terminal (e, queue) head = .ok y' ∧
      y = (y'.1.amid rest, y'.2) := by
  unfold Engine.insertAt at run ⊢
  dsimp only at run ⊢
  rw [show (e.amid rest).arena = e.arena from rfl] at run
  cases found : e.arena.state head.top with
  | error cause =>
    rw [found] at run
    cases run
  | ok state =>
    have shifts : ∀ targets : List Nat,
        targets.foldl (Engine.insertTo p token terminal head state) (e.amid rest) =
          (targets.foldl (Engine.insertTo p token terminal head state) e).amid rest :=
      fun _ => List.foldl_hom (fun x : Engine K V => x.amid rest) fun _ _ => rfl
    rw [found] at run
    dsimp only at run ⊢
    rw [shifts] at run
    exact exists_of_foldlM_map (g := fun x : Engine K V × List Head => (x.1.amid rest, x.2))
      (fun _ _ _ => Engine.prepareBy_amid) run

private theorem Engine.insertAll_amid {terminal fuel : Nat} {queue : List Head} {after : Engine K V}
    (run : Engine.insertAll p token terminal fuel (e.amid rest, queue) = .ok after) :
    ∃ after', Engine.insertAll p token terminal fuel (e, queue) = .ok after' ∧
      after = after'.amid rest := by
  induction fuel generalizing e queue with
  | zero =>
    unfold Engine.insertAll at run ⊢
    split at run
    · next empty =>
      cases run
      exact ⟨e, if_pos empty, rfl⟩
    · cases run
  | succ fuel ih =>
    unfold Engine.insertAll at run ⊢
    split at run
    · next empty =>
      cases run
      exact ⟨e, if_pos empty, rfl⟩
    · next filled =>
      obtain ⟨next, first, run⟩ := exists_of_bind_eq_ok run
      obtain ⟨next', first', rfl⟩ :=
        exists_of_foldlM_map (g := fun x : Engine K V × List Head => (x.1.amid rest, x.2))
          (x := (e, [])) (fun _ _ _ => Engine.insertAt_amid) first
      obtain ⟨after', run', same⟩ := ih run
      exact ⟨after', by rw [if_neg filled, first']; exact run', same⟩

private theorem Engine.insertAll_eq_amid {terminal fuel : Nat} {queue : List Head}
    {after : Engine K V} (run : Engine.insertAll p token terminal fuel (e, queue) = .ok after) :
    after = after.amid e := by
  obtain ⟨_, -, rfl⟩ := Engine.insertAll_amid
    (show Engine.insertAll p token terminal fuel (e.amid e, queue) = .ok after from run)
  rfl

private theorem Engine.repair_amid {fuel : Nat} {head : Head} {after : Engine K V}
    (run : (e.amid rest).repair fuel p token head = .ok after) :
    ∃ after', e.repair fuel p token head = .ok after' ∧ after = after'.amid after := by
  have begun : ∃ other : Engine K V,
      (if Token.isEnd token then e.amid rest else (e.amid rest).deleteBefore token head) =
        (if Token.isEnd token then e else e.deleteBefore token head).amid other := by
    split
    · exact ⟨rest, rfl⟩
    · exact ⟨(e.amid rest).deleteBefore token head, rfl⟩
  obtain ⟨other, begun⟩ := begun
  unfold Engine.repair at run ⊢
  dsimp only at run ⊢
  rw [begun] at run
  obtain ⟨after', run', rfl⟩ := exists_of_foldlM_map (g := fun x : Engine K V => x.amid other)
    (fun _ _ _ => Engine.insertAll_amid) run
  exact ⟨after', run', rfl⟩

private theorem Engine.foldlM_repair_amid {fuel : Nat} {candidates : List Head}
    {after : Engine K V}
    (run : candidates.foldlM (Engine.repair fuel p token) (e.amid rest) = .ok after) :
    ∃ after', candidates.foldlM (Engine.repair fuel p token) e = .ok after' ∧
      after = after'.amid after := by
  induction candidates generalizing e rest with
  | nil =>
    cases run
    exact ⟨e, rfl, rfl⟩
  | cons head candidates ih =>
    rw [List.foldlM_cons] at run
    obtain ⟨next, first, run⟩ := exists_of_bind_eq_ok run
    obtain ⟨next', first', same⟩ := Engine.repair_amid first
    rw [same] at run
    obtain ⟨after', run', same'⟩ := ih run
    exact ⟨after', by rw [List.foldlM_cons, first']; exact run', same'⟩

end Apart

section Deletions

variable {K V : Type} [Token K] {p : Parser K V} {token : K} {e after : Engine K V} {fuel : Nat}

/-- A head has dropped the token: it stays on its stack with one more repair and one more error. -/
def Head.Drops (token : K) (head dropped : Head) : Prop :=
  ∃ serial, dropped = { head with
    errors := head.errors ++ [Branching.unexpected token]
    level := head.level + 1
    serial }

/-- Each candidate has dropped the token once, unless the stream ends there. -/
def Head.AllDrop (token : K) (candidates dropped : List Head) : Prop :=
  if Token.isEnd token then dropped = [] else List.Forall₂ (Head.Drops token) candidates dropped

private theorem Engine.repair_drops {head : Head} (run : e.repair fuel p token head = .ok after) :
    after.accepted = e.accepted ∧ ∃ dropped, Head.AllDrop token [head] dropped ∧
      after.shifted.reverse = e.shifted.reverse ++ dropped := by
  have kept : after = after.amid (if Token.isEnd token then e else e.deleteBefore token head) :=
    foldlM_keeps (fun x : Engine K V => x = x.amid _)
      (fun x terminal y _ held one => (Engine.insertAll_eq_amid one).trans (congrArg y.amid held :))
      rfl run
  rw [kept]
  unfold Head.AllDrop
  split
  · exact ⟨rfl, [], rfl, (List.append_nil _).symm⟩
  · exact ⟨rfl, _, .cons ⟨e.serial + 1, rfl⟩ .nil, List.reverse_cons⟩

private theorem Engine.foldlM_repair_drops {candidates : List Head}
    (run : candidates.foldlM (Engine.repair fuel p token) e = .ok after) :
    after.accepted = e.accepted ∧ ∃ dropped, Head.AllDrop token candidates dropped ∧
      after.shifted.reverse = e.shifted.reverse ++ dropped := by
  induction candidates generalizing e with
  | nil =>
    cases run
    refine ⟨rfl, [], ?_, (List.append_nil _).symm⟩
    unfold Head.AllDrop
    split
    · rfl
    · exact .nil
  | cons head candidates ih =>
    rw [List.foldlM_cons] at run
    obtain ⟨next, first, run⟩ := exists_of_bind_eq_ok run
    obtain ⟨accepted, dropped, one, shifted⟩ := Engine.repair_drops first
    obtain ⟨accepted', dropped', others, shifted'⟩ := ih run
    refine ⟨accepted'.trans accepted, dropped ++ dropped', ?_, ?_⟩
    · unfold Head.AllDrop at one others ⊢
      split
      · next ends =>
        rw [if_pos ends] at one others
        rw [one, others, List.append_nil]
      · next goes =>
        rw [if_neg goes] at one others
        exact List.rel_append one others
    · rw [shifted', shifted, List.append_assoc]

end Deletions

section Insertions

variable {K V : Type}

/-- A stack is reduced by a production that is listed for the terminal that its top state sees. -/
def Parser.Reduces (p : Parser K V) (lookahead : K) (sees : Nat → Nat)
    (frames frames' : List (Frame K V)) : Prop :=
  ∃ production ∈ p.table.reduces (Frame.top frames) (sees (Frame.top frames)),
    p.reduct lookahead frames production = .ok (.waiting, frames')

theorem Parser.Reduces.states {p : Parser K V} {lookahead : K} {terminal : Nat}
    {frames frames' : List (Frame K V)}
    (chain : ReflTransGen (p.Reduces lookahead fun _ => terminal) frames frames') :
    ReflTransGen (p.table.Prepares terminal) (Frame.states frames) (Frame.states frames') := by
  refine chain.lift Frame.states fun before after reduces => ?_
  obtain ⟨production, entry, reduced⟩ := reduces
  exact (Parser.prepares_states_iff lookahead).mpr ⟨production, entry, _, reduced, rfl⟩

variable [Token K] {p : Parser K V} {token : K} {terminal fuel : Nat}

/-- A stack is reduced ahead of a terminal and shifts what is inserted for it. -/
def Parser.Inserts (p : Parser K V) (token : K) (terminal : Nat)
    (frames frames' : List (Frame K V)) : Prop :=
  ∃ ready, ReflTransGen (p.Reduces token fun _ => terminal) frames ready ∧
    ∃ target ∈ p.table.shifts (Frame.top ready) terminal, frames' =
      ⟨target, .lexeme (Token.correction token terminal (p.table.describe terminal))⟩ :: ready

def Branch.Gains (p : Parser K V) (token : K) (terminal : Nat) (b gained : Branch K V) : Prop :=
  ∃ frames serial, p.Inserts token terminal b.frames frames ∧
    gained = Branch.repaired { b with frames, serial } (Branching.missing p token terminal)

namespace Branching

variable {s after : Branching K V}

theorem exists_of_mem_insertAll {queue : List (Branch K V)}
    (run : insertAll p token terminal fuel (s, queue) = .ok after) {b' : Branch K V}
    (member : b' ∈ after.waiting) :
    b' ∈ s.waiting ∨ ∃ b ∈ queue, b.Gains p token terminal b' := by
  induction fuel generalizing s queue with
  | zero =>
    unfold Branching.insertAll at run
    split at run
    · cases run
      exact .inl member
    · cases run
  | succ fuel ih =>
    unfold Branching.insertAll at run
    split at run
    · cases run
      exact .inl member
    · obtain ⟨⟨s', queue'⟩, inserted, rest⟩ := exists_of_bind_eq_ok run
      have round : (∀ b' ∈ s'.waiting, b' ∈ s.waiting ∨ ∃ b ∈ queue, b.Gains p token terminal b') ∧
          ∀ b' ∈ queue', ∃ b ∈ queue, ∃ frames serial,
            p.Reduces token (fun _ => terminal) b.frames frames ∧ b' = { b with frames, serial } := by
        refine foldlM_keeps (fun x : Branching K V × List (Branch K V) =>
          (∀ b' ∈ x.1.waiting, b' ∈ s.waiting ∨ ∃ b ∈ queue, b.Gains p token terminal b') ∧
            ∀ b' ∈ x.2, ∃ b ∈ queue, ∃ frames serial,
              p.Reduces token (fun _ => terminal) b.frames frames ∧ b' = { b with frames, serial })
          (fun x b y listed held one => ?_) ⟨fun _ => .inl, by simp⟩ inserted
        obtain ⟨moves, made, rfl⟩ := insertAt_eq_ok.mp one
        refine ⟨fun b' member => ?_, fun b' member => ?_⟩
        · rcases List.mem_append.mp member with old | forked
          · exact held.1 b' old
          · obtain ⟨b'', made', rfl⟩ := List.mem_map.mp forked
            obtain ⟨frames, serial, move, rfl⟩ := Branch.exists_move_of_mem_fork made'
            obtain ⟨target, entry, rfl⟩ := (Parser.mem_moves_shifted made).mp move
            exact .inr ⟨b, listed, _, serial, ⟨_, .refl, target, entry, rfl⟩, rfl⟩
        · rcases List.mem_append.mp member with old | forked
          · exact held.2 b' old
          · obtain ⟨frames, serial, move, rfl⟩ := Branch.exists_move_of_mem_fork forked
            obtain ⟨production, entry, reduced⟩ :=
              (Parser.mem_moves_of_ne_shifted made Fate.noConfusion).mp move
            exact ⟨b, listed, frames, serial, ⟨production, entry, reduced⟩, rfl⟩
      rcases ih rest with old | ⟨b', listed, last, number, ⟨ready, chain, inserts⟩, gained⟩
      · exact round.1 _ old
      · obtain ⟨b, first, frames, serial, reduces, rfl⟩ := round.2 b' listed
        exact .inr ⟨b, first, last, number, ⟨ready, .head reduces chain, inserts⟩, gained⟩

theorem exists_of_mem_recover (run : s.recover Branch.merge fuel p token = .ok after)
    (waiting : s.waiting = []) {b' : Branch K V} (member : b' ∈ after.live) :
    ∃ b ∈ s.stranded, ∃ terminal ∈ p.table.insertable, b.Gains p token terminal b' := by
  obtain ⟨s', repaired, rest⟩ := exists_of_bind_eq_ok run
  cases rest
  refine foldlM_keeps (fun x : Branching K V => ∀ b' ∈ x.waiting,
      ∃ b ∈ s.stranded, ∃ terminal ∈ p.table.insertable, b.Gains p token terminal b')
    (fun x b y stranded held one => ?_) (by simp [waiting]) repaired b'
    (selects_merge _ b' member)
  refine foldlM_keeps (fun x : Branching K V => ∀ b' ∈ x.waiting,
      ∃ b ∈ s.stranded, ∃ terminal ∈ p.table.insertable, b.Gains p token terminal b')
    (fun x terminal y insertable held one b' member => ?_) ?_ one
  · rcases exists_of_mem_insertAll one member with old | ⟨b'', listed, gains⟩
    · exact held b' old
    · obtain rfl := List.mem_singleton.mp listed
      exact ⟨b'', stranded, terminal, insertable, gains⟩
  · split
    · exact held
    · exact held

end Branching

end Insertions

section Exact

variable {K V : Type}

/-- A terminal is inserted on a stack, after reductions that it calls for. -/
def Table.Corrects (t : Table) (stack after : List Nat) : Prop :=
  ∃ terminal ∈ t.insertable, ∃ ready,
    ReflTransGen (t.Prepares terminal) stack ready ∧ t.Inserts terminal ready after

variable [Token K] {p : Parser K V} {token : K} {fuel : Nat}

theorem Branch.Gains.corrects {terminal : Nat} (insertable : terminal ∈ p.table.insertable)
    {b gained : Branch K V} (gains : b.Gains p token terminal gained) :
    p.table.Corrects (Frame.states b.frames) (Frame.states gained.frames) ∧
      gained.level = b.level + 1 := by
  obtain ⟨frames, serial, ⟨ready, chain, target, entry, rfl⟩, rfl⟩ := gains
  exact ⟨⟨terminal, insertable, _, Parser.Reduces.states chain,
    Parser.inserts_states_iff.mpr ⟨target, entry, rfl⟩⟩, rfl⟩

theorem Branching.recover_live {s after : Branching K V}
    (run : s.recover Branch.merge fuel p token = .ok after) (waiting : s.waiting = []) :
    (after.live.map Branch.path).Nodup ∧
    (∀ stack, (∃ b' ∈ after.live, Frame.states b'.frames = stack) ↔
      ∃ b ∈ s.stranded, p.table.Corrects (Frame.states b.frames) stack) ∧
    ∀ b' ∈ after.live, IsLeast {level | ∃ b ∈ s.stranded,
      p.table.Corrects (Frame.states b.frames) (Frame.states b'.frames) ∧ level = b.level + 1}
        b'.level := by
  have distinct : (after.live.map Branch.path).Nodup := by
    obtain ⟨s', -, rest⟩ := exists_of_bind_eq_ok run
    cases rest
    exact nodup_map_key_survivors ..
  refine ⟨distinct, fun stack => ⟨?_, ?_⟩, fun b' lives => ⟨?_, ?_⟩⟩
  · rintro ⟨b', lives, rfl⟩
    obtain ⟨b, stranded, terminal, insertable, gains⟩ := exists_of_mem_recover run waiting lives
    exact ⟨b, stranded, (gains.corrects insertable).1⟩
  · rintro ⟨b, stranded, terminal, insertable, ready, chain, inserts⟩
    obtain ⟨kept, lives, states, -⟩ := recover_complete run stranded insertable chain inserts
    exact ⟨kept, lives, states⟩
  · obtain ⟨b, stranded, terminal, insertable, gains⟩ := exists_of_mem_recover run waiting lives
    obtain ⟨corrects, level⟩ := gains.corrects insertable
    exact ⟨b, stranded, corrects, level⟩
  · rintro _ ⟨b, stranded, ⟨terminal, insertable, ready, chain, inserts⟩, rfl⟩
    obtain ⟨kept, lives', states, level⟩ := recover_complete run stranded insertable chain inserts
    have same : b'.path = kept.path := by
      rw [Branch.path, Branch.path, Frame.path_eq_reverse, Frame.path_eq_reverse, states]
    obtain rfl := List.inj_on_of_nodup_map distinct lives lives' same
    exact level

variable {e after : Engine K V}

omit [Token K] in
private theorem exists_shown_iff {a : Arena K V} {accepted : Bool} {heads : List Head}
    {branches : List (Branch K V)} (shown : List.Forall₂ (Head.Shown a accepted) heads branches)
    (property : List Nat → Nat → Prop) :
    (∃ head ∈ heads, property (a.path head.top).reverse head.level) ↔
      ∃ b ∈ branches, property (Frame.states b.frames) b.level := by
  have same : ∀ {head b}, Head.Shown a accepted head b →
      (property (a.path head.top).reverse head.level ↔ property (Frame.states b.frames) b.level) := by
    intro head b pair
    rw [pair.holds.path, Frame.path_eq_reverse, List.reverse_reverse, pair.level]
  constructor
  · rintro ⟨head, listed, holds⟩
    obtain ⟨b, member, pair⟩ := exists_of_forall₂_left shown listed
    exact ⟨b, member, (same pair).mp holds⟩
  · rintro ⟨b, member, holds⟩
    obtain ⟨head, listed, pair⟩ := exists_of_forall₂_right shown member
    exact ⟨head, listed, (same pair).mpr holds⟩

private theorem Engine.Shows.recover_live {s : Branching K V} (shows : e.Shows s)
    (waiting : s.waiting = []) (run : e.recover Merged.ofHeads fuel p token = .ok after) :
    e.arena.Grows after.arena ∧
    (∀ path, path ∈ after.heads.map (fun head => after.arena.path head.top) ↔
      ∃ head ∈ e.stranded, p.table.Corrects (e.arena.path head.top).reverse path.reverse) ∧
    (after.heads.map fun head => after.arena.path head.top).Nodup ∧
    ∀ head ∈ after.heads, head.accepted = false ∧ IsLeast {level | ∃ candidate ∈ e.stranded,
      p.table.Corrects (e.arena.path candidate.top).reverse (after.arena.path head.top).reverse ∧
        level = candidate.level + 1} head.level := by
  obtain ⟨t, moved, shows', extended⟩ :=
    (shows.recover faithful_ofHeads fuel p token).exists_of_eq_ok run
  obtain ⟨distinct, exact, least⟩ := Branching.recover_live moved waiting
  have candidates := exists_shown_iff shows.stranded
  simp only [List.mem_reverse] at candidates
  refine ⟨extended.grows, fun path => ?_, ?_, fun head lives => ?_⟩
  · rw [candidates fun stack _ => p.table.Corrects stack path.reverse, ← exact path.reverse,
      ← exists_shown_iff shows'.live fun stack _ => stack = path.reverse, List.mem_map]
    simp only [List.reverse_inj]
  · rw [map_eq_map_of_forall₂ shows'.live fun head b pair => pair.holds.path]
    exact distinct
  · obtain ⟨b', member, pair⟩ := exists_of_forall₂_left shows'.live lives
    refine ⟨pair.accepted, ?_⟩
    have levels : {level | ∃ candidate ∈ e.stranded,
          p.table.Corrects (e.arena.path candidate.top).reverse (Frame.states b'.frames) ∧
            level = candidate.level + 1} =
        {level | ∃ b ∈ s.stranded,
          p.table.Corrects (Frame.states b.frames) (Frame.states b'.frames) ∧ level = b.level + 1} :=
      Set.ext fun level => candidates fun stack repairs =>
        p.table.Corrects stack (Frame.states b'.frames) ∧ level = repairs + 1
    rw [pair.holds.path, Frame.path_eq_reverse, List.reverse_reverse, pair.level, levels]
    exact least b' member

omit [Token K] in
private theorem Engine.exists_revived (e : Engine K V) : ∃ journal stats,
    ({ e with
      heads := (Merged.ofHeads e.arena e.waiting.reverse).heads
      waiting := [] } : Engine K V).recordMerges (Merged.ofHeads e.arena e.waiting.reverse).pairs =
    { e with
      heads := (Merged.ofHeads e.arena e.waiting.reverse).heads
      waiting := []
      journal
      stats } := by
  obtain ⟨journal, same⟩ := Engine.recordMerges_eq { e with
    heads := (Merged.ofHeads e.arena e.waiting.reverse).heads
    waiting := [] } (Merged.ofHeads e.arena e.waiting.reverse).pairs
  exact ⟨journal, _, same⟩

private abbrev Engine.bare (e : Engine K V) : Engine K V :=
  { e with heads := [], shifted := [], accepted := [] }

private theorem Engine.exists_recover_bare (run : e.recover Merged.ofHeads fuel p token = .ok after) :
    (after.accepted = e.accepted ∧ ∃ dropped, Head.AllDrop token e.stranded.reverse dropped ∧
      after.shifted.reverse = e.shifted.reverse ++ dropped) ∧
    ∃ after', e.bare.recover Merged.ofHeads fuel p token = .ok after' ∧
      after'.arena = after.arena ∧ after'.heads = after.heads := by
  let started (e : Engine K V) : Engine K V :=
    { e.record (.recovering e.stranded.reverse.length (Token.literal token) (Token.span token)) with
      stranded := [] }
  obtain ⟨repaired, repairs, rest⟩ := exists_of_bind_eq_ok run
  obtain ⟨journal, stats, same⟩ := repaired.exists_revived
  obtain ⟨repaired', repairs', apart⟩ := Engine.foldlM_repair_amid
    (show e.stranded.reverse.foldlM (Engine.repair fuel p token) ((started e.bare).amid (started e)) =
      .ok repaired from repairs)
  obtain ⟨journal', stats', same'⟩ := repaired'.exists_revived
  obtain ⟨accepted, dropped, all, shifted⟩ := Engine.foldlM_repair_drops repairs
  have revived := (Except.ok.inj rest).symm.trans same
  have run' : e.bare.recover Merged.ofHeads fuel p token = .ok
      { repaired' with
        heads := (Merged.ofHeads repaired'.arena repaired'.waiting.reverse).heads
        waiting := []
        journal := journal'
        stats := stats' } := by
    change (e.stranded.reverse.foldlM (Engine.repair fuel p token) (started e.bare) >>= _) = _
    rw [repairs']
    exact congrArg Except.ok same'
  rw [revived]
  refine ⟨⟨accepted, dropped, all, shifted⟩, _, run', ?_⟩
  rw [apart]
  exact ⟨rfl, rfl⟩

/-- For any list of candidates on stacks of a sound arena, a recovery that ends well makes exactly the
repairs that the table allows. -/
theorem Engine.recover_exact (sound : e.arena.Sound) (waiting : e.waiting = [])
    (candidates : ∀ head ∈ e.stranded, (e.arena.node? head.top).isSome ∧ head.accepted = false)
    (run : e.recover Merged.ofHeads fuel p token = .ok after) :
    (∃ dropped, Head.AllDrop token e.stranded.reverse dropped ∧
      after.shifted.reverse = e.shifted.reverse ++ dropped) ∧
    (∀ path, path ∈ after.heads.map (fun head => after.arena.path head.top) ↔
      ∃ head ∈ e.stranded, p.table.Corrects (e.arena.path head.top).reverse path.reverse) ∧
    (after.heads.map fun head => after.arena.path head.top).Nodup ∧
    (∀ head ∈ after.heads, head.accepted = false ∧ IsLeast {level | ∃ candidate ∈ e.stranded,
      p.table.Corrects (e.arena.path candidate.top).reverse (after.arena.path head.top).reverse ∧
        level = candidate.level + 1} head.level) ∧
    (∀ head ∈ e.stranded, after.arena.chain head.top = e.arena.chain head.top) ∧
    after.accepted = e.accepted := by
  obtain ⟨⟨accepted, drops⟩, after', run', arena, heads⟩ := Engine.exists_recover_bare run
  obtain ⟨branches, stranded⟩ : ∃ branches : List (Branch K V),
      List.Forall₂ (Head.Shown e.arena false) e.stranded.reverse branches := by
    refine exists_forall₂ fun head listed => ?_
    obtain ⟨filled, live⟩ := candidates head (List.mem_reverse.mp listed)
    obtain ⟨node, found⟩ := Option.isSome_iff_exists.mp filled
    obtain ⟨frames, held⟩ := sound.exists_holds found
    exact ⟨⟨frames, head.errors, head.level, head.serial⟩, held, rfl, rfl, rfl, live⟩
  have shows : e.bare.Shows
      { live := []
        stranded := branches
        serial := e.serial
        stats := { e.stats with reclaimed := 0 } } :=
    { sound := sound
      live := .nil
      waiting := by simp [waiting]
      shifted := .nil
      stranded := stranded
      accepted := .nil
      serial := rfl
      stats := rfl }
  have live := shows.recover_live rfl run'
  rw [arena, heads] at live
  obtain ⟨grows, paths, distinct, least⟩ := live
  refine ⟨drops, paths, distinct, least, fun head listed => ?_, accepted⟩
  obtain ⟨b, -, pair⟩ := exists_of_forall₂_left stranded (List.mem_reverse.mpr listed)
  exact pair.holds.chain_eq grows

def Word.b : Word := { terminal := 1, text := "b" }

def Word.stuck : Engine Word String :=
  { (Engine.start : Engine Word String) with
    heads := []
    stranded := (Engine.start : Engine Word String).heads }

theorem Engine.recover_exact_pairs : ∃ after,
    Word.stuck.recover Merged.ofHeads 9 Word.pairs Word.b = .ok after ∧
      (∃ dropped, Head.AllDrop Word.b Word.stuck.stranded.reverse dropped ∧
        after.shifted.reverse = dropped) ∧
      ∃ head ∈ after.heads, after.arena.path head.top = [0, 1] ∧ head.level = 1 := by
  have shows := Engine.shows_start (K := Word) (V := String)
  obtain ⟨after, run, levels⟩ : ∃ after,
      Word.stuck.recover Merged.ofHeads 9 Word.pairs Word.b = .ok after ∧
        after.heads.map Head.level = [1] := ⟨_, rfl, rfl⟩
  have candidates : ∀ head ∈ Word.stuck.stranded,
      (Word.stuck.arena.node? head.top).isSome ∧ head.accepted = false := by
    intro head listed
    obtain rfl := List.mem_singleton.mp listed
    exact ⟨rfl, rfl⟩
  obtain ⟨drops, paths, -⟩ := Engine.recover_exact (e := Word.stuck) shows.sound rfl candidates run
  have corrects : Word.pairs.table.Corrects [0] [1, 0] :=
    ⟨0, by decide, [0], .refl, .intro (by decide)⟩
  obtain ⟨head, lives, path⟩ := List.mem_map.mp
    ((paths [0, 1]).mpr ⟨_, List.mem_singleton_self _, corrects⟩)
  obtain ⟨only, alone, level⟩ := List.map_eq_singleton_iff.mp levels
  rw [alone, List.mem_singleton] at lives
  subst lives
  exact ⟨after, run, drops, head, by rw [alone]; exact List.mem_singleton_self _, path, level⟩

end Exact

end GeneralizedLR
