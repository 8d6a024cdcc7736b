import GeneralizedLR.Proofs.Engine.Growth
import GeneralizedLR.Proofs.Engine.Simulation
import GeneralizedLR.Proofs.Head.Merge

/-!
Taking in a token is the same for the engine and for the branching that it shows: recoveries and
passes in turn, then the merges, and the sweep, which keeps every stack that is still in use.
-/

set_option autoImplicit false
set_option relaxedAutoImplicit false

namespace GeneralizedLR

section Input

variable {K V : Type} {e base : Engine K V} {s : Branching K V}

/-- A way to merge heads does to them what the other one does to their branches. -/
def Faithful (merge : Arena K V → List Head → Merged)
    (policy : List (Branch K V) → List (Branch K V) × Nat) : Prop :=
  ∀ ⦃a : Arena K V⦄ ⦃accepted : Bool⦄ ⦃heads : List Head⦄ ⦃branches : List (Branch K V)⦄,
    a.Linked → List.Forall₂ (Head.Shown a accepted) heads branches →
      List.Forall₂ (Head.Shown a accepted) (merge a heads).heads (policy branches).1 ∧
        (merge a heads).pairs.length = (policy branches).2

theorem faithful_ofHeads : Faithful (K := K) (V := V) Merged.ofHeads Branch.merge := by
  intro a accepted heads branches linked shown
  have filled : ∀ h ∈ heads, (a.node? h.top).isSome := by
    intro h member
    induction shown with
    | nil => cases member
    | cons head _ ih =>
      rcases List.mem_cons.mp member with rfl | member
      · obtain ⟨node, found, _⟩ := head.holds.node?
        simp [found]
      · exact ih member
  have count := Merged.length_onto a [] heads
  rw [← Merged.ofHeads, Merged.ofHeads_eq_survivors linked filled] at count
  have related : List.Forall₂ (Head.Shown a accepted)
      (survivors (fun h => a.path h.top) Head.rank heads)
      (survivors Branch.path Branch.rank branches) := by
    refine forall₂_survivors ?_ ?_ shown
    · intro h b same
      simp only [Head.rank, Branch.rank, same.level, same.serial]
    · intro h h' b b' same same'
      rw [same.holds.path, same'.holds.path]
      rfl
  rw [Merged.ofHeads_eq_survivors linked filled]
  refine ⟨related, ?_⟩
  simp only [Branch.merge, ← related.length_eq, ← shown.length_eq]
  rw [List.length_nil] at count
  omega

theorem faithful_unmerged :
    Faithful (K := K) (V := V) Merged.unmerged fun branches => (branches, 0) :=
  fun _ _ _ _ _ shown => ⟨shown, rfl⟩

theorem Engine.recordMerges_eq (e : Engine K V) (pairs : List (Head × Head)) :
    ∃ journal, e.recordMerges pairs =
      { e with journal, stats := { e.stats with merged := e.stats.merged + pairs.length } } := by
  have writes : ∀ e : Engine K V, ∃ journal, pairs.foldl (fun e pair =>
      e.record (.merged pair.1.serial pair.1.level pair.2.serial pair.2.level)) e =
        { e with journal } := by
    clear e
    induction pairs with
    | nil => exact fun e => ⟨e.journal, rfl⟩
    | cons pair pairs ih =>
      intro e
      obtain ⟨journal, eq⟩ := ih (e.record
        (.merged pair.1.serial pair.1.level pair.2.serial pair.2.level))
      exact ⟨journal, eq⟩
  obtain ⟨journal, eq⟩ := writes e
  refine ⟨journal, ?_⟩
  rw [Engine.recordMerges, show pairs.foldl _ e = { e with journal } from eq]

private theorem lt_size_of_forall₂_shown {a : Arena K V} {accepted : Bool} {heads : List Head}
    {branches : List (Branch K V)} (shown : List.Forall₂ (Head.Shown a accepted) heads branches)
    {h : Head} (member : h ∈ heads) : h.top < a.slots.size := by
  obtain ⟨b, -, found⟩ := exists_of_forall₂_left shown member
  obtain ⟨node, filled, -⟩ := found.holds.node?
  exact Arena.lt_size_of_node? filled

private theorem forall₂_shown_sweep {a : Arena K V} (sound : a.Sound) {roots : List NodeId}
    (inside : ∀ root ∈ roots, root < a.slots.size) {accepted : Bool} {heads : List Head}
    {branches : List (Branch K V)} (shown : List.Forall₂ (Head.Shown a accepted) heads branches)
    (rooted : ∀ h ∈ heads, h.top ∈ roots) :
    List.Forall₂ (Head.Shown (a.sweep roots).1 accepted) heads branches := by
  induction shown with
  | nil => exact .nil
  | @cons h b heads branches head _ ih =>
    have root : h.top ∈ roots := rooted h (List.mem_cons_self ..)
    refine .cons { head with holds := ?_ } (ih fun h member =>
      rooted h (List.mem_cons_of_mem _ member))
    exact head.holds.sweep sound inside ⟨h.top, root, .refl⟩

private theorem Engine.Shows.sweep (shows : e.Shows s) (waiting : s.waiting = [])
    (shifted : s.shifted = []) (stranded : s.stranded = []) {arena : Arena K V} {reclaimed : Nat}
    (swept : e.arena.sweep e.roots = (arena, reclaimed)) :
    { e with
      arena
      stats := { e.stats with reclaimed := e.stats.reclaimed + reclaimed } }.Shows s := by
  have arena_eq : arena = (e.arena.sweep e.roots).1 := by rw [swept]
  have inside : ∀ root ∈ e.roots, root < e.arena.slots.size := by
    intro root member
    obtain ⟨h, listed, rfl⟩ := List.mem_map.mp member
    rcases List.mem_append.mp listed with live | accepted
    · exact lt_size_of_forall₂_shown shows.live live
    · exact lt_size_of_forall₂_shown shows.accepted accepted
  have kept : ∀ {accepted heads branches}, (∀ h ∈ heads, h ∈ e.heads ++ e.accepted) →
      List.Forall₂ (Head.Shown e.arena accepted) heads branches →
        List.Forall₂ (Head.Shown arena accepted) heads branches := by
    intro accepted heads branches members shown
    rw [arena_eq]
    exact forall₂_shown_sweep shows.sound inside shown fun h member =>
      List.mem_map_of_mem (members h member)
  have none : ∀ {heads : List Head}, List.Forall₂ (Head.Shown e.arena false) heads.reverse [] →
      heads.reverse = [] := fun empty => List.forall₂_nil_right_iff.mp empty
  refine {
    sound := arena_eq ▸ shows.sound.sweep inside
    live := kept (fun h member => List.mem_append_left _ member) shows.live
    waiting := ?_
    shifted := ?_
    stranded := ?_
    accepted := kept (fun h member => List.mem_append_right _ member) shows.accepted
    serial := shows.serial
    stats := by simp [← shows.stats] }
  · rw [waiting, List.forall₂_nil_right_iff]
    exact none (waiting ▸ shows.waiting)
  · rw [shifted, List.forall₂_nil_right_iff]
    exact none (shifted ▸ shows.shifted)
  · rw [stranded, List.forall₂_nil_right_iff]
    exact none (stranded ▸ shows.stranded)

/-- The branching after a fault: only what was accepted before is left. -/
structure Branching.Abandons (s after : Branching K V) : Prop where
  live : after.live = []
  waiting : after.waiting = []
  shifted : after.shifted = []
  stranded : after.stranded = []
  accepted : after.accepted = s.accepted
  serial : s.serial ≤ after.serial

theorem Engine.Shows.settle {merge : Arena K V → List Head → Merged}
    {policy : List (Branch K V) → List (Branch K V) × Nat} (faithful : Faithful merge policy)
    (shows : e.Shows s) (waiting : s.waiting = []) :
    (e.settle merge).Shows (s.settle policy) := by
  obtain ⟨accepted, acceptedCount⟩ := faithful shows.sound.linked shows.accepted
  obtain ⟨shifted, shiftedCount⟩ := faithful shows.sound.linked shows.shifted
  obtain ⟨journal, first⟩ := e.recordMerges_eq (merge e.arena e.accepted).pairs
  obtain ⟨journal', second⟩ := ({ e with
    journal := journal
    stats := { e.stats with merged := e.stats.merged + (merge e.arena e.accepted).pairs.length } } :
    Engine K V).recordMerges_eq (merge e.arena e.shifted.reverse).pairs
  have merged : { e with
      heads := (merge e.arena e.shifted.reverse).heads
      shifted := []
      stranded := []
      accepted := (merge e.arena e.accepted).heads
      journal := journal'
      stats := { e.stats with
        merged := e.stats.merged + (merge e.arena e.accepted).pairs.length +
          (merge e.arena e.shifted.reverse).pairs.length } }.Shows (s.settle policy) := {
    sound := shows.sound
    live := shifted
    waiting := shows.waiting
    shifted := .nil
    stranded := .nil
    accepted := accepted
    serial := shows.serial
    stats := by simp [Branching.settle, ← shows.stats, acceptedCount, shiftedCount] }
  have swept := merged.sweep waiting rfl rfl (Prod.mk.eta (p := e.arena.sweep _)).symm
  unfold Engine.settle
  simp only [first, second]
  exact { swept with }

private theorem Engine.Shows.abandon (shows : e.Shows s) {stopped : Engine K V}
    (extended : e.Extends stopped) (token : K) (cause : Fault) :
    ∃ after, (stopped.abandon e.accepted.length token cause).Shows after ∧ s.Abandons after := by
  have kept : stopped.accepted.take e.accepted.length = e.accepted :=
    (List.prefix_iff_eq_take.mp extended.accepted).symm
  let after : Branching K V :=
    { live := []
      accepted := s.accepted
      serial := stopped.serial
      stats := { stopped.stats with reclaimed := 0 } }
  have cleared : { stopped with
      heads := []
      waiting := []
      shifted := []
      stranded := []
      accepted := stopped.accepted.take e.accepted.length
      journal := .abandoned token cause :: stopped.journal }.Shows after := {
    sound := extended.sound
    live := .nil
    waiting := .nil
    shifted := .nil
    stranded := .nil
    accepted := kept.symm ▸ forall₂_shown_mono extended.grows shows.accepted
    serial := rfl
    stats := rfl }
  have swept := cleared.sweep rfl rfl rfl (Prod.mk.eta (p := stopped.arena.sweep _)).symm
  exact ⟨after, { swept with }, rfl, rfl, rfl, rfl, rfl, shows.serial ▸ extended.serial⟩

variable [Token K]

theorem Engine.Shows.recover {merge : Arena K V → List Head → Merged}
    {policy : List (Branch K V) → List (Branch K V) × Nat} (faithful : Faithful merge policy)
    (shows : e.Shows s) (fuel : Nat) (p : Parser K V) (token : K) :
    Agrees e.Follows e.Extends (Engine.recover merge fuel p token e)
      (s.recover policy fuel p token) := by
  unfold Engine.recover Branching.recover
  have started : e.Follows
      { e.record (.recovering e.stranded.reverse.length (Token.literal token) (Token.span token)) with
        stranded := [] } { s with stranded := [] } :=
    ⟨{ shows with stranded := .nil }, shows.extends.keep rfl rfl (Nat.le_refl _)⟩
  refine (Agrees.foldlM shows.stranded (fun e' s' h b follows shown =>
    Engine.agrees_repair follows shown fuel p token) started).bind fun e' s' follows => ?_
  obtain ⟨live, count⟩ := faithful follows.1.sound.linked follows.1.waiting
  obtain ⟨journal, eq⟩ := ({ e' with
    heads := (merge e'.arena e'.waiting.reverse).heads, waiting := [] } :
    Engine K V).recordMerges_eq (merge e'.arena e'.waiting.reverse).pairs
  simp only [eq]
  refine .ok ⟨?_, follows.2.keep rfl rfl (Nat.le_refl _)⟩
  exact { follows.1 with
    live := live
    waiting := .nil
    stats := by simp [← follows.1.stats, count] }

theorem Engine.Shows.advance {merge : Arena K V → List Head → Merged}
    {policy : List (Branch K V) → List (Branch K V) × Nat} (faithful : Faithful merge policy)
    (shows : e.Shows s) (fuel : Nat) (p : Parser K V) (token : K) (rounds : Nat) :
    Agrees e.Follows e.Extends (Engine.advance merge fuel p token rounds e)
      (s.advance policy fuel p token rounds) := by
  induction rounds generalizing e s with
  | zero => exact .exhausted
  | succ rounds ih =>
    unfold Engine.advance Branching.advance
    refine (shows.pass p token fuel).bind fun e' s' follows => ?_
    have shifted := isEmpty_eq_of_forall₂ follows.1.shifted
    have stranded := isEmpty_eq_of_forall₂ follows.1.stranded
    rw [List.isEmpty_reverse] at shifted stranded
    rw [shifted, stranded, shows.accepted.length_eq, follows.1.accepted.length_eq]
    split
    · exact .ok follows
    · split
      · exact .ok ⟨{ follows.1 with }, follows.2.keep rfl rfl (Nat.le_refl _)⟩
      · have recovered := (follows.1.recover faithful fuel p token).imp
          (Q := e.Follows) (T := e.Extends)
          (fun _ _ next => ⟨next.1, follows.2.trans next.2⟩) fun _ => follows.2.trans
        refine recovered.bind fun e'' s'' follows => ?_
        exact (ih follows.1).imp (fun _ _ next => ⟨next.1, follows.2.trans next.2⟩)
          fun _ => follows.2.trans

theorem Engine.Shows.input {merge : Arena K V → List Head → Merged}
    {policy : List (Branch K V) → List (Branch K V) × Nat} (faithful : Faithful merge policy)
    (shows : e.Shows s) (waiting : s.waiting = []) (fuel : Nat) (p : Parser K V) (token : K) :
    Agrees Engine.Shows (fun stopped => ∃ after, stopped.Shows after ∧ s.Abandons after)
      (Engine.inputWith merge fuel p token e) (s.input policy fuel p token) := by
  let e₀ : Engine K V := { e with
    journal := []
    stats := { e.stats with tokens := e.stats.tokens + 1 } }
  let s₀ : Branching K V := { s with stats := { s.stats with tokens := s.stats.tokens + 1 } }
  have begun : e₀.Shows s₀ := { shows with stats := by simp [e₀, s₀, ← shows.stats] }
  have advanced := begun.advance faithful fuel p token fuel
  rw [Engine.inputWith, Branching.input, show Engine.advance merge fuel p token fuel _ =
    Engine.advance merge fuel p token fuel e₀ from rfl]
  cases run : s₀.advance policy fuel p token fuel with
  | ok stepped =>
    rw [run] at advanced
    generalize Engine.advance merge fuel p token fuel e₀ = result at advanced ⊢
    cases advanced with
    | ok follows =>
      exact .ok (follows.1.settle faithful (Branching.advance_eq_ok run waiting))
  | error stop =>
    rw [run] at advanced
    generalize Engine.advance merge fuel p token fuel e₀ = result at advanced ⊢
    cases advanced with
    | fault extended =>
      obtain ⟨after, abandoned, only⟩ := begun.abandon extended token _
      exact .fault ⟨after, abandoned, { only with }⟩
    | exhausted => exact .exhausted

omit [Token K] in
theorem Engine.shows_start : (Engine.start : Engine K V).Shows .start := by
  have tidy : ({} : Arena K V).Tidy := Arena.empty_tidy
  have root := tidy.push_node?_self 0 none none
  have sound : (({} : Arena K V).push 0 none none).1.Sound := by
    refine ⟨tidy.push, fun id node found => ?_⟩
    by_cases same : id = (({} : Arena K V).push 0 none none).2
    · subst same
      rw [root] at found
      cases found
      exact .inl rfl
    · rw [Arena.push_node?_of_ne same] at found
      cases found
  exact {
    sound := sound
    live := .cons ⟨.root root, rfl, rfl, rfl, rfl⟩ .nil
    waiting := .nil
    shifted := .nil
    stranded := .nil
    accepted := .nil
    serial := rfl
    stats := rfl }

end Input

end GeneralizedLR
