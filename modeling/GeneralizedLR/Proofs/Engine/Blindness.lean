import GeneralizedLR.Proofs.Engine.Abandoned
import GeneralizedLR.Proofs.Engine.Transparency
import GeneralizedLR.Proofs.Head.Shape

/-!
The engine is blind to values. Two engines with the same table that are given tokens of the same
terminals go in step, whatever the tokens say and whatever the actions make of them: what they do is
told by the shapes of their stacks.
-/

set_option autoImplicit false
set_option relaxedAutoImplicit false

namespace GeneralizedLR

variable {K V K' V' : Type}

/-- Two engines of one shape: the same nodes but for what they carry, the same heads but for the texts
and places of their errors, and the same counts. -/
structure Engine.Alike (e : Engine K V) (e' : Engine K' V') : Prop where
  arena : e.arena.shape = e'.arena.shape
  heads : e.heads.map Head.shape = e'.heads.map Head.shape
  waiting : e.waiting.map Head.shape = e'.waiting.map Head.shape
  shifted : e.shifted.map Head.shape = e'.shifted.map Head.shape
  stranded : e.stranded.map Head.shape = e'.stranded.map Head.shape
  accepted : e.accepted.map Head.shape = e'.accepted.map Head.shape
  serial : e.serial = e'.serial
  stats : e.stats = e'.stats

structure Token.Alike [Token K] [Token K'] (token : K) (token' : K') : Prop where
  terminal : Token.terminal token = Token.terminal token'
  terminalIn : ∀ channel, Token.terminalIn channel token = Token.terminalIn channel token'
  isEnd : Token.isEnd token = Token.isEnd token'

theorem Token.Alike.classify [Token K] [Token K'] {token : K} {token' : K'}
    (alike : Token.Alike token token') (channel : Option Nat) :
    Token.classify channel token = Token.classify channel token' := by
  cases channel with
  | none => exact alike.terminal
  | some channel => exact alike.terminalIn channel

section Lockstep

variable {α β γ δ : Type} {more : Prop}

/-- Two runs that end alike: with related results, or with the same fault and engines of one shape.
The first one may run out of fuel alone if the second one has `more`. -/
inductive Lockstep (more : Prop) (R : α → β → Prop) :
    Except (Halt K V) α → Except (Halt K' V') β → Prop
  | ok {x : α} {y : β} : R x y → Lockstep more R (.ok x) (.ok y)
  | fault {cause : Fault} {e : Engine K V} {e' : Engine K' V'} : e.Alike e' →
      Lockstep more R (.error (.fault cause e)) (.error (.fault cause e'))
  | exhausted : Lockstep more R (.error .exhausted) (.error .exhausted)
  | short (y : Except (Halt K' V') β) : more → Lockstep more R (.error .exhausted) y

variable {R : α → β → Prop} {N : γ → δ → Prop} {r : Except (Halt K V) α}
  {r' : Except (Halt K' V') β}

theorem Lockstep.bind (runs : Lockstep more R r r') {f : α → Except (Halt K V) γ}
    {g : β → Except (Halt K' V') δ} (rest : ∀ x y, R x y → Lockstep more N (f x) (g y)) :
    Lockstep more N (r >>= f) (r' >>= g) := by
  cases runs with
  | ok pair => exact rest _ _ pair
  | fault alike => exact .fault alike
  | exhausted => exact .exhausted
  | short _ held => exact .short _ held

theorem Lockstep.foldlM {ι κ : Type} {I : ι → κ → Prop} {l : List ι} {l' : List κ}
    (items : List.Forall₂ I l l') {f : α → ι → Except (Halt K V) α}
    {g : β → κ → Except (Halt K' V') β}
    (step : ∀ x y i j, R x y → I i j → Lockstep more R (f x i) (g y j)) {x : α} {y : β}
    (start : R x y) : Lockstep more R (l.foldlM f x) (l'.foldlM g y) := by
  induction items generalizing x y with
  | nil => exact .ok start
  | cons head _ ih =>
    rw [List.foldlM_cons, List.foldlM_cons]
    exact (step x y _ _ start head).bind fun _ _ => ih

theorem Lockstep.foldlM_same {ι : Type} (l : List ι) {f : α → ι → Except (Halt K V) α}
    {g : β → ι → Except (Halt K' V') β}
    (step : ∀ x y i, R x y → Lockstep more R (f x i) (g y i)) {x : α} {y : β} (start : R x y) :
    Lockstep more R (l.foldlM f x) (l.foldlM g y) :=
  Lockstep.foldlM (I := Eq) (List.forall₂_same.mpr fun _ _ => rfl)
    (fun x y i _ held same => same ▸ step x y i held) start

end Lockstep

namespace Engine.Alike

variable {e : Engine K V} {e' : Engine K' V'} {h h' : Head} {more : Prop}

private theorem pairs {heads heads' : List Head} (same : heads.map Head.shape = heads'.map Head.shape) :
    List.Forall₂ (fun h h' : Head => h.shape = h'.shape) heads.reverse heads'.reverse :=
  List.rel_reverse (forall₂_of_map_eq_map same)

private theorem isEmpty {heads heads' : List Head}
    (same : heads.map Head.shape = heads'.map Head.shape) : heads.isEmpty = heads'.isEmpty := by
  rw [← List.isEmpty_map, same, List.isEmpty_map]

private theorem shiftTo (alike : e.Alike e') (heads : h.shape = h'.shape) (token : K) (token' : K')
    (state target : Nat) :
    (Engine.shiftTo token h state e target).Alike (Engine.shiftTo token' h' state e' target) := by
  obtain ⟨new, arena⟩ := Head.shift_of_shape alike.arena
    (Head.fork_of_shape heads (congrArg (· + 1) alike.serial)) token token' target
  exact {
    arena := arena
    heads := alike.heads
    waiting := alike.waiting
    shifted := by simp [Engine.shiftTo, new, alike.shifted]
    stranded := alike.stranded
    accepted := alike.accepted
    serial := congrArg (· + 1) alike.serial
    stats := by simp [Engine.shiftTo, alike.stats] }

private theorem conclude (alike : e.Alike e') (heads : h.shape = h'.shape) (actions : Nat) :
    (e.conclude h actions).Alike (e'.conclude h' actions) := by
  unfold Engine.conclude
  split
  · exact { alike with
      stranded := by simp [heads, alike.stranded]
      stats := by simp [alike.stats] }
  · exact { alike with stats := by simp [alike.stats] }

private theorem reduceBy (alike : e.Alike e') (heads : h.shape = h'.shape) {p : Parser K V}
    {p' : Parser K' V'} (tables : p.table = p'.table) (token : K) (token' : K')
    (state production : Nat) :
    Lockstep more Engine.Alike (Engine.reduceBy p token h state e production)
      (Engine.reduceBy p' token' h' state e' production) := by
  unfold Engine.reduceBy
  rw [tables]
  rcases Head.reduction_of_shape alike.arena heads p'.table p.reducer p'.reducer production token
    token' with ⟨cause, failed, failed'⟩ | ⟨value, value', base, target, ends, reduced, reduced'⟩
  · simp only [failed, failed']
    exact .fault { alike with serial := congrArg (· + 1) alike.serial }
  · obtain ⟨new, arena⟩ := Head.replace_of_shape alike.arena
      (Head.fork_of_shape heads (congrArg (· + 1) alike.serial)) value value' base target ends
    obtain ⟨-, -, -, accepted, -⟩ := Head.shape_eq_iff.mp new
    simp only [reduced, reduced']
    rw [accepted]
    split
    · refine .ok { alike with
        arena := arena
        accepted := by simp [alike.accepted, new]
        serial := congrArg (· + 1) alike.serial
        stats := by simp [alike.stats] }
    · refine .ok { alike with
        arena := arena
        waiting := by simp [alike.waiting, new]
        serial := congrArg (· + 1) alike.serial
        stats := by simp [alike.stats] }

variable [Token K] [Token K'] {p : Parser K V} {p' : Parser K' V'} {token : K} {token' : K'}

private theorem stepHead (alike : e.Alike e') (heads : h.shape = h'.shape)
    (tables : p.table = p'.table) (tokens : Token.Alike token token') :
    Lockstep more Engine.Alike (Engine.stepHead p token e h) (Engine.stepHead p' token' e' h') := by
  have shifts : ∀ {e : Engine K V} {e' : Engine K' V'} (state : Nat) (targets : List Nat), e.Alike e' →
      (targets.foldl (Engine.shiftTo token h state) e).Alike
        (targets.foldl (Engine.shiftTo token' h' state) e') := by
    intro e e' state targets alike
    induction targets generalizing e e' with
    | nil => exact alike
    | cons target rest ih => exact ih (alike.shiftTo heads token token' state target)
  unfold Engine.stepHead
  rw [Arena.state_of_shape alike.arena, Head.top_of_shape heads, tables]
  cases e'.arena.state h'.top with
  | error cause => exact .fault alike
  | ok state =>
    simp only [tokens.classify]
    refine (Lockstep.foldlM_same _ (fun x y rule held => ?_) (shifts state _ alike)).bind
      fun x y held => .ok (held.conclude heads _)
    exact held.reduceBy heads tables token token' state rule

theorem pass (alike : e.Alike e') (tables : p.table = p'.table) (tokens : Token.Alike token token')
    {fuel fuel' : Nat} (le : fuel ≤ fuel') (enough : fuel < fuel' → more) :
    Lockstep more Engine.Alike (Engine.pass p token fuel e) (Engine.pass p' token' fuel' e') := by
  induction fuel generalizing e e' fuel' with
  | zero =>
    cases fuel' with
    | zero =>
      rw [Engine.pass, Engine.pass, isEmpty alike.heads]
      split
      · exact .ok alike
      · exact .exhausted
    | succ fuel' =>
      rw [Engine.pass, Engine.pass, isEmpty alike.heads]
      split
      · exact .ok alike
      · exact .short _ (enough (Nat.zero_lt_succ _))
  | succ fuel ih =>
    obtain ⟨fuel', rfl⟩ := Nat.exists_eq_add_of_le' (Nat.zero_lt_of_lt le)
    rw [Engine.pass, Engine.pass, isEmpty alike.heads]
    split
    · exact .ok alike
    · have emptied : Engine.Alike { e with heads := [] } { e' with heads := [] } :=
        { alike with heads := rfl }
      refine (Lockstep.foldlM (forall₂_of_map_eq_map alike.heads)
        (fun x y h h' held heads => held.stepHead heads tables tokens) emptied).bind fun x y held => ?_
      have turned : Engine.Alike { x with heads := x.waiting.reverse, waiting := [] }
          { y with heads := y.waiting.reverse, waiting := [] } :=
        { held with
          heads := by rw [List.map_reverse, held.waiting, List.map_reverse]
          waiting := rfl }
      exact ih turned (Nat.le_of_succ_le_succ le) fun lt => enough (Nat.succ_lt_succ lt)

private theorem deleteBefore (alike : e.Alike e') (heads : h.shape = h'.shape) :
    (Engine.deleteBefore token e h).Alike (Engine.deleteBefore token' e' h') := by
  have new := Head.repaired_of_shape
    (Head.fork_of_shape heads (congrArg (· + 1) alike.serial)) (some .unexpected) (Token.span token)
    (Token.span token') (some (Token.literal token)) (some (Token.literal token'))
  exact { alike with
    shifted := by simp [Engine.deleteBefore, new, alike.shifted]
    serial := congrArg (· + 1) alike.serial
    stats := by simp [Engine.deleteBefore, alike.stats] }

private theorem insertTo (alike : e.Alike e') (heads : h.shape = h'.shape) (terminal state target : Nat) :
    (Engine.insertTo p token terminal h state e target).Alike
      (Engine.insertTo p' token' terminal h' state e' target) := by
  obtain ⟨new, arena⟩ := Head.shift_of_shape alike.arena
    (Head.fork_of_shape heads (congrArg (· + 1) alike.serial))
    (Token.correction token terminal (p.table.describe terminal))
    (Token.correction token' terminal (p'.table.describe terminal)) target
  have repaired := Head.repaired_of_shape new (some .missing) (Token.span token)
    (Token.span token') (some (p.table.describe terminal)) (some (p'.table.describe terminal))
  exact { alike with
    arena := arena
    waiting := by simp [Engine.insertTo, repaired, alike.waiting]
    serial := congrArg (· + 1) alike.serial
    stats := by simp [Engine.insertTo, alike.stats] }

private def Queued (x : Engine K V × List Head) (y : Engine K' V' × List Head) : Prop :=
  x.1.Alike y.1 ∧ x.2.map Head.shape = y.2.map Head.shape

omit [Token K] [Token K'] in
private theorem prepareBy {queue queue' : List Head} (alike : e.Alike e')
    (queued : queue.map Head.shape = queue'.map Head.shape) (heads : h.shape = h'.shape)
    (tables : p.table = p'.table) (production : Nat) :
    Lockstep more Queued (Engine.prepareBy p token h (e, queue) production)
      (Engine.prepareBy p' token' h' (e', queue') production) := by
  unfold Engine.prepareBy
  rw [tables]
  rcases Head.reduction_of_shape alike.arena heads p'.table p.reducer p'.reducer production token
    token' with ⟨cause, failed, failed'⟩ | ⟨value, value', base, target, ends, reduced, reduced'⟩
  · simp only [failed, failed']
    exact .fault { alike with serial := congrArg (· + 1) alike.serial }
  · obtain ⟨new, arena⟩ := Head.replace_of_shape alike.arena
      (Head.fork_of_shape heads (congrArg (· + 1) alike.serial)) value value' base target ends
    obtain ⟨-, -, -, accepted, -⟩ := Head.shape_eq_iff.mp new
    simp only [reduced, reduced']
    rw [accepted]
    refine .ok ⟨{ alike with
      arena := arena
      serial := congrArg (· + 1) alike.serial
      stats := by simp [alike.stats] }, ?_⟩
    dsimp only
    split
    · exact queued
    · rw [List.map_append, List.map_append, queued, List.map_singleton, List.map_singleton, new]

private theorem insertAt {terminal : Nat} {queue queue' : List Head}
    (alike : e.Alike e') (queued : queue.map Head.shape = queue'.map Head.shape)
    (heads : h.shape = h'.shape) (tables : p.table = p'.table) :
    Lockstep more Queued (Engine.insertAt p token terminal (e, queue) h)
      (Engine.insertAt p' token' terminal (e', queue') h') := by
  have inserts : ∀ {e : Engine K V} {e' : Engine K' V'} (state : Nat) (targets : List Nat),
      e.Alike e' → (targets.foldl (Engine.insertTo p token terminal h state) e).Alike
        (targets.foldl (Engine.insertTo p' token' terminal h' state) e') := by
    intro e e' state targets alike
    induction targets generalizing e e' with
    | nil => exact alike
    | cons target rest ih => exact ih (alike.insertTo heads terminal state target)
  unfold Engine.insertAt
  dsimp only
  rw [Arena.state_of_shape alike.arena, Head.top_of_shape heads, tables]
  cases e'.arena.state h'.top with
  | error cause => exact .fault alike
  | ok state =>
    exact Lockstep.foldlM_same (R := Queued) _
      (fun x y rule held => prepareBy held.1 held.2 heads tables rule) ⟨inserts state _ alike, queued⟩

theorem insertAll {terminal : Nat} {x : Engine K V × List Head} {y : Engine K' V' × List Head}
    (alike : Queued x y) (tables : p.table = p'.table) {fuel fuel' : Nat} (le : fuel ≤ fuel')
    (enough : fuel < fuel' → more) :
    Lockstep more Engine.Alike (Engine.insertAll p token terminal fuel x)
      (Engine.insertAll p' token' terminal fuel' y) := by
  induction fuel generalizing x y fuel' with
  | zero =>
    cases fuel' with
    | zero =>
      rw [Engine.insertAll, Engine.insertAll, isEmpty alike.2]
      split
      · exact .ok alike.1
      · exact .exhausted
    | succ fuel' =>
      rw [Engine.insertAll, Engine.insertAll, isEmpty alike.2]
      split
      · exact .ok alike.1
      · exact .short _ (enough (Nat.zero_lt_succ _))
  | succ fuel ih =>
    obtain ⟨fuel', rfl⟩ := Nat.exists_eq_add_of_le' (Nat.zero_lt_of_lt le)
    rw [Engine.insertAll, Engine.insertAll, isEmpty alike.2]
    split
    · exact .ok alike.1
    · have emptied : Queued (x.1, []) (y.1, []) := ⟨alike.1, rfl⟩
      refine (Lockstep.foldlM (forall₂_of_map_eq_map alike.2)
        (fun x y h h' held heads => insertAt held.1 held.2 heads tables) emptied).bind fun x y held => ?_
      exact ih held (Nat.le_of_succ_le_succ le) fun lt => enough (Nat.succ_lt_succ lt)

theorem repair (alike : e.Alike e') (heads : h.shape = h'.shape) (tables : p.table = p'.table)
    (tokens : Token.Alike token token') {fuel fuel' : Nat} (le : fuel ≤ fuel')
    (enough : fuel < fuel' → more) :
    Lockstep more Engine.Alike (Engine.repair fuel p token e h)
      (Engine.repair fuel' p' token' e' h') := by
  unfold Engine.repair
  rw [tables, tokens.isEnd]
  refine Lockstep.foldlM_same _ (fun x y terminal held => ?_) ?_
  · have alone : Queued (x, [h]) (y, [h']) := ⟨held, congrArg (fun shape => [shape]) heads⟩
    exact insertAll alone tables le enough
  · split
    · exact alike
    · exact alike.deleteBefore heads

omit [Token K] [Token K'] in
private theorem recordMerges (alike : e.Alike e') {pairs pairs' : List (Head × Head)}
    (count : pairs.length = pairs'.length) :
    (e.recordMerges pairs).Alike (e'.recordMerges pairs') := by
  obtain ⟨journal, eq⟩ := e.recordMerges_eq pairs
  obtain ⟨journal', eq'⟩ := e'.recordMerges_eq pairs'
  rw [eq, eq']
  exact { alike with stats := by simp [alike.stats, count] }

theorem recover (alike : e.Alike e') (tables : p.table = p'.table)
    (tokens : Token.Alike token token') {fuel fuel' : Nat} (le : fuel ≤ fuel')
    (enough : fuel < fuel' → more) :
    Lockstep more Engine.Alike (Engine.recover Merged.ofHeads fuel p token e)
      (Engine.recover Merged.ofHeads fuel' p' token' e') := by
  unfold Engine.recover
  have started : Engine.Alike
      { e.record (.recovering e.stranded.reverse.length (Token.literal token) (Token.span token)) with
        stranded := [] }
      { e'.record (.recovering e'.stranded.reverse.length (Token.literal token') (Token.span token')) with
        stranded := [] } := { alike with stranded := rfl }
  refine (Lockstep.foldlM (pairs alike.stranded)
    (fun x y h h' held heads => held.repair heads tables tokens le enough) started).bind
      fun x y held => ?_
  have waiting : x.waiting.reverse.map Head.shape = y.waiting.reverse.map Head.shape := by
    rw [List.map_reverse, held.waiting, List.map_reverse]
  obtain ⟨merged, count⟩ := Merged.ofHeads_of_shape held.arena waiting
  refine .ok (recordMerges ?_ count)
  exact { held with heads := merged, waiting := rfl }

theorem advance (alike : e.Alike e') (tables : p.table = p'.table)
    (tokens : Token.Alike token token') {fuel fuel' rounds rounds' : Nat} (le : fuel ≤ fuel')
    (enough : fuel < fuel' → more) (le' : rounds ≤ rounds') (enough' : rounds < rounds' → more) :
    Lockstep more Engine.Alike (Engine.advance Merged.ofHeads fuel p token rounds e)
      (Engine.advance Merged.ofHeads fuel' p' token' rounds' e') := by
  have count : ∀ {heads heads' : List Head}, heads.map Head.shape = heads'.map Head.shape →
      heads.length = heads'.length := fun same => by simpa using congrArg List.length same
  induction rounds generalizing e e' rounds' with
  | zero =>
    cases rounds' with
    | zero => exact .exhausted
    | succ rounds' => exact .short _ (enough' (Nat.zero_lt_succ _))
  | succ rounds ih =>
    obtain ⟨rounds', rfl⟩ := Nat.exists_eq_add_of_le' (Nat.zero_lt_of_lt le')
    unfold Engine.advance
    refine (alike.pass tables tokens le enough).bind fun x y held => ?_
    rw [isEmpty held.shifted, isEmpty held.stranded, count alike.accepted, count held.accepted]
    split
    · exact .ok held
    · split
      · exact .ok { held with }
      · refine (held.recover tables tokens le enough).bind fun x y held => ?_
        exact ih held (Nat.le_of_succ_le_succ le') fun lt => enough' (Nat.succ_lt_succ lt)

omit [Token K] [Token K'] in
private theorem sweep (alike : e.Alike e') :
    Engine.Alike
      { e with
        arena := (e.arena.sweep e.roots).1
        stats := { e.stats with reclaimed := e.stats.reclaimed + (e.arena.sweep e.roots).2 } }
      { e' with
        arena := (e'.arena.sweep e'.roots).1
        stats := { e'.stats with reclaimed := e'.stats.reclaimed + (e'.arena.sweep e'.roots).2 } } := by
  have tops : ∀ {heads heads' : List Head}, heads.map Head.shape = heads'.map Head.shape →
      heads.map Head.top = heads'.map Head.top := fun same =>
    map_eq_map_of_forall₂ (forall₂_of_map_eq_map same) fun _ _ => Head.top_of_shape
  have roots : e.roots = e'.roots := by
    simp only [Engine.roots, List.map_append, tops alike.heads, tops alike.accepted]
  obtain ⟨arena, freed⟩ := Arena.sweep_of_shape alike.arena e'.roots
  rw [roots]
  exact { alike with arena := arena, stats := by simp [alike.stats, freed] }

omit [Token K] [Token K'] in
private theorem settle (alike : e.Alike e') :
    (e.settle Merged.ofHeads).Alike (e'.settle Merged.ofHeads) := by
  have reversed : e.shifted.reverse.map Head.shape = e'.shifted.reverse.map Head.shape := by
    rw [List.map_reverse, alike.shifted, List.map_reverse]
  obtain ⟨accepted, count⟩ := Merged.ofHeads_of_shape alike.arena alike.accepted
  obtain ⟨shifted, count'⟩ := Merged.ofHeads_of_shape alike.arena reversed
  have merged := recordMerges (recordMerges alike count) count'
  exact { sweep (show Engine.Alike
    { (e.recordMerges _).recordMerges _ with
      heads := _, shifted := [], stranded := [], accepted := _ }
    { (e'.recordMerges _).recordMerges _ with
      heads := _, shifted := [], stranded := [], accepted := _ } from
    { merged with heads := shifted, shifted := rfl, stranded := rfl, accepted := accepted }) with }

omit [Token K] [Token K'] in
private theorem abandon (alike : e.Alike e') (accepted : Nat) (cause : Fault) :
    (e.abandon accepted token cause).Alike (e'.abandon accepted token' cause) := by
  have kept : (e.accepted.take accepted).map Head.shape =
      (e'.accepted.take accepted).map Head.shape := by
    rw [List.map_take, alike.accepted, List.map_take]
  exact { sweep (show Engine.Alike
    { e with heads := [], waiting := [], shifted := [], stranded := [], accepted := _ }
    { e' with heads := [], waiting := [], shifted := [], stranded := [], accepted := _ } from
    { alike with
      heads := rfl, waiting := rfl, shifted := rfl, stranded := rfl, accepted := kept }) with }

theorem input (alike : e.Alike e') (tables : p.table = p'.table)
    (tokens : Token.Alike token token') {fuel fuel' : Nat} (le : fuel ≤ fuel')
    (enough : fuel < fuel' → more) :
    Lockstep more Engine.Alike (e.input fuel p token) (e'.input fuel' p' token') := by
  have begun : e.begun.Alike e'.begun :=
    { alike with stats := by simp [Engine.begun, alike.stats] }
  have count : e.accepted.length = e'.accepted.length := by
    simpa using congrArg List.length alike.accepted
  have advanced := begun.advance tables tokens le enough le enough
  unfold Engine.input Engine.inputWith
  simp only [count]
  unfold Engine.begun at advanced
  generalize Engine.advance Merged.ofHeads fuel p token fuel _ = r at advanced ⊢
  generalize Engine.advance Merged.ofHeads fuel' p' token' fuel' _ = r' at advanced ⊢
  cases advanced with
  | ok held => exact .ok held.settle
  | fault held => exact .fault (held.abandon _ _)
  | exhausted => exact .exhausted
  | short _ held => exact .short _ held

end Engine.Alike

section Runs

variable [Token K] [Token K'] {p : Parser K V} {p' : Parser K' V'} {token : K} {token' : K'}
  {e after : Engine K V} {e' after' : Engine K' V'} {ended ended' : Bool}

omit [Token K] [Token K'] in
theorem Engine.Alike.symm (alike : e.Alike e') : e'.Alike e :=
  ⟨alike.arena.symm, alike.heads.symm, alike.waiting.symm, alike.shifted.symm, alike.stranded.symm,
    alike.accepted.symm, alike.serial.symm, alike.stats.symm⟩

/-- How a call ended that had the fuel for it: with the fault if there was one, and with an engine. -/
inductive Engine.Ends : Option Fault → Engine K V → Except (Halt K V) (Engine K V) → Prop
  | ok (e : Engine K V) : Engine.Ends none e (.ok e)
  | fault (cause : Fault) (e : Engine K V) : Engine.Ends (some cause) e (.error (.fault cause e))

omit [Token K'] in
theorem Engine.Takes.exists_ends (takes : e.Takes Merged.ofHeads p token ended after) :
    ∃ fuel cause, Engine.Ends cause after (e.input fuel p token) ∧ ended = cause.isNone := by
  cases takes with
  | @ok fuel _ run => exact ⟨fuel, none, (show e.input fuel p token = _ from run) ▸ .ok after, rfl⟩
  | @fault fuel cause _ run =>
    exact ⟨fuel, some cause, (show e.input fuel p token = _ from run) ▸ .fault cause after, rfl⟩

omit [Token K] [Token K'] in
private theorem Lockstep.ends {more : Prop} {r : Except (Halt K V) (Engine K V)}
    {r' : Except (Halt K' V') (Engine K' V')} (runs : Lockstep more Engine.Alike r r')
    {cause cause' : Option Fault} (ends : Engine.Ends cause after r)
    (ends' : Engine.Ends cause' after' r') : cause = cause' ∧ after.Alike after' := by
  cases ends with
  | ok =>
    cases runs with
    | ok held =>
      cases ends'
      exact ⟨rfl, held⟩
  | fault =>
    cases runs with
    | fault held =>
      cases ends'
      exact ⟨rfl, held⟩

/-- Calls with tokens that are taken for the same end with the same fault or without one, whatever fuel
they had. -/
theorem Engine.Alike.ends (alike : e.Alike e') (tables : p.table = p'.table)
    (tokens : Token.Alike token token') {fuel fuel' : Nat} {cause cause' : Option Fault}
    (ends : Engine.Ends cause after (e.input fuel p token))
    (ends' : Engine.Ends cause' after' (e'.input fuel' p' token')) :
    cause = cause' ∧ after.Alike after' := by
  rcases Nat.le_total fuel fuel' with le | le
  · exact (alike.input tables tokens le fun lt => lt).ends ends ends'
  · have swapped : Token.Alike token' token :=
      ⟨tokens.terminal.symm, fun channel => (tokens.terminalIn channel).symm, tokens.isEnd.symm⟩
    obtain ⟨same, held⟩ := (alike.symm.input tables.symm swapped le fun lt => lt).ends ends' ends
    exact ⟨same.symm, held.symm⟩

theorem Engine.Alike.takes (alike : e.Alike e') (tables : p.table = p'.table)
    (tokens : Token.Alike token token') (takes : e.Takes Merged.ofHeads p token ended after)
    (takes' : e'.Takes Merged.ofHeads p' token' ended' after') :
    ended = ended' ∧ after.Alike after' := by
  obtain ⟨fuel, cause, ends, rfl⟩ := takes.exists_ends
  obtain ⟨fuel', cause', ends', rfl⟩ := takes'.exists_ends
  obtain ⟨rfl, held⟩ := alike.ends tables tokens ends ends'
  exact ⟨rfl, held⟩

theorem Engine.Alike.exists_takes (alike : e.Alike e') (tables : p.table = p'.table)
    (tokens : Token.Alike token token') (takes : e.Takes Merged.ofHeads p token ended after) :
    ∃ after', e'.Takes Merged.ofHeads p' token' ended after' ∧ after.Alike after' := by
  have lockstep : ∀ fuel, Lockstep False Engine.Alike (e.input fuel p token)
      (e'.input fuel p' token') := fun fuel =>
    alike.input tables tokens (Nat.le_refl fuel) (Nat.lt_irrefl fuel)
  cases takes with
  | @ok fuel _ run =>
    have runs := lockstep fuel
    rw [show e.input fuel p token = _ from run] at runs
    generalize run' : e'.input fuel p' token' = r at runs
    cases runs with
    | ok held => exact ⟨_, .ok run', held⟩
  | @fault fuel cause _ run =>
    have runs := lockstep fuel
    rw [show e.input fuel p token = _ from run] at runs
    generalize run' : e'.input fuel p' token' = r at runs
    cases runs with
    | fault held => exact ⟨_, .fault run', held⟩

omit [Token K] [Token K'] in
theorem Engine.alike_start : (Engine.start : Engine K V).Alike (Engine.start : Engine K' V') :=
  have root := Arena.push_of_shape (show ({} : Arena K V).shape = ({} : Arena K' V').shape
      by simp [Arena.shape]) 0
    (show (none : Option (Content K V)).map Content.shape =
      (none : Option (Content K' V')).map Content.shape from rfl) none
  ⟨root.1, rfl, rfl, rfl, rfl, rfl, rfl, rfl⟩

variable {tokens : List K} {tokens' : List K'} {answers answers' : List Bool}

private theorem Engine.Answers.of_alike (tables : p.table = p'.table)
    (same : List.Forall₂ Token.Alike tokens tokens') (alike : e.Alike e')
    (run : Engine.Answers Merged.ofHeads p tokens answers e after) :
    (∃ after', Engine.Answers Merged.ofHeads p' tokens' answers e' after') ∧
      ∀ answers' after', Engine.Answers Merged.ofHeads p' tokens' answers' e' after' →
        answers' = answers ∧ after.Alike after' := by
  induction run generalizing e' tokens' with
  | nil e =>
    cases same
    refine ⟨⟨e', .nil e'⟩, fun answers' after' run' => ?_⟩
    cases run'
    exact ⟨rfl, alike⟩
  | cons takes _ ih =>
    cases same with
    | cons token rest =>
      obtain ⟨next', takes', held⟩ := alike.exists_takes tables token takes
      obtain ⟨⟨after', run'⟩, -⟩ := ih rest held
      refine ⟨⟨after', .cons takes' run'⟩, fun answers' after' run' => ?_⟩
      cases run' with
      | cons takes' run' =>
        obtain ⟨rfl, held⟩ := alike.takes tables token takes takes'
        obtain ⟨rfl, held⟩ := (ih rest held).2 _ _ run'
        exact ⟨rfl, held⟩

/-- Values never steer a parse. With tokens that are taken for the same, an engine with the same table
but other actions answers alike, with the same faults, and is then of the same shape: it has the same
nodes, the same heads in the same order and the same counts. -/
theorem Engine.Answers.blind (tables : p.table = p'.table)
    (same : List.Forall₂ Token.Alike tokens tokens')
    (run : Engine.Answers Merged.ofHeads p tokens answers .start e) :
    (∃ e', Engine.Answers Merged.ofHeads p' tokens' answers .start e') ∧
    ∀ answers' e', Engine.Answers Merged.ofHeads p' tokens' answers' .start e' →
      answers' = answers ∧ e.Alike e' ∧
      ∀ token token', Token.Alike token token' → ∀ fuel fuel' cause cause' stopped stopped',
        e.input fuel p token = .error (.fault cause stopped) →
          e'.input fuel' p' token' = .error (.fault cause' stopped') → cause = cause' := by
  obtain ⟨found, unique⟩ := run.of_alike tables same Engine.alike_start
  refine ⟨found, fun answers' e' run' => ?_⟩
  obtain ⟨answered, alike⟩ := unique answers' e' run'
  refine ⟨answered, alike, fun token token' tokens fuel fuel' cause cause' stopped stopped' failed
    failed' => ?_⟩
  have ends : Engine.Ends (some cause) stopped (e.input fuel p token) := failed ▸ .fault cause stopped
  have ends' : Engine.Ends (some cause') stopped' (e'.input fuel' p' token') :=
    failed' ▸ .fault cause' stopped'
  exact Option.some.inj (alike.ends tables tokens ends ends').1

end Runs

def Word.gotolessCount : Parser Word Nat where
  table := Word.gotoless.table
  reducer := fun production values _ => production + values.length

def Word.others : List Word :=
  [{ terminal := 0, text := "b" }, { terminal := 0, text := "c" }, { terminal := 0, text := "d" }]

theorem Engine.Answers.blind_gotoless : ∃ e e',
    Engine.Answers Merged.ofHeads Word.gotoless [Word.a, Word.a, Word.a] [true, true, false] .start e ∧
      Engine.Answers Merged.ofHeads Word.gotolessCount Word.others [true, true, false] .start e' ∧
        e.Alike e' ∧ e.result 0 = .ok "a" ∧ e'.result 0 = .ok 1 := by
  obtain ⟨e, next, cause, after, first, second, last, result⟩ : ∃ e next cause after,
      Engine.start.input 9 Word.gotoless Word.a = .ok e ∧ e.input 9 Word.gotoless Word.a = .ok next ∧
        next.input 9 Word.gotoless Word.a = .error (.fault cause after) ∧
          after.result 0 = .ok "a" := ⟨_, _, _, _, rfl, rfl, rfl, rfl⟩
  obtain ⟨u, next', cause', after', first', second', last', result'⟩ : ∃ u next' cause' after',
      Engine.start.input 9 Word.gotolessCount ⟨0, "b", none, false, []⟩ = .ok u ∧
        u.input 9 Word.gotolessCount ⟨0, "c", none, false, []⟩ = .ok next' ∧
          next'.input 9 Word.gotolessCount ⟨0, "d", none, false, []⟩ = .error (.fault cause' after') ∧
            after'.result 0 = .ok 1 := ⟨_, _, _, _, rfl, rfl, rfl, rfl⟩
  have run : Engine.Answers Merged.ofHeads Word.gotoless [Word.a, Word.a, Word.a] [true, true, false]
      .start after := .cons (.ok first) (.cons (.ok second) (.cons (.fault last) (.nil after)))
  have run' : Engine.Answers Merged.ofHeads Word.gotolessCount Word.others [true, true, false]
      .start after' := .cons (.ok first') (.cons (.ok second') (.cons (.fault last') (.nil after')))
  have word : ∀ text, Token.Alike Word.a { Word.a with text } := fun _ => ⟨rfl, fun _ => rfl, rfl⟩
  have same : List.Forall₂ Token.Alike [Word.a, Word.a, Word.a] Word.others :=
    .cons (word "b") (.cons (word "c") (.cons (word "d") .nil))
  have tables : Word.gotoless.table = Word.gotolessCount.table := rfl
  exact ⟨after, after', run, run', ((run.blind tables same).2 _ _ run').2.1, result, result'⟩

end GeneralizedLR
