import GeneralizedLR.Proofs.Engine.Reductions

/-!
What holds of the arena throughout a call. Until its end a call changes the arena only by pushes: of
tokens, and of what the reductions yield to which it comes. So what each of these pushes keeps holds
whenever the call comes to a reduction.
-/

set_option autoImplicit false
set_option relaxedAutoImplicit false

namespace GeneralizedLR

variable {K V : Type} [Token K]

def Arena.KeptByTokens (I : Arena K V → Prop) : Prop :=
  ∀ a state (token : K) below, I a → I (a.push state (some (.lexeme token)) below).1

/-- Reducing `production` at the head `h` keeps what is said of the arena. -/
def Engine.KeepsAt (p : Parser K V) (token : K) (I : Arena K V → Prop) (h : Head) (production : Nat)
    (x : Engine K V) : Prop :=
  ∀ r, h.reduction x.arena p.table p.reducer production token = .ok r → I x.arena →
    I (x.arena.push r.state (some (.reduced r.value)) (some r.base)).1

namespace Engine

variable {p : Parser K V} {token : K} {I : Arena K V → Prop} {e : Engine K V}

omit [Token K] in
private theorem shiftAll_keeps (tokens : Arena.KeptByTokens I) (held : I e.arena) (h : Head)
    (state : Nat) (targets : List Nat) : I (targets.foldl (shiftTo token h state) e).arena := by
  induction targets generalizing e with
  | nil => exact held
  | cons target targets ih => exact ih (tokens e.arena target token (some h.top) held)

omit [Token K] in
private theorem reduceBy_keeps {h : Head} {state production : Nat} {z : Engine K V}
    (keeps : e.KeepsAt p token I h production) (held : I e.arena)
    (run : e.reduceBy p token h state production = .ok z) : I z.arena := by
  unfold reduceBy at run
  dsimp only at run
  split at run
  · cases run
  · next r made =>
    have pushed := keeps r made held
    split at run
    · cases run
      exact pushed
    · cases run
      exact pushed

omit [Token K] in
private theorem conclude_arena (e : Engine K V) (h : Head) (actions : Nat) :
    (e.conclude h actions).arena = e.arena := by
  unfold conclude
  split <;> rfl

private theorem stepHead_throughout (tokens : Arena.KeptByTokens I) (held : I e.arena) {h : Head}
    (keeps : ∀ production x, e.StepReduces p token h production x →
      x.KeepsAt p token I h production) :
    (∀ production x, e.StepReduces p token h production x → I x.arena) ∧
      ∀ z, stepHead p token e h = .ok z → I z.arena := by
  cases top : e.arena.state h.top with
  | error cause =>
    constructor
    · rintro production x ⟨state, found, -⟩
      cases top.symm.trans found
    · intro z run
      simp only [stepHead, top] at run
      cases run
  | ok state =>
    obtain ⟨rounds, ends⟩ := ComesTo.invariant (fun y : Engine K V => I y.arena)
      (shiftAll_keeps tokens held h state
        (p.table.shifts state (Token.classify (p.table.shiftChannel? state) token)))
      fun production y z comes held one =>
        reduceBy_keeps (keeps production y ⟨state, top, comes⟩) held one
    constructor
    · rintro production x ⟨state', found, comes⟩
      cases top.symm.trans found
      exact rounds production x comes
    · intro z run
      simp only [stepHead, top] at run
      obtain ⟨y, reduced, rest⟩ := exists_of_bind_eq_ok run
      cases rest
      rw [conclude_arena]
      exact ends y reduced

private theorem pass_throughout (tokens : Arena.KeptByTokens I) (held : I e.arena) {fuel : Nat}
    (keeps : ∀ h production x, PassReduces p token h production x fuel e →
      x.KeepsAt p token I h production) :
    (∀ h production x, PassReduces p token h production x fuel e → I x.arena) ∧
      ∀ z, e.pass p token fuel = .ok z → I z.arena := by
  induction fuel generalizing e with
  | zero =>
    constructor
    · intro h production x reduces
      cases reduces
    · intro z run
      unfold pass at run
      split at run
      · cases run
        exact held
      · cases run
  | succ fuel ih =>
    have turn : ∀ h y, ComesTo (stepHead p token) e.heads { e with heads := [] } h y →
        I y.arena → (∀ production x, y.StepReduces p token h production x → I x.arena) ∧
          ∀ z, stepHead p token y h = .ok z → I z.arena :=
      fun h y comes held => stepHead_throughout tokens held fun production x steps =>
        keeps h production x (.here comes steps)
    obtain ⟨rounds, ends⟩ := ComesTo.invariant (fun y : Engine K V => I y.arena)
      (show I { e with heads := [] }.arena from held)
      fun h y z comes held one => (turn h y comes held).2 z one
    have behind : ∀ y, e.heads ≠ [] →
        e.heads.foldlM (stepHead p token) { e with heads := [] } = .ok y → _ :=
      fun y some run => @ih { y with heads := y.waiting.reverse, waiting := [] } (ends y run)
        fun h production x reduces => keeps h production x (.later some run reduces)
    constructor
    · intro h production x reduces
      cases reduces with
      | here comes steps => exact (turn _ _ comes (rounds _ _ comes)).1 production x steps
      | later some run reduces => exact (behind _ some run).1 h production x reduces
    · intro z run
      unfold pass at run
      split at run
      · cases run
        exact held
      · next some =>
        obtain ⟨y, stepped, rest⟩ := exists_of_bind_eq_ok run
        exact (behind y (by simpa using some) stepped).2 z rest

private theorem insertEach_keeps (tokens : Arena.KeptByTokens I) (held : I e.arena) (terminal : Nat)
    (h : Head) (state : Nat) (targets : List Nat) :
    I (targets.foldl (insertTo p token terminal h state) e).arena := by
  induction targets generalizing e with
  | nil => exact held
  | cons target targets ih => exact ih (tokens e.arena target _ (some h.top) held)

omit [Token K] in
private theorem prepareBy_keeps {h : Head} {production : Nat} {y z : Engine K V × List Head}
    (keeps : y.1.KeepsAt p token I h production) (held : I y.1.arena)
    (run : prepareBy p token h y production = .ok z) : I z.1.arena := by
  unfold prepareBy at run
  dsimp only at run
  split at run
  · cases run
  · next r made =>
    cases run
    exact keeps r made held

private theorem insertAt_throughout (tokens : Arena.KeptByTokens I) {terminal : Nat}
    {y : Engine K V × List Head} (held : I y.1.arena) {h : Head}
    (keeps : ∀ production x, InsertAtReduces p token terminal y h production x →
      x.KeepsAt p token I h production) :
    (∀ production x, InsertAtReduces p token terminal y h production x → I x.arena) ∧
      ∀ z, insertAt p token terminal y h = .ok z → I z.1.arena := by
  cases top : y.1.arena.state h.top with
  | error cause =>
    constructor
    · rintro production x ⟨state, queue, found, -⟩
      cases top.symm.trans found
    · intro z run
      simp only [insertAt, top] at run
      cases run
  | ok state =>
    obtain ⟨rounds, ends⟩ := ComesTo.invariant (fun z : Engine K V × List Head => I z.1.arena)
      (x := ((p.table.shifts state terminal).foldl (insertTo p token terminal h state) y.1, y.2))
      (insertEach_keeps tokens held terminal h state (p.table.shifts state terminal))
      fun production w z comes held one =>
        prepareBy_keeps (keeps production w.1 ⟨state, w.2, top, comes⟩) held one
    constructor
    · rintro production x ⟨state', queue, found, comes⟩
      cases top.symm.trans found
      exact rounds production _ comes
    · intro z run
      simp only [insertAt, top] at run
      exact ends z run

private theorem insertAll_throughout (tokens : Arena.KeptByTokens I) {terminal fuel : Nat}
    {y : Engine K V × List Head} (held : I y.1.arena)
    (keeps : ∀ h production x, InsertAllReduces p token terminal h production x fuel y →
      x.KeepsAt p token I h production) :
    (∀ h production x, InsertAllReduces p token terminal h production x fuel y → I x.arena) ∧
      ∀ z, insertAll p token terminal fuel y = .ok z → I z.arena := by
  induction fuel generalizing y with
  | zero =>
    constructor
    · intro h production x reduces
      cases reduces
    · intro z run
      unfold insertAll at run
      split at run
      · cases run
        exact held
      · cases run
  | succ fuel ih =>
    have turn : ∀ h w, ComesTo (insertAt p token terminal) y.2 (y.1, []) h w → I w.1.arena →
        (∀ production x, InsertAtReduces p token terminal w h production x → I x.arena) ∧
          ∀ z, insertAt p token terminal w h = .ok z → I z.1.arena :=
      fun h w comes held => insertAt_throughout tokens held fun production x inserts =>
        keeps h production x (.here comes inserts)
    obtain ⟨rounds, ends⟩ := ComesTo.invariant (fun w : Engine K V × List Head => I w.1.arena)
      (x := (y.1, [])) held fun h w z comes held one => (turn h w comes held).2 z one
    have behind : ∀ w, y.2 ≠ [] → y.2.foldlM (insertAt p token terminal) (y.1, []) = .ok w → _ :=
      fun w some run => ih (ends w run) fun h production x reduces =>
        keeps h production x (.later some run reduces)
    constructor
    · intro h production x reduces
      cases reduces with
      | here comes inserts => exact (turn _ _ comes (rounds _ _ comes)).1 production x inserts
      | later some run reduces => exact (behind _ some run).1 h production x reduces
    · intro z run
      unfold insertAll at run
      split at run
      · cases run
        exact held
      · next some =>
        obtain ⟨w, inserted, rest⟩ := exists_of_bind_eq_ok run
        exact (behind w (by simpa using some) inserted).2 z rest

private theorem repair_throughout (tokens : Arena.KeptByTokens I) (held : I e.arena) {fuel : Nat}
    {first : Head}
    (keeps : ∀ h production x, RepairReduces p token fuel e first h production x →
      x.KeepsAt p token I h production) :
    (∀ h production x, RepairReduces p token fuel e first h production x → I x.arena) ∧
      ∀ z, repair fuel p token e first = .ok z → I z.arena := by
  have dropped : I (if Token.isEnd token then e else e.deleteBefore token first).arena := by
    split
    · exact held
    · exact held
  have turn : ∀ terminal y,
      ComesTo (fun e terminal => insertAll p token terminal fuel (e, [first])) p.table.insertable
        (if Token.isEnd token then e else e.deleteBefore token first) terminal y → I y.arena → _ :=
    fun terminal y comes held => insertAll_throughout (y := (y, [first])) tokens held
      fun h production x inserts => keeps h production x ⟨terminal, y, comes, inserts⟩
  obtain ⟨rounds, ends⟩ := ComesTo.invariant (fun y : Engine K V => I y.arena) dropped
    fun terminal y z comes held one => (turn terminal y comes held).2 z one
  constructor
  · rintro h production x ⟨terminal, y, comes, inserts⟩
    exact (turn terminal y comes (rounds terminal y comes)).1 h production x inserts
  · exact ends

private theorem recover_throughout (tokens : Arena.KeptByTokens I) (held : I e.arena) {fuel : Nat}
    (merge : Arena K V → List Head → Merged)
    (keeps : ∀ h production x, RecoverReduces p token fuel e h production x →
      x.KeepsAt p token I h production) :
    (∀ h production x, RecoverReduces p token fuel e h production x → I x.arena) ∧
      ∀ z, e.recover merge fuel p token = .ok z → I z.arena := by
  have turn : ∀ first y, ComesTo (repair fuel p token) e.stranded.reverse
      { e.record (.recovering e.stranded.reverse.length (Token.literal token) (Token.span token)) with
        stranded := [] } first y → I y.arena → _ :=
    fun first y comes held => repair_throughout tokens held fun h production x repairs =>
      keeps h production x ⟨first, y, comes, repairs⟩
  obtain ⟨rounds, ends⟩ := ComesTo.invariant (fun y : Engine K V => I y.arena)
    (x := { e.record (.recovering e.stranded.reverse.length (Token.literal token)
      (Token.span token)) with stranded := [] }) held
    fun first y z comes held one => (turn first y comes held).2 z one
  constructor
  · rintro h production x ⟨first, y, comes, repairs⟩
    exact (turn first y comes (rounds first y comes)).1 h production x repairs
  · intro z run
    obtain ⟨y, repaired, rest⟩ := exists_of_bind_eq_ok run
    cases rest
    rw [recordMerges_arena]
    exact ends y repaired

private theorem advance_throughout (tokens : Arena.KeptByTokens I) (held : I e.arena)
    {merge : Arena K V → List Head → Merged} {fuel rounds : Nat}
    (keeps : ∀ h production x, AdvanceReduces p token merge fuel h production x rounds e →
      x.KeepsAt p token I h production) :
    ∀ h production x, AdvanceReduces p token merge fuel h production x rounds e → I x.arena := by
  induction rounds generalizing e with
  | zero =>
    intro h production x reduces
    cases reduces
  | succ rounds ih =>
    intro h production x reduces
    obtain ⟨during, passes⟩ := pass_throughout tokens held fun h production x reduces =>
      keeps h production x (.pass reduces)
    cases reduces with
    | pass reduces => exact during h production x reduces
    | recover run quiet idle reduces =>
      exact (recover_throughout tokens (passes _ run) merge fun h production x reduces =>
        keeps h production x (.recover run quiet idle reduces)).1 h production x reduces
    | later run quiet idle stuck again reduces =>
      have recovers := recover_throughout tokens (passes _ run) merge
        fun h production x reduces => keeps h production x (.recover run quiet idle reduces)
      exact ih (recovers.2 _ again) (fun h production x reduces =>
        keeps h production x (.later run quiet idle stuck again reduces)) h production x reduces

/-- What is said of the arena before a call, and kept by the pushes of tokens and by all reductions
that the call comes to, holds whenever it comes to one. -/
theorem Reduces.throughout (tokens : Arena.KeptByTokens I) (held : I e.arena)
    (keeps : ∀ h production x, e.Reduces p token h production x → x.KeepsAt p token I h production)
    {h : Head} {production : Nat} {x : Engine K V} (reduces : e.Reduces p token h production x) :
    I x.arena := by
  obtain ⟨fuel, advances⟩ := reduces
  exact advance_throughout tokens (show I e.begun.arena from held)
    (fun h production x advances => keeps h production x ⟨fuel, advances⟩) h production x advances

end Engine

end GeneralizedLR
