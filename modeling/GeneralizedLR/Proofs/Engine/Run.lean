import GeneralizedLR.Proofs.Engine.Contract
import GeneralizedLR.Proofs.Engine.InputSimulation

/-!
Runs over many tokens. Whatever an engine reaches from its start, also after a fault, it shows a
branching that was reached in the same way, and what a contract passes on at every token holds of all
branches of that branching.
-/

set_option autoImplicit false
set_option relaxedAutoImplicit false

namespace GeneralizedLR

variable {K V : Type}

/-- Between two tokens every branch is live or accepted. -/
structure Branching.Idle (s : Branching K V) : Prop where
  waiting : s.waiting = []
  shifted : s.shifted = []
  stranded : s.stranded = []

theorem Branching.idle_start : (Branching.start : Branching K V).Idle := ⟨rfl, rfl, rfl⟩

variable [Token K]

theorem Branching.Idle.input {s after : Branching K V} (idle : s.Idle)
    {policy : List (Branch K V) → List (Branch K V) × Nat} {fuel : Nat} {p : Parser K V} {token : K}
    (run : s.input policy fuel p token = .ok after) : after.Idle := by
  obtain ⟨advanced, moved, settled⟩ := exists_of_bind_eq_ok run
  cases settled
  have waiting : advanced.waiting = [] := Branching.advance_eq_ok moved idle.waiting
  exact ⟨waiting, rfl, rfl⟩

omit [Token K] in
/-- Between two tokens only the live and the accepted branches have properties. -/
theorem Branching.Idle.meets {s : Branching K V} (idle : s.Idle)
    {live waiting shifted accepted : Branch K V → Prop} (lives : ∀ b ∈ s.live, live b)
    (accepts : ∀ b ∈ s.accepted, accepted b) (stats : Stats) :
    { s with stats }.Meets live waiting shifted accepted where
  alive := lives
  waits := by simp [idle.waiting]
  gone := by simp [idle.shifted]
  stuck := by simp [idle.stranded]
  done := accepts

omit [Token K] in
theorem Branching.Idle.sorted {s : Branching K V} (idle : s.Idle)
    {live shifted stranded accepted : Branch K V → Prop} (lives : ∀ b ∈ s.live, live b)
    (accepts : ∀ b ∈ s.accepted, accepted b) (stats : Stats) :
    { s with stats }.Sorted live shifted stranded accepted where
  alive := lives
  waits := by simp [idle.waiting]
  gone := by simp [idle.shifted]
  stuck := by simp [idle.stranded]
  done := accepts

theorem Branching.Contract.input {p : Parser K V} {token : K} {live : Branch K V → Prop}
    {queued : Nat → Branch K V → Prop} {shifted accepted : Branch K V → Prop}
    (contract : Branching.Contract p token live queued live shifted accepted)
    {policy : List (Branch K V) → List (Branch K V) × Nat} (selects : Selects policy)
    {s after : Branching K V} (idle : s.Idle) (lives : ∀ b ∈ s.live, live b)
    (accepts : ∀ b ∈ s.accepted, accepted b) {fuel : Nat}
    (run : s.input policy fuel p token = .ok after) :
    (∀ b ∈ after.live, shifted b) ∧ ∀ b ∈ after.accepted, accepted b := by
  obtain ⟨advanced, moved, settled⟩ := exists_of_bind_eq_ok run
  cases settled
  have met := contract.advance selects
    (idle.meets lives accepts { s.stats with tokens := s.stats.tokens + 1 }) idle.waiting moved
  exact ⟨fun b member => met.gone b (selects _ b member),
    fun b member => met.done b (selects _ b member)⟩

def Branching.parse (policy : List (Branch K V) → List (Branch K V) × Nat) (fuel : Nat)
    (p : Parser K V) : List K → Branching K V → Except (Option Fault) (Branching K V)
  | [], s => .ok s
  | token :: rest, s => do
    let s ← s.input policy fuel p token
    Branching.parse policy fuel p rest s

theorem Branching.parse_append (policy : List (Branch K V) → List (Branch K V) × Nat) (fuel : Nat)
    (p : Parser K V) (past future : List K) (s : Branching K V) :
    Branching.parse policy fuel p (past ++ future) s =
      Branching.parse policy fuel p past s >>= Branching.parse policy fuel p future := by
  induction past generalizing s with
  | nil => rfl
  | cons token past ih =>
    rw [List.cons_append, Branching.parse, Branching.parse, bind_assoc]
    exact bind_congr fun s' => ih s'

theorem Engine.Shows.parse {merge : Arena K V → List Head → Merged}
    {policy : List (Branch K V) → List (Branch K V) × Nat} (faithful : Faithful merge policy)
    {e : Engine K V} {s : Branching K V} (shows : e.Shows s) (idle : s.Idle) (fuel : Nat)
    (p : Parser K V) (tokens : List K) :
    Agrees (fun e s => e.Shows s ∧ s.Idle) (fun _ => True)
      (Engine.parseWith merge fuel p tokens e) (Branching.parse policy fuel p tokens s) := by
  induction tokens generalizing e s with
  | nil => exact .ok ⟨shows, idle⟩
  | cons token rest ih =>
    have taken := shows.input faithful idle.waiting fuel p token
    exact (taken.right.imp (fun _ _ pair => pair) fun _ _ => trivial).bind
      fun e' s' ⟨shows', run⟩ => ih shows' (idle.input run)

/-- What an engine can be after it was given the tokens, some of which may have ended in a fault. -/
inductive Engine.Reached (p : Parser K V) : List K → Engine K V → Prop
  | start : Engine.Reached p [] .start
  | input {past : List K} {token : K} {fuel : Nat} {e e' : Engine K V} : Engine.Reached p past e →
      e.input fuel p token = .ok e' → Engine.Reached p (past ++ [token]) e'
  | fault {past : List K} {token : K} {fuel : Nat} {cause : Fault} {e e' : Engine K V} :
      Engine.Reached p past e → e.input fuel p token = .error (.fault cause e') →
        Engine.Reached p (past ++ [token]) e'

/-- A call with a token has returned and has left an engine behind; the flag tells whether the call
ended well or in a fault. -/
inductive Engine.Takes (merge : Arena K V → List Head → Merged) (p : Parser K V) (token : K)
    (e : Engine K V) : Bool → Engine K V → Prop
  | ok {fuel : Nat} {after : Engine K V} : Engine.inputWith merge fuel p token e = .ok after →
      Engine.Takes merge p token e true after
  | fault {fuel : Nat} {cause : Fault} {after : Engine K V} :
      Engine.inputWith merge fuel p token e = .error (.fault cause after) →
        Engine.Takes merge p token e false after

theorem Engine.Reached.takes {p : Parser K V} {past : List K} {token : K} {ended : Bool}
    {e after : Engine K V} (reached : Engine.Reached p past e)
    (takes : e.Takes Merged.ofHeads p token ended after) :
    Engine.Reached p (past ++ [token]) after := by
  cases takes with
  | ok run => exact reached.input run
  | fault run => exact reached.fault run

/-- What a branching can be after it was given the tokens. -/
inductive Branching.Reached (p : Parser K V) : List K → Branching K V → Prop
  | start : Branching.Reached p [] .start
  | input {past : List K} {token : K} {fuel : Nat} {s after : Branching K V} :
      Branching.Reached p past s → s.input Branch.merge fuel p token = .ok after →
        Branching.Reached p (past ++ [token]) after
  | fault {past : List K} {token : K} {s after : Branching K V} :
      Branching.Reached p past s → s.Abandons after → Branching.Reached p (past ++ [token]) after

theorem Branching.Reached.idle {p : Parser K V} {past : List K} {s : Branching K V}
    (reached : Branching.Reached p past s) : s.Idle := by
  induction reached with
  | start => exact idle_start
  | input _ run ih => exact ih.input run
  | fault _ left => exact ⟨left.waiting, left.shifted, left.stranded⟩

theorem Branching.Reached.parse {p : Parser K V} {past tokens : List K} {fuel : Nat}
    {s after : Branching K V} (reached : Branching.Reached p past s)
    (run : Branching.parse Branch.merge fuel p tokens s = .ok after) :
    Branching.Reached p (past ++ tokens) after := by
  induction tokens generalizing past s with
  | nil =>
    cases run
    simpa using reached
  | cons token rest ih =>
    obtain ⟨next, taken, run⟩ := exists_of_bind_eq_ok run
    simpa using ih (reached.input taken) run

theorem Engine.exists_parse_of_parse {p : Parser K V} {tokens : List K} {fuel : Nat}
    {e : Engine K V} (run : Engine.parse fuel p tokens .start = .ok e) :
    ∃ s, Branching.parse Branch.merge fuel p tokens .start = .ok s ∧ e.Shows s := by
  have parsed := Engine.shows_start.parse faithful_ofHeads Branching.idle_start fuel p tokens
  obtain ⟨s, result, shows, -⟩ := parsed.exists_of_eq_ok run
  exact ⟨s, result, shows⟩

theorem Engine.exists_parse_of_branching {p : Parser K V} {tokens : List K} {fuel : Nat}
    {s : Branching K V} (run : Branching.parse Branch.merge fuel p tokens .start = .ok s) :
    ∃ e, Engine.parse fuel p tokens .start = .ok e ∧ e.Shows s := by
  have parsed := Engine.shows_start.parse faithful_ofHeads Branching.idle_start fuel p tokens
  obtain ⟨e, result, shows, -⟩ := parsed.exists_of_eq_ok_right run
  exact ⟨e, result, shows⟩

omit [Token K] in
theorem Engine.Shows.result {e : Engine K V} {s : Branching K V} (shows : e.Shows s)
    {b : Branch K V} (accepted : s.accepted = [b]) {state : Nat} {v : V} {below : List (Frame K V)}
    (frames : b.frames = ⟨state, .reduced v⟩ :: below) :
    ∃ head, e.accepted = [head] ∧ head.errors = b.errors ∧ e.result 0 = .ok v := by
  have heads := shows.accepted
  rw [accepted] at heads
  cases only : e.accepted with
  | nil =>
    rw [only] at heads
    cases heads
  | cons head rest =>
    rw [only] at heads
    obtain ⟨shown, none⟩ := List.forall₂_cons.mp heads
    obtain rfl := List.forall₂_nil_right_iff.mp none
    refine ⟨head, rfl, shown.errors, ?_⟩
    have held := shown.holds
    rw [frames] at held
    cases held with
    | frame found _ => simp [Engine.result, only, found]

theorem Engine.Reached.shows {p : Parser K V} {past : List K} {e : Engine K V}
    (reached : Engine.Reached p past e) : ∃ s, Branching.Reached p past s ∧ e.Shows s := by
  induction reached with
  | start => exact ⟨_, .start, Engine.shows_start⟩
  | @input past token fuel e e' _ run ih =>
    obtain ⟨s, found, shows⟩ := ih
    obtain ⟨after, result, shows'⟩ :=
      (shows.input faithful_ofHeads found.idle.waiting fuel p token).exists_of_eq_ok run
    exact ⟨after, found.input result, shows'⟩
  | @fault past token fuel cause e e' _ run ih =>
    obtain ⟨s, found, shows⟩ := ih
    obtain ⟨-, after, shows', left⟩ :=
      (shows.input faithful_ofHeads found.idle.waiting fuel p token).of_eq_fault run
    exact ⟨after, found.fault left, shows'⟩

theorem Engine.Reached.parse {p : Parser K V} {past tokens : List K} {fuel : Nat}
    {e e' : Engine K V} (reached : Engine.Reached p past e)
    (run : e.parse fuel p tokens = .ok e') : Engine.Reached p (past ++ tokens) e' := by
  induction tokens generalizing past e with
  | nil =>
    cases run
    simpa using reached
  | cons token rest ih =>
    obtain ⟨next, taken, run⟩ := exists_of_bind_eq_ok run
    simpa using ih (reached.input taken) run

theorem Branching.Reached.invariant {p : Parser K V} (live finished : List K → Branch K V → Prop)
    {facing : List K → K → Branch K V → Prop} {queued : List K → K → Nat → Branch K V → Prop}
    (start : live [] {})
    (enter : ∀ past token b, live past b → facing past token b)
    (contract : ∀ past token, Branching.Contract p token (facing past token) (queued past token)
      (facing past token) (live (past ++ [token])) (finished (past ++ [token])))
    (keep : ∀ past token b, finished past b → finished (past ++ [token]) b)
    {past : List K} {s : Branching K V} (reached : Branching.Reached p past s) :
    (∀ b ∈ s.live, live past b) ∧ ∀ b ∈ s.accepted, finished past b := by
  induction reached with
  | start =>
    refine ⟨fun b member => ?_, fun _ member => nomatch member⟩
    obtain rfl := List.mem_singleton.mp member
    exact start
  | @input past token fuel s after found run ih =>
    exact (contract past token).input selects_merge found.idle
      (fun b member => enter past token b (ih.1 b member))
      (fun b member => keep past token b (ih.2 b member)) run
  | @fault past token s after found left ih =>
    rw [left.live, left.accepted]
    exact ⟨fun _ member => (nomatch member), fun b member => keep past token b (ih.2 b member)⟩

end GeneralizedLR
