import GeneralizedLR.Proofs.Engine.Moves

/-!
When the engine shows a branching: its arena holds the stacks of the branches, and its heads agree
with them in everything else. A push never disturbs the stacks that other heads share, so that what
one head does shows at no other.
-/

set_option autoImplicit false
set_option relaxedAutoImplicit false

namespace GeneralizedLR

section Shown

variable {K V : Type}

structure Head.Shown (a : Arena K V) (accepted : Bool) (h : Head) (b : Branch K V) : Prop where
  holds : a.Holds h.top b.frames
  errors : h.errors = b.errors
  level : h.level = b.level
  serial : h.serial = b.serial
  accepted : h.accepted = accepted

theorem Head.Shown.mono {a a' : Arena K V} {accepted : Bool} {h : Head} {b : Branch K V}
    (shown : h.Shown a accepted b) (grows : a.Grows a') : h.Shown a' accepted b :=
  { shown with holds := shown.holds.mono grows }

theorem Head.Shown.reduction {a : Arena K V} {accepted : Bool} {h : Head} {b : Branch K V}
    (shown : h.Shown a accepted b) (p : Parser K V) (lookahead : K) (production : Nat) :
    (∃ cause, p.reduct lookahead b.frames production = .error cause ∧
      h.reduction a p.table p.reducer production lookahead = .error cause) ∨
    ∃ r below, h.reduction a p.table p.reducer production lookahead = .ok r ∧
      a.Holds r.base below ∧
      p.reduct lookahead b.frames production =
        .ok (if r.ends then .accepted else .waiting, ⟨r.state, .reduced r.value⟩ :: below) := by
  unfold Head.reduction Parser.reduct
  cases p.table.production? production with
  | none => exact .inl ⟨_, rfl, rfl⟩
  | some rule =>
    by_cases short : b.frames.length < rule.arity
    · simp only [if_pos short, shown.holds.pop_eq_error short]
      exact .inl ⟨_, rfl, rfl⟩
    · obtain ⟨base, held, popped⟩ := shown.holds.pop_eq_ok (Nat.le_of_not_lt short)
      simp only [if_neg short, popped, held.state, bind, Except.bind]
      cases landing : p.table.landing rule (Frame.top (b.frames.drop rule.arity)) with
      | error cause => exact .inl ⟨_, rfl, rfl⟩
      | ok state => exact .inr ⟨_, _, rfl, held, rfl⟩

end Shown

section Shows

variable {K V : Type}

structure Engine.Shows (e : Engine K V) (s : Branching K V) : Prop where
  sound : e.arena.Sound
  live : List.Forall₂ (Head.Shown e.arena false) e.heads s.live
  waiting : List.Forall₂ (Head.Shown e.arena false) e.waiting.reverse s.waiting
  shifted : List.Forall₂ (Head.Shown e.arena false) e.shifted.reverse s.shifted
  stranded : List.Forall₂ (Head.Shown e.arena false) e.stranded.reverse s.stranded
  accepted : List.Forall₂ (Head.Shown e.arena true) e.accepted s.accepted
  serial : e.serial = s.serial
  stats : { e.stats with reclaimed := 0 } = s.stats

/-- What no step of a token undoes: nodes stay, accepted heads stay in front, and those that come
behind them have serial numbers that were not given before. -/
structure Engine.Extends (e later : Engine K V) : Prop where
  sound : later.arena.Sound
  grows : e.arena.Grows later.arena
  serial : e.serial ≤ later.serial
  adds : ∃ fresh, later.accepted = e.accepted ++ fresh ∧
    ∀ head ∈ fresh, e.serial < head.serial ∧ head.serial ≤ later.serial

theorem Engine.Extends.accepted {e later : Engine K V} (extended : e.Extends later) :
    e.accepted <+: later.accepted := by
  obtain ⟨fresh, split, -⟩ := extended.adds
  exact split ▸ List.prefix_append ..

theorem Engine.Extends.trans {e e' e'' : Engine K V} (first : e.Extends e') (second : e'.Extends e'') :
    e.Extends e'' where
  sound := second.sound
  grows := first.grows.trans second.grows
  serial := first.serial.trans second.serial
  adds := by
    obtain ⟨fresh, split, young⟩ := first.adds
    obtain ⟨fresh', split', young'⟩ := second.adds
    have le := first.serial
    have le' := second.serial
    refine ⟨fresh ++ fresh', by rw [split', split, List.append_assoc], fun head member => ?_⟩
    rcases List.mem_append.mp member with member | member
    · have := young head member
      omega
    · have := young' head member
      omega

theorem Engine.Shows.extends {e : Engine K V} {s : Branching K V} (shows : e.Shows s) :
    e.Extends e :=
  ⟨shows.sound, .refl _, Nat.le_refl _, [], (List.append_nil _).symm, fun _ => (nomatch ·)⟩

theorem Engine.Extends.keep {e later changed : Engine K V} (extended : e.Extends later)
    (arena : changed.arena = later.arena) (accepted : changed.accepted = later.accepted)
    (serial : later.serial ≤ changed.serial) : e.Extends changed where
  sound := arena ▸ extended.sound
  grows := arena ▸ extended.grows
  serial := extended.serial.trans serial
  adds := by
    obtain ⟨fresh, split, young⟩ := extended.adds
    exact ⟨fresh, accepted.trans split, fun head member =>
      ⟨(young head member).1, (young head member).2.trans serial⟩⟩

theorem forall₂_shown_mono {a a' : Arena K V} (grows : a.Grows a') {accepted : Bool}
    {heads : List Head} {branches : List (Branch K V)}
    (shown : List.Forall₂ (Head.Shown a accepted) heads branches) :
    List.Forall₂ (Head.Shown a' accepted) heads branches :=
  shown.imp fun _ _ h => h.mono grows

theorem Engine.Shows.push {e : Engine K V} {s : Branching K V} (shows : e.Shows s) {id : NodeId}
    {frames : List (Frame K V)} (held : e.arena.Holds id frames) (state : Nat)
    (content : Content K V) :
    { e with arena := (e.arena.push state (some content) (some id)).1 }.Shows s := by
  have grows : e.arena.Grows (e.arena.push state (some content) (some id)).1 :=
    shows.sound.grows_push
  exact {
    sound := held.sound_push shows.sound state content
    live := forall₂_shown_mono grows shows.live
    waiting := forall₂_shown_mono grows shows.waiting
    shifted := forall₂_shown_mono grows shows.shifted
    stranded := forall₂_shown_mono grows shows.stranded
    accepted := forall₂_shown_mono grows shows.accepted
    serial := shows.serial
    stats := shows.stats }

theorem forall₂_concat {a : Arena K V} {accepted : Bool} {heads : List Head}
    {branches : List (Branch K V)}
    (shown : List.Forall₂ (Head.Shown a accepted) heads.reverse branches) {h : Head}
    {b : Branch K V} (last : h.Shown a accepted b) :
    List.Forall₂ (Head.Shown a accepted) (h :: heads).reverse (branches ++ [b]) := by
  rw [List.reverse_cons]
  exact List.rel_append shown (.cons last .nil)

end Shows

/-- Two outcomes that agree: results that are related, the same fault with an engine of a kind, or
no fuel left on both sides. -/
inductive Agrees {K V α β : Type} (related : α → β → Prop) (stopped : Engine K V → Prop) :
    Except (Halt K V) α → Except (Option Fault) β → Prop
  | ok {x : α} {y : β} : related x y → Agrees related stopped (.ok x) (.ok y)
  | fault {cause : Fault} {e : Engine K V} :
    stopped e → Agrees related stopped (.error (.fault cause e)) (.error (some cause))
  | exhausted : Agrees related stopped (.error .exhausted) (.error none)

namespace Agrees

variable {K V α β γ δ : Type} {R : α → β → Prop} {N : γ → δ → Prop} {S : Engine K V → Prop}
  {r : Except (Halt K V) α} {r' : Except (Option Fault) β}

theorem bind (agrees : Agrees R S r r') {f : α → Except (Halt K V) γ}
    {g : β → Except (Option Fault) δ} (rest : ∀ x y, R x y → Agrees N S (f x) (g y)) :
    Agrees N S (r >>= f) (r' >>= g) := by
  cases agrees with
  | ok pair => exact rest _ _ pair
  | fault stop => exact .fault stop
  | exhausted => exact .exhausted

theorem imp (agrees : Agrees R S r r') {Q : α → β → Prop} {T : Engine K V → Prop}
    (results : ∀ x y, R x y → Q x y) (stops : ∀ e, S e → T e) : Agrees Q T r r' := by
  cases agrees with
  | ok pair => exact .ok (results _ _ pair)
  | fault stop => exact .fault (stops _ stop)
  | exhausted => exact .exhausted

theorem exists_of_eq_ok (agrees : Agrees R S r r') {x : α} (run : r = .ok x) :
    ∃ y, r' = .ok y ∧ R x y := by
  subst run
  cases agrees with
  | ok pair => exact ⟨_, rfl, pair⟩

theorem exists_of_eq_ok_right (agrees : Agrees R S r r') {y : β} (run : r' = .ok y) :
    ∃ x, r = .ok x ∧ R x y := by
  subst run
  cases agrees with
  | ok pair => exact ⟨_, rfl, pair⟩

/-- A fault on the left is one on the right, and it leaves behind an engine of the kind. -/
theorem of_eq_fault (agrees : Agrees R S r r') {cause : Fault} {e : Engine K V}
    (run : r = .error (.fault cause e)) : r' = .error (some cause) ∧ S e := by
  subst run
  cases agrees with
  | fault stop => exact ⟨rfl, stop⟩

theorem right (agrees : Agrees R S r r') : Agrees (fun x y => R x y ∧ r' = .ok y) S r r' := by
  cases agrees with
  | ok pair => exact .ok ⟨pair, rfl⟩
  | fault stop => exact .fault stop
  | exhausted => exact .exhausted

theorem foldlM {ι κ : Type} {I : ι → κ → Prop} {l : List ι} {l' : List κ}
    (items : List.Forall₂ I l l') {f : α → ι → Except (Halt K V) α}
    {g : β → κ → Except (Option Fault) β}
    (step : ∀ x y i j, R x y → I i j → Agrees R S (f x i) (g y j)) {x : α} {y : β}
    (start : R x y) : Agrees R S (l.foldlM f x) (l'.foldlM g y) := by
  induction items generalizing x y with
  | nil => exact .ok start
  | cons head _ ih =>
    rw [List.foldlM_cons, List.foldlM_cons]
    exact (step x y _ _ start head).bind fun _ _ => ih

theorem comesTo {ι κ : Type} {I : ι → κ → Prop} {l : List ι} {l' : List κ}
    (items : List.Forall₂ I l l') {f : α → ι → Except (Halt K V) α}
    {g : β → κ → Except (Option Fault) β}
    (step : ∀ x y i j, R x y → I i j → Agrees R S (f x i) (g y j)) {x z : α} {y : β}
    (start : R x y) {i : ι} (comes : ComesTo f l x i z) :
    ∃ j w, ComesTo g l' y j w ∧ R z w ∧ I i j := by
  obtain ⟨before, behind, rfl, run⟩ := comes
  obtain ⟨before', j, behind', rfl, front, pair⟩ := exists_split_of_forall₂ items
  obtain ⟨w, run', related⟩ := (foldlM front step start).exists_of_eq_ok run
  exact ⟨j, w, ⟨before', behind', rfl, run'⟩, related, pair⟩

theorem foldlM_mapM {ι μ : Type} {f : α → ι → Except (Halt K V) α} {g : ι → Except Fault μ}
    (make : List μ → β → β) (make_nil : ∀ y, make [] y = y)
    (make_cons : ∀ m rest y, make (m :: rest) y = make rest (make [m] y))
    (step : ∀ x y i, R x y →
      (∃ cause e, g i = .error cause ∧ f x i = .error (.fault cause e) ∧ S e) ∨
        ∃ m x', g i = .ok m ∧ f x i = .ok x' ∧ R x' (make [m] y))
    (l : List ι) {x : α} {y : β} (start : R x y) :
    Agrees R S (l.foldlM f x)
      (match l.mapM g with
      | .error cause => .error (some cause)
      | .ok made => .ok (make made y)) := by
  induction l generalizing x y with
  | nil =>
    rw [List.mapM_nil]
    exact .ok ((make_nil y).symm ▸ start)
  | cons i l ih =>
    rw [List.foldlM_cons, List.mapM_cons]
    rcases step x y i start with ⟨cause, e, failed, halted, stop⟩ | ⟨m, x', made, result, pair⟩
    · rw [failed, halted]
      exact .fault stop
    · rw [made, result]
      have rest := ih pair
      simp only [Bind.bind, Except.bind, pure, Except.pure]
      cases more : l.mapM g with
      | error cause => simpa only [more] using rest
      | ok ms => simpa only [more, make_cons m ms] using rest


end Agrees

end GeneralizedLR
