import GeneralizedLR.Arithmetic.Evaluate
import GeneralizedLR.Proofs.Engine.Coverage
import Mathlib.Order.Bounds.Basic

/-!
Merging is transparent. Two branchings that cover each other decide alike when to repair and when to
stop, and so they stay alike at every token. An engine that merges heads and one that keeps them all
therefore answer alike to the same tokens, and their heads offer the same: the same paths, and for
each path the same least number of repairs.
-/

set_option autoImplicit false
set_option relaxedAutoImplicit false

namespace GeneralizedLR

variable {K V : Type}

namespace Branching

variable [Token K] {p : Parser K V} {token : K} {s u after : Branching K V}

/-- Two branchings that cover each other in all their sets. -/
structure Alike (s u : Branching K V) : Prop where
  covered : Branch.Covered s.live u.live
  covers : Branch.Covered u.live s.live
  below : s.Below u
  above : u.Below s

omit [Token K] in
theorem Alike.symm (alike : s.Alike u) : u.Alike s :=
  ⟨alike.covers, alike.covered, alike.above, alike.below⟩

private theorem Alike.pass {fuel fuel' : Nat} (alike : s.Alike u) (waiting : s.waiting = [])
    (waiting' : u.waiting = []) (run : u.pass p token fuel' = .ok after) :
    Yields (fun s' => s'.Alike after ∧ (s.KeepsPace s' u after ∧ u.KeepsPace after s s'))
      (s.pass p token fuel) := by
  refine (alike.below.pass alike.covered waiting run).imp fun s' result ⟨below, pace⟩ => ?_
  obtain ⟨above, pace'⟩ := (alike.above.pass alike.covers waiting' result).of_eq_ok run
  exact ⟨⟨.of_nil (pass_eq_ok result waiting).1, .of_nil (pass_eq_ok run waiting').1, below, above⟩,
    pace, pace'⟩

variable {policy policy' : List (Branch K V) → List (Branch K V) × Nat}

private theorem Alike.recover (fair : Fair policy) (fair' : Fair policy') {fuel fuel' : Nat}
    (alike : s.Alike u) (run : u.recover policy' fuel' p token = .ok after) :
    Yields (·.Alike after) (s.recover policy fuel p token) := by
  refine (alike.below.recover fair fair' run).imp fun s' result ⟨below, covered⟩ => ?_
  obtain ⟨above, covers⟩ := (alike.above.recover fair' fair result).of_eq_ok run
  exact ⟨covered, covers, below, above⟩

private theorem Alike.advance (fair : Fair policy) (fair' : Fair policy')
    {fuel fuel' rounds rounds' : Nat} (alike : s.Alike u) (waiting : s.waiting = [])
    (waiting' : u.waiting = []) (run : u.advance policy' fuel' p token rounds' = .ok after) :
    Yields (·.Alike after) (s.advance policy fuel p token rounds) := by
  induction rounds generalizing s u rounds' with
  | zero => exact .exhausted
  | succ rounds ih =>
    cases rounds' with
    | zero => cases run
    | succ rounds' =>
      obtain ⟨u₁, passed, rest⟩ := exists_of_bind_eq_ok run
      refine (alike.pass waiting waiting' passed).bind fun s₁ passed' ⟨alike₁, pace, pace'⟩ => ?_
      have shifted := alike₁.below.shifted.isEmpty_eq alike₁.above.shifted
      have stranded := alike₁.below.stranded.isEmpty_eq alike₁.above.stranded
      have accepted : s.accepted.length < s₁.accepted.length ↔
        u.accepted.length < u₁.accepted.length := ⟨pace, pace'⟩
      rw [shifted, stranded]
      simp only [accepted]
      split at rest
      · next settled =>
        cases rest
        rw [if_pos settled]
        exact .ok alike₁
      · next open_ =>
        rw [if_neg open_]
        split at rest
        · next settled =>
          cases rest
          rw [if_pos settled]
          exact .ok alike₁
        · next stuck =>
          rw [if_neg stuck]
          obtain ⟨u₂, recovered, rest⟩ := exists_of_bind_eq_ok rest
          refine (alike₁.recover fair fair' recovered).bind fun s₂ recovered' alike₂ => ?_
          exact ih alike₂ (recover_keeps recovered').2.1 (recover_keeps recovered).2.1 rest

/-- Taking in a token keeps branchings alike: if one of them gets through, then so does the other,
as long as it has the fuel for it. -/
theorem Alike.input (fair : Fair policy) (fair' : Fair policy') {fuel fuel' : Nat}
    (alike : s.Alike u) (waiting : s.waiting = []) (waiting' : u.waiting = [])
    (run : u.input policy' fuel' p token = .ok after) :
    Yields (·.Alike after) (s.input policy fuel p token) := by
  obtain ⟨u₁, advanced, settled⟩ := exists_of_bind_eq_ok run
  cases settled
  have begun : { s with stats := { s.stats with tokens := s.stats.tokens + 1 } }.Alike
      { u with stats := { u.stats with tokens := u.stats.tokens + 1 } } :=
    ⟨alike.covered, alike.covers, { alike.below with }, { alike.above with }⟩
  refine (begun.advance fair fair' waiting waiting' advanced).bind fun s₁ advanced' alike₁ => ?_
  refine .ok ⟨alike₁.below.shifted.merge fair fair', alike₁.above.shifted.merge fair' fair, ?_, ?_⟩
  · exact ⟨alike₁.below.waiting, .of_nil rfl, .of_nil rfl, alike₁.below.accepted.merge fair fair'⟩
  · exact ⟨alike₁.above.waiting, .of_nil rfl, .of_nil rfl, alike₁.above.accepted.merge fair' fair⟩

end Branching

section Takes

variable [Token K] {p : Parser K V} {token : K}

/-- A call with a token has returned and has left a branching behind; the flag tells whether the call
ended well or in a fault. -/
inductive Branching.Takes (policy : List (Branch K V) → List (Branch K V) × Nat) (p : Parser K V)
    (token : K) (s : Branching K V) : Bool → Branching K V → Prop
  | ok {fuel : Nat} {after : Branching K V} : s.input policy fuel p token = .ok after →
      Branching.Takes policy p token s true after
  | fault {fuel : Nat} {cause : Fault} {after : Branching K V} :
      s.input policy fuel p token = .error (some cause) → s.Abandons after →
        Branching.Takes policy p token s false after

theorem Branching.Takes.idle {policy : List (Branch K V) → List (Branch K V) × Nat} {ended : Bool}
    {s after : Branching K V} (takes : s.Takes policy p token ended after) (idle : s.Idle) :
    after.Idle := by
  cases takes with
  | ok run => exact idle.input run
  | fault _ left => exact ⟨left.waiting, left.shifted, left.stranded⟩

theorem Engine.Takes.shows {merge : Arena K V → List Head → Merged}
    {policy : List (Branch K V) → List (Branch K V) × Nat} (faithful : Faithful merge policy)
    {ended : Bool} {e after : Engine K V} {s : Branching K V}
    (takes : e.Takes merge p token ended after) (shows : e.Shows s) (idle : s.Idle) :
    ∃ t, s.Takes policy p token ended t ∧ after.Shows t := by
  cases takes with
  | @ok fuel _ run =>
    obtain ⟨t, result, shows'⟩ :=
      (shows.input faithful idle.waiting fuel p token).exists_of_eq_ok run
    exact ⟨t, .ok result, shows'⟩
  | @fault fuel cause _ run =>
    obtain ⟨result, t, shows', left⟩ :=
      (shows.input faithful idle.waiting fuel p token).of_eq_fault run
    exact ⟨t, .fault result left, shows'⟩

theorem Branching.Alike.takes {policy policy' : List (Branch K V) → List (Branch K V) × Nat}
    (fair : Fair policy) (fair' : Fair policy') {ended ended' : Bool}
    {s u after after' : Branching K V} (alike : s.Alike u) (idle : s.Idle) (idle' : u.Idle)
    (takes : s.Takes policy p token ended after) (takes' : u.Takes policy' p token ended' after') :
    ended = ended' ∧ after.Alike after' := by
  cases takes with
  | ok run =>
    cases takes' with
    | ok run' => exact ⟨rfl, (alike.input fair fair' idle.waiting idle'.waiting run').of_eq_ok run⟩
    | fault run' _ =>
      exact absurd run' ((alike.symm.input fair' fair idle'.waiting idle.waiting run).ne_error _)
  | fault run left =>
    cases takes' with
    | ok run' =>
      exact absurd run ((alike.input fair fair' idle.waiting idle'.waiting run').ne_error _)
    | fault _ left' =>
      have covered : Branch.Covered after.accepted after'.accepted := by
        rw [left.accepted, left'.accepted]
        exact alike.below.accepted
      have covers : Branch.Covered after'.accepted after.accepted := by
        rw [left.accepted, left'.accepted]
        exact alike.above.accepted
      exact ⟨rfl, .of_nil left.live, .of_nil left'.live,
        ⟨.of_nil left.waiting, .of_nil left.shifted, .of_nil left.stranded, covered⟩,
        ⟨.of_nil left'.waiting, .of_nil left'.shifted, .of_nil left'.stranded, covers⟩⟩

end Takes

section Offers

def Arena.levels (a : Arena K V) (heads : List Head) (path : List Nat) : Set Nat :=
  {level | ∃ head ∈ heads, a.path head.top = path ∧ head.level = level}

/-- Two sets of heads have the same paths, and for each path the same least number of repairs. -/
structure Arena.OffersAs (a : Arena K V) (heads : List Head) (b : Arena K V) (others : List Head) :
    Prop where
  paths : ∀ path, (∃ head ∈ heads, a.path head.top = path) ↔
    ∃ other ∈ others, b.path other.top = path
  least : ∀ path level, IsLeast (a.levels heads path) level ↔ IsLeast (b.levels others path) level

private theorem isLeast_of_le {numbers others : Set Nat} {least : Nat}
    (forth : ∀ n ∈ numbers, ∃ m ∈ others, m ≤ n) (back : ∀ m ∈ others, ∃ n ∈ numbers, n ≤ m)
    (held : IsLeast numbers least) : IsLeast others least := by
  have lower : ∀ m ∈ others, least ≤ m := by
    intro m member
    obtain ⟨n, listed, le⟩ := back m member
    exact (held.2 listed).trans le
  obtain ⟨m, member, le⟩ := forth least held.1
  have same : m = least := le.antisymm (lower m member)
  exact ⟨same ▸ member, fun m member => lower m member⟩

variable {a b : Arena K V} {accepted accepted' : Bool} {heads others : List Head}
  {branches branches' : List (Branch K V)}

private theorem exists_le_of_covered (shown : List.Forall₂ (Head.Shown a accepted) heads branches)
    (shown' : List.Forall₂ (Head.Shown b accepted') others branches')
    (covered : Branch.Covered branches branches') :
    ∀ head ∈ heads, ∃ other ∈ others, b.path other.top = a.path head.top ∧
      other.level ≤ head.level := by
  intro head listed
  obtain ⟨branch, member, found⟩ := exists_of_forall₂_left shown listed
  obtain ⟨branch', member', states, level⟩ := covered branch member
  obtain ⟨other, listed', found'⟩ := exists_of_forall₂_right shown' member'
  refine ⟨other, listed', ?_, ?_⟩
  · rw [found.holds.path, found'.holds.path, Frame.path_eq_reverse, Frame.path_eq_reverse, states]
  · rw [found.level, found'.level]
    exact level

theorem Arena.offersAs_of_covered (shown : List.Forall₂ (Head.Shown a accepted) heads branches)
    (shown' : List.Forall₂ (Head.Shown b accepted') others branches')
    (covered : Branch.Covered branches branches') (covers : Branch.Covered branches' branches) :
    a.OffersAs heads b others := by
  have forth := exists_le_of_covered shown shown' covered
  have back := exists_le_of_covered shown' shown covers
  have fewer : ∀ path, ∀ level ∈ a.levels heads path, ∃ other ∈ b.levels others path,
      other ≤ level := by
    rintro path level ⟨head, listed, rfl, rfl⟩
    obtain ⟨other, listed', path, le⟩ := forth head listed
    exact ⟨other.level, ⟨other, listed', path, rfl⟩, le⟩
  have fewer' : ∀ path, ∀ level ∈ b.levels others path, ∃ other ∈ a.levels heads path,
      other ≤ level := by
    rintro path level ⟨head, listed, rfl, rfl⟩
    obtain ⟨other, listed', path, le⟩ := back head listed
    exact ⟨other.level, ⟨other, listed', path, rfl⟩, le⟩
  refine ⟨fun path => ⟨?_, ?_⟩, fun path level => ⟨?_, ?_⟩⟩
  · rintro ⟨head, listed, rfl⟩
    obtain ⟨other, listed', path, -⟩ := forth head listed
    exact ⟨other, listed', path⟩
  · rintro ⟨head, listed, rfl⟩
    obtain ⟨other, listed', path, -⟩ := back head listed
    exact ⟨other, listed', path⟩
  · exact isLeast_of_le (fewer path) (fewer' path)
  · exact isLeast_of_le (fewer' path) (fewer path)

end Offers

section Answers

variable [Token K] {p : Parser K V}

/-- What an engine answers to tokens, one call for each of them, and what it is then. -/
inductive Engine.Answers (merge : Arena K V → List Head → Merged) (p : Parser K V) :
    List K → List Bool → Engine K V → Engine K V → Prop
  | nil (e : Engine K V) : Engine.Answers merge p [] [] e e
  | cons {token : K} {rest : List K} {ended : Bool} {answers : List Bool} {e next after : Engine K V} :
      e.Takes merge p token ended next → Engine.Answers merge p rest answers next after →
        Engine.Answers merge p (token :: rest) (ended :: answers) e after

private theorem Engine.Answers.alike {tokens : List K} {answers answers' : List Bool}
    {e after u after' : Engine K V} (merged : Engine.Answers Merged.ofHeads p tokens answers e after)
    (whole : Engine.Answers Merged.unmerged p tokens answers' u after') {s t : Branching K V}
    (shows : e.Shows s) (shows' : u.Shows t) (idle : s.Idle) (idle' : t.Idle) (alike : s.Alike t) :
    answers = answers' ∧ ∃ s' t', after.Shows s' ∧ after'.Shows t' ∧ s'.Alike t' := by
  induction merged generalizing answers' u s t with
  | nil =>
    cases whole
    exact ⟨rfl, s, t, shows, shows', alike⟩
  | cons takes _ ih =>
    cases whole with
    | cons takes' rest' =>
      obtain ⟨s₁, taken, shows₁⟩ := takes.shows faithful_ofHeads shows idle
      obtain ⟨t₁, taken', shows₁'⟩ := takes'.shows faithful_unmerged shows' idle'
      obtain ⟨rfl, alike₁⟩ := alike.takes fair_merge fair_unmerged idle idle' taken taken'
      obtain ⟨rfl, found⟩ := ih rest' shows₁ shows₁' (taken.idle idle) (taken'.idle idle') alike₁
      exact ⟨rfl, found⟩

/-- Given the same tokens, an engine that merges heads and one that keeps them all answer alike, and
then their live heads offer the same, and so do their accepted heads. -/
theorem Engine.Answers.transparent {tokens : List K} {answers answers' : List Bool}
    {e u : Engine K V} (merged : Engine.Answers Merged.ofHeads p tokens answers .start e)
    (whole : Engine.Answers Merged.unmerged p tokens answers' .start u) :
    answers = answers' ∧ e.arena.OffersAs e.heads u.arena u.heads ∧
      e.arena.OffersAs e.accepted u.arena u.accepted := by
  have same : (Branching.start : Branching K V).Alike .start :=
    ⟨.of_subset fun _ => id, .of_subset fun _ => id,
      ⟨.of_nil rfl, .of_nil rfl, .of_nil rfl, .of_nil rfl⟩,
      ⟨.of_nil rfl, .of_nil rfl, .of_nil rfl, .of_nil rfl⟩⟩
  obtain ⟨answers, s, t, shows, shows', alike⟩ := merged.alike whole Engine.shows_start
    Engine.shows_start Branching.idle_start Branching.idle_start same
  exact ⟨answers, Arena.offersAs_of_covered shows.live shows'.live alike.covered alike.covers,
    Arena.offersAs_of_covered shows.accepted shows'.accepted alike.below.accepted
      alike.above.accepted⟩

theorem Engine.answers_of_parseWith {merge : Arena K V → List Head → Merged} {tokens : List K}
    {fuel : Nat} {e after : Engine K V} (run : Engine.parseWith merge fuel p tokens e = .ok after) :
    Engine.Answers merge p tokens (tokens.map fun _ => true) e after := by
  induction tokens generalizing e with
  | nil =>
    cases run
    exact .nil after
  | cons token rest ih =>
    obtain ⟨next, taken, run⟩ := exists_of_bind_eq_ok run
    exact .cons (.ok taken) (ih run)

def Arithmetic.sums : List Arithmetic.Lexeme :=
  [{ terminal := .number, payload := .number 1 }, { terminal := .plus },
   { terminal := .number, payload := .number 2 }, { terminal := .plus },
   { terminal := .number, payload := .number 3 }, { terminal := .endOfInput }]

theorem Engine.Answers.transparent_sums : ∃ e u,
    Engine.Answers Merged.ofHeads (Arithmetic.parser .ambiguous) Arithmetic.sums
        (Arithmetic.sums.map fun _ => true) .start e ∧
      Engine.Answers Merged.unmerged (Arithmetic.parser .ambiguous) Arithmetic.sums
        (Arithmetic.sums.map fun _ => true) .start u ∧
      e.accepted.length = 1 ∧ u.accepted.length = 2 ∧
        e.arena.OffersAs e.accepted u.arena u.accepted := by
  obtain ⟨e, run, one⟩ : ∃ e, Engine.parseWith Merged.ofHeads 9 (Arithmetic.parser .ambiguous)
      Arithmetic.sums .start = .ok e ∧ e.accepted.length = 1 := ⟨_, rfl, rfl⟩
  obtain ⟨u, run', two⟩ : ∃ u, Engine.parseWith Merged.unmerged 9 (Arithmetic.parser .ambiguous)
      Arithmetic.sums .start = .ok u ∧ u.accepted.length = 2 := ⟨_, rfl, rfl⟩
  have merged := Engine.answers_of_parseWith run
  have whole := Engine.answers_of_parseWith run'
  exact ⟨e, u, merged, whole, one, two, (merged.transparent whole).2.2⟩

end Answers

end GeneralizedLR
