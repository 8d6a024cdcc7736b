import GeneralizedLR.Proofs.Automaton
import GeneralizedLR.Proofs.Engine.Single

/-!
Reading tokens with one reduction at a time. Where a table lists a token to shift and a production to
reduce at once, a stack that is reduced as far as it can be is one of those that the parser follows.
Where it never lists both, it is the only one.
-/

set_option autoImplicit false
set_option relaxedAutoImplicit false

namespace GeneralizedLR

open Relation (ReflTransGen)

variable {K V : Type} [Token K]

/-- Before a token, a stack is reduced to another one. It may be shifted on the way, but there is
only one production at a time. -/
inductive Parser.Hastens (p : Parser K V) (token : K) :
    List (Frame K V) → List (Frame K V) → Prop
  | refl (frames : List (Frame K V)) : Parser.Hastens p token frames frames
  | step {frames frames' last : List (Frame K V)} {production : Nat} :
      p.rules token frames = [production] →
        p.reduct token frames production = .ok (.waiting, frames') →
          Parser.Hastens p token frames' last → Parser.Hastens p token frames last

/-- A stack takes in tokens. Before each of them it is reduced until no production is left, and then
there is one state to shift to. -/
inductive Parser.Rushes (p : Parser K V) : List K → List (Frame K V) → List (Frame K V) → Prop
  | nil (frames : List (Frame K V)) : Parser.Rushes p [] frames frames
  | cons {token : K} {rest : List K} {frames ready last : List (Frame K V)} {target : Nat} :
      p.Hastens token frames ready → p.targets token ready = [target] → p.rules token ready = [] →
        Parser.Rushes p rest (⟨target, .lexeme token⟩ :: ready) last →
          Parser.Rushes p (token :: rest) frames last

variable {p : Parser K V} {tokens more : List K} {token next : K}
  {frames frames' frames'' stack stack' last : List (Frame K V)}

theorem Parser.Hastens.trans (first : p.Hastens token frames frames')
    (second : p.Hastens token frames' frames'') : p.Hastens token frames frames'' := by
  induction first with
  | refl => exact second
  | step single reduced _ ih => exact .step single reduced (ih second)

theorem Parser.Rushes.append (first : p.Rushes tokens frames frames')
    (second : p.Rushes more frames' frames'') : p.Rushes (tokens ++ more) frames frames'' := by
  induction first with
  | nil => exact second
  | cons hastens shift settled _ ih => exact .cons hastens shift settled (ih second)

def Parser.Hurries (p : Parser K V) (tokens : List K) (next : K) (stack stack' : List (Frame K V)) :
    Prop :=
  ∃ frames, p.Rushes tokens stack frames ∧ p.Hastens next frames stack'

namespace Parser.Hurries

theorem nil (p : Parser K V) (next : K) (stack : List (Frame K V)) : p.Hurries [] next stack stack :=
  ⟨stack, .nil stack, .refl stack⟩

theorem shift (before : p.Hurries tokens token stack stack') {target : Nat}
    (shifts : p.targets token stack' = [target]) (settled : p.rules token stack' = [])
    (behind : p.Hurries more next (⟨target, .lexeme token⟩ :: stack') last) :
    p.Hurries (tokens ++ token :: more) next stack last := by
  obtain ⟨frames, rushes, hastens⟩ := before
  obtain ⟨frames', rushes', hastens'⟩ := behind
  exact ⟨frames', rushes.append (.cons hastens shifts settled rushes'), hastens'⟩

theorem reduce (before : p.Hurries tokens next stack stack') {production : Nat}
    (single : p.rules next stack' = [production])
    (reduced : p.reduct next stack' production = .ok (.waiting, last)) :
    p.Hurries tokens next stack last := by
  obtain ⟨frames, rushes, hastens⟩ := before
  exact ⟨frames, rushes, hastens.trans (.step single reduced (.refl last))⟩

end Parser.Hurries

theorem Parser.Hastens.states (hastens : p.Hastens token frames frames') :
    ReflTransGen (p.table.Reduces token) (Frame.states frames) (Frame.states frames') := by
  induction hastens with
  | refl => exact .refl
  | @step frames middle _ production single reduced _ ih =>
    have entry : production ∈ p.rules token frames := by simp [single]
    exact .head (Parser.reduces_states_iff.mpr ⟨production, entry, middle, reduced, rfl⟩) ih

section Unique

def Parser.Still (p : Parser K V) (token : K) (ready : List (Frame K V)) : Prop :=
  ∀ next, p.Hastens token ready next → next = ready

theorem Parser.still_of_rules (settled : p.rules token frames = []) : p.Still token frames := by
  intro next hastens
  cases hastens with
  | refl => rfl
  | step single => simp [settled] at single

theorem Parser.Hastens.of_still (hastens : p.Hastens token frames last) (still : p.Still token last)
    (also : p.Hastens token frames frames') : p.Hastens token frames' last := by
  induction also with
  | refl => exact hastens
  | @step frames middle frames'' production single reduced rest ih =>
    cases hastens with
    | refl =>
      rw [still _ (.step single reduced rest)]
      exact .refl _
    | step single' reduced' rest' =>
      cases single.symm.trans single'
      cases reduced.symm.trans reduced'
      exact ih rest'

theorem Parser.Rushes.unique (first : p.Rushes tokens frames frames')
    (second : p.Rushes tokens frames frames'') : frames' = frames'' := by
  induction first with
  | nil =>
    cases second
    rfl
  | cons hastens shifts settled _ ih =>
    cases second with
    | cons hastens' shifts' settled' rest =>
      obtain rfl := still_of_rules settled' _
        (hastens.of_still (still_of_rules settled) hastens')
      cases shifts.symm.trans shifts'
      exact ih rest

theorem Parser.Rushes.exists_of_append (rushes : p.Rushes (tokens ++ more) frames last) :
    ∃ middle, p.Rushes tokens frames middle ∧ p.Rushes more middle last := by
  induction tokens generalizing frames with
  | nil => exact ⟨frames, .nil frames, rushes⟩
  | cons token tokens ih =>
    cases rushes with
    | cons hastens shifts settled rest =>
      obtain ⟨middle, first, second⟩ := ih rest
      exact ⟨middle, .cons hastens shifts settled first, second⟩

/-- If some tokens leave a stack and more of them another one, then the rest leads from the first stack
to the second one. -/
theorem Parser.Hurries.of_append {final : K} (whole : p.Hurries (tokens ++ more) final stack last)
    (still : p.Still final last) (first : p.Hurries tokens next stack stack')
    (follows : (more ++ [final]).head? = some next) : p.Hurries more final stack' last := by
  obtain ⟨frames, rushes, hastens⟩ := whole
  obtain ⟨middle, before, behind⟩ := rushes.exists_of_append
  obtain ⟨_, before', hastens'⟩ := first
  obtain rfl := before'.unique before
  cases behind with
  | nil =>
    cases follows
    exact ⟨stack', .nil stack', hastens.of_still still hastens'⟩
  | cons settles shifts settled rest =>
    cases follows
    exact ⟨frames, .cons (settles.of_still (still_of_rules settled) hastens') shifts settled rest,
      hastens⟩

end Unique

section Decided

/-- Never are a token to shift and a production to reduce listed at once. -/
def Parser.Decided (p : Parser K V) : Prop :=
  ∀ token frames, p.targets token frames = [] ∨ p.rules token frames = []

theorem Parser.Hastens.settles (hastens : p.Hastens token frames frames') (decided : p.Decided) :
    p.Settles token frames frames' := by
  induction hastens with
  | refl => exact .refl _
  | @step frames _ _ _ single reduced _ ih =>
    have stays : p.targets token frames = [] := (decided token frames).resolve_right (by simp [single])
    exact .step (Parser.movesOn_of_rules stays single reduced) ih

theorem Parser.Rushes.feeds (rushes : p.Rushes tokens frames frames') (decided : p.Decided) :
    p.Feeds tokens frames frames' := by
  induction rushes with
  | nil => exact .nil _
  | cons hastens shifts settled _ ih =>
    exact .cons (hastens.settles decided) (Parser.movesOn_of_targets shifts settled) ih

theorem Parser.Hurries.reads (hurries : p.Hurries tokens next stack stack') (decided : p.Decided) :
    p.Reads tokens next stack stack' := by
  obtain ⟨frames, rushes, hastens⟩ := hurries
  exact ⟨frames, rushes.feeds decided, hastens.settles decided⟩

end Decided

end GeneralizedLR
