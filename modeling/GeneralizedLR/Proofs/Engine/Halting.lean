import GeneralizedLR.Proofs.Engine.Completion
import GeneralizedLR.Proofs.Engine.Handles
import GeneralizedLR.Word

/-!
When the loop of passes and repairs ends at all. No pass and no recovery goes on for ever if every
reduction makes a stack lighter. Then a token before the end of the stream is taken in, for the first
recovery drops it; and the end of the stream is taken in if insertions complete some stack, for no
recovery leaves out a stack on the way there.
-/

set_option autoImplicit false
set_option relaxedAutoImplicit false

namespace GeneralizedLR

open Relation (ReflTransGen)

variable {K V : Type} [Token K] {p : Parser K V} {token : K}

namespace Branching

variable {s : Branching K V}

section Halting

variable {passing : List Nat → Nat} {inserting : Nat → List Nat → Nat}

/-- With enough fuel the loop over a token comes to its end, well or in a fault. -/
def Halts (p : Parser K V) (token : K) (s : Branching K V) : Prop :=
  ∃ fuel rounds, s.advance Branch.merge fuel p token rounds ≠ .error none

private theorem exists_bound {α : Type} (weight : α → Nat) (items : List α) :
    ∃ bound, ∀ x ∈ items, weight x < bound := by
  induction items with
  | nil => exact ⟨0, by simp⟩
  | cons x rest ih =>
    obtain ⟨bound, light⟩ := ih
    refine ⟨max (weight x + 1) bound, fun y member => ?_⟩
    rcases List.mem_cons.mp member with rfl | member
    · omega
    · have := light y member
      omega

theorem exists_returns_pass
    (lighter : ∀ stack after, p.table.Reduces token stack after → passing after < passing stack)
    (waiting : s.waiting = []) : ∃ fuel, Returns (fun _ => True) (s.pass p token fuel) := by
  obtain ⟨fuel, light⟩ := exists_bound (fun b => passing (Frame.states b.frames)) s.live
  exact ⟨fuel, returns_pass lighter waiting light⟩

private theorem exists_returns_recover
    (lighter : ∀ terminal ∈ p.table.insertable, ∀ stack after,
      p.table.Prepares terminal stack after → inserting terminal after < inserting terminal stack)
    (s : Branching K V) (least : Nat) :
    ∃ fuel, least ≤ fuel ∧ Returns (fun _ => True) (s.recover Branch.merge fuel p token) := by
  obtain ⟨bound, light⟩ := exists_bound
    (fun pair : Branch K V × Nat => inserting pair.2 (Frame.states pair.1.frames))
    (s.stranded.product p.table.insertable)
  refine ⟨max least bound, le_max_left .., returns_recover lighter Branch.merge ?_⟩
  intro b member terminal insertable
  exact (light (b, terminal) (List.pair_mem_product.mpr ⟨member, insertable⟩)).trans_le
    (le_max_right ..)

private theorem halts_of_recover (balances : p.table.Balances token passing inserting)
    (waiting : s.waiting = [])
    (next : ∀ fuel passed recovered, s.pass p token fuel = .ok passed → passed.shifted = [] →
      passed.accepted.length ≤ s.accepted.length → passed.stranded ≠ [] →
        passed.recover Branch.merge fuel p token = .ok recovered → recovered.Halts p token) :
    s.Halts p token := by
  obtain ⟨fuel, returned⟩ := exists_returns_pass balances.pass waiting
  generalize first : s.pass p token fuel = result at returned
  cases returned with
  | fault cause => exact ⟨fuel, 1, by rw [Branching.advance, first]; simp [bind, Except.bind]⟩
  | @ok passed _ =>
    by_cases settled : passed.shifted ≠ [] ∨ s.accepted.length < passed.accepted.length ∨
        passed.stranded = []
    · exact ⟨fuel, 1, by simp [advance_of_settled _ first settled]⟩
    obtain ⟨shifted, accepted, stranded⟩ : passed.shifted = [] ∧
        passed.accepted.length ≤ s.accepted.length ∧ passed.stranded ≠ [] := by
      simpa [not_or] using settled
    obtain ⟨enough, more, returned⟩ : ∃ enough, fuel ≤ enough ∧
        Returns (fun _ => True) (passed.recover Branch.merge enough p token) :=
      exists_returns_recover balances.insert passed fuel
    have first' : s.pass p token enough = .ok passed :=
      ((pass_mono s more).eq (by simp [first])).trans first
    generalize again : passed.recover Branch.merge enough p token = result at returned
    cases returned with
    | fault cause =>
      refine ⟨enough, 1, ?_⟩
      rw [advance_eq_recover _ first' shifted accepted stranded, again]
      simp [bind, Except.bind]
    | @ok recovered _ =>
      obtain ⟨fuel', rounds, halts⟩ := next _ _ _ first' shifted accepted stranded again
      have le : enough ≤ max enough fuel' := le_max_left ..
      have same := ((pass_mono s le).eq (by simp [first'])).trans first'
      have same' := ((recover_mono Branch.merge passed le).eq (by simp [again])).trans again
      refine ⟨max enough fuel', rounds + 1, ?_⟩
      rw [advance_eq_recover _ same shifted accepted stranded, same']
      change recovered.advance Branch.merge _ p token rounds ≠ _
      rw [(advance_mono Branch.merge recovered (le_max_right ..) le_rfl).eq halts]
      exact halts

private theorem halts_of_shifted (balances : p.table.Balances token passing inserting)
    (waiting : s.waiting = []) (shifted : s.shifted ≠ []) : s.Halts p token :=
  halts_of_recover balances waiting fun _ _ _ first none => absurd
    (List.prefix_nil.mp (none ▸ (pass_grows first).1.shifted)) shifted

theorem halts_of_goes (balances : p.table.Balances token passing inserting)
    (waiting : s.waiting = []) (goes : Token.isEnd token = false) : s.Halts p token :=
  halts_of_recover balances waiting fun _ _ _ _ _ _ stranded again =>
    halts_of_shifted balances (recover_keeps again).2.1 (recover_shifted_ne_nil again goes stranded)

theorem halts_of_completes (balances : p.table.Balances token passing inserting)
    (waiting : s.waiting = []) {b : Branch K V} (member : b ∈ s.live)
    (completes : p.table.Completes token (Frame.states b.frames)) : s.Halts p token := by
  obtain ⟨last, chain, proceeds⟩ := completes
  generalize stack : Frame.states b.frames = states at chain
  induction chain using ReflTransGen.head_induction_on generalizing s b with
  | refl =>
    refine halts_of_recover balances waiting fun _ _ _ first shifted accepted _ _ => ?_
    obtain ⟨ready, chain, ⟨after, shifts⟩ | ends⟩ := stack ▸ proceeds
    · obtain ⟨b', listed, -⟩ := (pass_complete first member chain).1 after shifts
      exact absurd shifted (List.ne_nil_of_mem listed)
    · exact absurd (length_accepted_lt_of_pass first member chain ends) accepted.not_gt
  | head mends _ ih =>
    refine halts_of_recover balances waiting fun _ _ _ first _ _ _ again => ?_
    obtain ⟨chain, strands, insertable, ready, inserts⟩ := stack ▸ mends
    obtain ⟨stuck, stranded, rfl⟩ := pass_strands first member chain strands
    obtain ⟨kept, lives, states, -⟩ := recover_complete again stranded insertable ready inserts
    exact ih (recover_keeps again).2.1 lives states

theorem Halts.exists_fuel (halts : s.Halts p token) : ∃ fuel, ∀ more, fuel ≤ more →
    s.advance Branch.merge more p token more ≠ .error none := by
  obtain ⟨fuel, rounds, returned⟩ := halts
  refine ⟨max fuel rounds, fun more le => ?_⟩
  have same : s.advance Branch.merge more p token more = s.advance Branch.merge fuel p token rounds :=
    (advance_mono Branch.merge s ((le_max_left ..).trans le) ((le_max_right ..).trans le)).eq returned
  rw [same]
  exact returned

end Halting

end Branching

namespace Engine

variable {past : List K} {e : Engine K V}

theorem Shows.exists_fuel {s : Branching K V} (shows : e.Shows s) (waiting : s.waiting = [])
    (halts : Branching.Halts p token
      { s with stats := { s.stats with tokens := s.stats.tokens + 1 } }) :
    ∃ fuel, ∀ more, fuel ≤ more → e.input more p token ≠ .error .exhausted := by
  obtain ⟨fuel, returned⟩ := halts.exists_fuel
  refine ⟨fuel, fun more le exhausted => ?_⟩
  have taken := shows.input faithful_ofHeads waiting more p token
  rw [show Engine.inputWith Merged.ofHeads more p token e = .error .exhausted from exhausted] at taken
  generalize final : s.input Branch.merge more p token = result at taken
  cases taken with
  | exhausted =>
    exact of_bind_eq_error (P := fun _ => False) final (returned more le)
      fun after settled => nomatch settled

/-- Let every state shift a terminal. Then a call with live heads that ends well has shifted the token
or accepted a head, and at the end of the stream insertions complete one of the heads. If besides every
reduction makes a stack lighter, a call ends before the end of the stream, and it ends there if
insertions complete one of the heads. -/
theorem Reached.recovers (reached : Engine.Reached p past e) (alive : e.heads ≠ [])
    (goes : p.table.GoesOn) (token : K) :
    (∀ fuel rounds stepped, e.begun.advance Merged.ofHeads fuel p token rounds = .ok stepped →
      (stepped.shifted ≠ [] ∨ e.accepted.length < stepped.accepted.length) ∧
        (Token.isEnd token = true →
          ∃ head ∈ e.heads, p.table.Completes token (e.arena.path head.top).reverse)) ∧
    ∀ weight, p.table.Lowers weight →
      (Token.isEnd token = false ∨
        ∃ head ∈ e.heads, p.table.Completes token (e.arena.path head.top).reverse) →
      ∃ fuel, ∀ more, fuel ≤ more → e.input more p token ≠ .error .exhausted := by
  obtain ⟨s, found, shows⟩ := reached.shows
  have alive' : s.live ≠ [] := by
    intro none
    have heads := shows.live
    rw [none] at heads
    exact alive (List.forall₂_nil_right_iff.mp heads)
  refine ⟨fun fuel rounds stepped run => ?_, fun weight lowers ends => ?_⟩
  · have advanced := shows.begun.advance faithful_ofHeads fuel p token rounds
    rw [run] at advanced
    generalize moved : Branching.advance Branch.merge fuel p token rounds _ = result at advanced
    cases advanced with
    | @ok _ after follows =>
      obtain ⟨brings, completes⟩ := found.advance_brings goes alive' moved
      have shifted : stepped.shifted = [] → after.shifted = [] := by
        intro none
        have heads := follows.1.shifted
        rw [none] at heads
        exact List.forall₂_nil_left_iff.mp heads
      refine ⟨?_, fun ends => ?_⟩
      · rw [shows.accepted.length_eq, follows.1.accepted.length_eq]
        exact brings.imp_left fun some none => some (shifted none)
      · obtain ⟨b, member, completes⟩ := completes ends
        obtain ⟨head, listed, shown⟩ := exists_of_forall₂_right shows.live member
        refine ⟨head, listed, ?_⟩
        rw [shown.holds.path, Frame.path_eq_reverse, List.reverse_reverse]
        exact completes
  · let begun : Branching K V := { s with stats := { s.stats with tokens := s.stats.tokens + 1 } }
    have halts : begun.Halts p token := by
      rcases ends with before | ⟨head, listed, completes⟩
      · exact Branching.halts_of_goes (lowers.balances token) found.idle.waiting before
      · obtain ⟨b, member, shown⟩ := exists_of_forall₂_left shows.live listed
        rw [shown.holds.path, Frame.path_eq_reverse, List.reverse_reverse] at completes
        exact Branching.halts_of_completes (s := begun) (lowers.balances token) found.idle.waiting
          member completes
    exact shows.exists_fuel found.idle.waiting halts

end Engine

/-- A word is an a and a b behind each other; the automaton goes on to their middle again. -/
def Word.pairs : Parser Word String where
  table :=
    { descriptions := ["a", "b", "end"]
      endOfStream := 2
      productions := [⟨0, 2, true⟩]
      shiftEntries := [⟨0, 0, 1⟩, ⟨1, 1, 2⟩, ⟨2, 0, 1⟩]
      reduceEntries := [⟨2, 2, 0⟩] }
  reducer := fun _ => Word.joined

def Word.finish (terminal : Nat) : Word := { terminal, text := "end", isEnd := true }

theorem Engine.Reached.recovers_pairs : Word.pairs.table.GoesOn ∧
    ∃ fuel, ∀ more, fuel ≤ more →
      Engine.start.input more Word.pairs (Word.finish 2) ≠ .error .exhausted := by
  have goes : Word.pairs.table.GoesOn := by decide
  have lowers : Word.pairs.table.Lowers fun _ => 0 := by
    rintro terminal stack after ⟨-, listed, -, -, waits, -⟩
    obtain rfl := List.mem_singleton.mp (List.mem_of_getElem? listed)
    cases waits
  have completes : Word.pairs.table.Completes (Word.finish 2) [0] := by
    have first : Word.pairs.table.Mends (Word.finish 2) [0] [1, 0] :=
      .intro .refl ⟨rfl, rfl⟩ (by decide : 0 ∈ Word.pairs.table.insertable) .refl ⟨by decide⟩
    have second : Word.pairs.table.Mends (Word.finish 2) [1, 0] [2, 1, 0] :=
      .intro .refl ⟨rfl, rfl⟩ (by decide : 1 ∈ Word.pairs.table.insertable) .refl ⟨by decide⟩
    have uncovers : Word.pairs.table.Uncovers (Word.finish 2) ⟨0, 2, true⟩ ([2, 1] ++ [0]) [0] :=
      .intro (by decide : 0 ∈ Word.pairs.table.reduces 2 2) rfl
        (show 2 :: [1, 0] = [2, 1] ++ [0] from rfl) rfl (List.cons_ne_nil _ _)
    have ends : Word.pairs.table.Ends (Word.finish 2) [2, 1, 0] := ⟨_, _, uncovers, rfl⟩
    exact ⟨[2, 1, 0], .head first (.single second), _, .refl, .inr ends⟩
  have halts := (Engine.Reached.recovers .start (by simp [Engine.start]) goes (Word.finish 2)).2 _
    lowers (.inr ⟨_, List.mem_singleton_self _, completes⟩)
  exact ⟨goes, halts⟩

def Word.endless : Parser Word String where
  table :=
    { descriptions := ["a", "end"]
      endOfStream := 1
      shiftEntries := [⟨0, 0, 0⟩] }
  reducer := fun _ => Word.joined

section Endless

variable {b : Branch Word String} (top : Frame.top b.frames = 0) (fuel : Nat)
  (accepted : List (Branch Word String)) (serial : Nat) (stats : Stats)
include top

private theorem Branching.pass_endless :
    Branching.pass Word.endless (Word.finish 1) (fuel + 1)
        ⟨[b], [], [], [], accepted, serial, stats⟩ =
      .ok ⟨[], [], [], [b], accepted, serial,
        { stats with strandings := stats.strandings + 1 }⟩ := by
  have stuck : Word.endless.movesOn (Word.finish 1) b.frames = .ok [] := by
    rw [Parser.movesOn, Parser.targets, Parser.rules, top]
    rfl
  rw [Branching.pass]
  simp only [Branching.step, stuck, Branching.take_nil, List.length_nil, Branching.conclude,
    List.foldlM_cons, List.foldlM_nil, bind, Except.bind, pure, Except.pure]
  exact Branching.pass_nil rfl fuel

private theorem Branching.recover_endless :
    ∃ after, Branching.recover Branch.merge (fuel + 1) Word.endless (Word.finish 1)
        ⟨[], [], [], [b], accepted, serial, stats⟩ = .ok after ∧ after.Idle ∧
      ∃ b', after.live = [b'] ∧ Frame.top b'.frames = 0 := by
  have ends : Token.isEnd (Word.finish 1) = true := rfl
  have insertable : Word.endless.table.insertable = [0] := by decide
  have inserts : Word.endless.movesBefore (Word.finish 1) 0 b.frames =
      .ok [(.shifted, ⟨0, .lexeme (Token.correction (Word.finish 1) 0 "a")⟩ :: b.frames)] := by
    rw [Parser.movesBefore, top]
    rfl
  have done (x : Branching Word String) :
      Branching.insertAll Word.endless (Word.finish 1) 0 fuel (x, []) = .ok x := by
    cases fuel <;> rfl
  simp only [Branching.recover, Branching.repair, insertable, Branching.insertAll, Branching.insertAt,
    inserts, ends, List.foldlM_cons, List.foldlM_nil, bind, Except.bind, pure, Except.pure]
  rw [if_neg (by simp), Branching.prepare_shifted, if_pos trivial, done]
  exact ⟨_, rfl, ⟨rfl, rfl, rfl⟩, _, rfl, rfl⟩

private theorem Branching.advance_endless (rounds : Nat) :
    Branching.advance Branch.merge fuel Word.endless (Word.finish 1) rounds
      ⟨[b], [], [], [], accepted, serial, stats⟩ = .error none := by
  induction rounds generalizing b accepted serial stats with
  | zero => rfl
  | succ rounds ih =>
    cases fuel with
    | zero => rfl
    | succ fuel =>
      have first := Branching.pass_endless top fuel accepted serial stats
      obtain ⟨after, again, idle, b', live, top'⟩ :=
        Branching.recover_endless top fuel accepted serial
          { stats with strandings := stats.strandings + 1 }
      rw [Branching.advance_of_stuck first again rfl le_rfl (List.cons_ne_nil _ _)]
      obtain ⟨_, _, _, _, accepted', serial', stats'⟩ := after
      obtain ⟨rfl, rfl, rfl⟩ := idle
      obtain rfl := live
      exact ih top' accepted' serial' stats'

omit top in
theorem Engine.input_endless : Word.endless.table.GoesOn ∧
    ∀ fuel, Engine.start.input fuel Word.endless (Word.finish 1) = .error .exhausted := by
  refine ⟨by decide, fun fuel => ?_⟩
  have taken := Engine.shows_start.input faithful_ofHeads rfl fuel Word.endless (Word.finish 1)
  have exhausted : Branching.start.input Branch.merge fuel Word.endless (Word.finish 1) =
      .error none := by
    have looped := Branching.advance_endless (b := {}) rfl fuel [] 0 { tokens := 1 } fuel
    unfold Branching.input
    exact congrArg (· >>= fun s => pure (s.settle Branch.merge)) looped
  rw [exhausted] at taken
  generalize same : Engine.inputWith Merged.ofHeads fuel Word.endless (Word.finish 1) .start = result
    at taken
  cases taken
  exact same

end Endless

end GeneralizedLR
