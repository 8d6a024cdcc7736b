import GeneralizedLR.Proofs.Arithmetic.Stacks
import GeneralizedLR.Proofs.Arithmetic.Tokens
import GeneralizedLR.Proofs.Engine.Run
import GeneralizedLR.Proofs.Engine.Total

/-!
Every parse of arithmetic ends. A token before the end of the input makes a stack at most two values
longer, since at most one insertion comes before it. At the end of the input every insertion leaves
one token less to insert, and in the end exactly one parse is accepted.
-/

set_option autoImplicit false
set_option relaxedAutoImplicit false

namespace GeneralizedLR.Arithmetic

variable {V : Type} {p : Parser Lexeme V} {g : Grouping} {token : Lexeme}
  {s after : Branching Lexeme V} {bound limit : Nat}

/-- The branch has a stack of the parser, with at most so many values. -/
structure Fits (bound : Nat) (b : Branch Lexeme V) : Prop where
  viable : ∃ count, Viable count (Frame.states b.frames)
  short : b.frames.length ≤ bound

/-- The branch has come to the end of the input, and only a value is left. -/
structure Finished (token : Lexeme) (b : Branch Lexeme V) : Prop where
  ends : Token.isEnd token = true
  whole : ∃ v, b.frames = [⟨0, .reduced v⟩]

structure Continues (token : Lexeme) (limit : Nat) (b : Branch Lexeme V) : Prop where
  goes : Token.isEnd token = false
  fits : Fits limit b

theorem weight_le (frames : List (Frame Lexeme V)) : weight frames ≤ frames.length + 1 := by
  unfold weight
  split <;> omega

private theorem Viable.closed (grouped : p.table = table g) {count : Nat}
    {frames frames' : List (Frame Lexeme V)} (viable : Viable count (Frame.states frames))
    {c : Terminal} {number : Nat} (entry : number ∈ (table g).reduces (Frame.top frames) c.index)
    (reduced : p.reduct token frames number = .ok (.waiting, frames')) :
    Viable count (Frame.states frames') ∧ frames'.length ≤ frames.length := by
  rcases viable.reduct grouped entry token with ⟨frames'', same, kept, -, short⟩ | ⟨v, same, -⟩
  · rw [reduced] at same
    cases same
    exact ⟨kept, short⟩
  · rw [reduced] at same
    cases same

private theorem Fits.reduce (grouped : p.table = table g) {b : Branch Lexeme V}
    (fits : Fits bound b) {c : Terminal} {number : Nat}
    (entry : number ∈ (table g).reduces (Frame.top b.frames) c.index)
    {frames : List (Frame Lexeme V)}
    (reduced : p.reduct token b.frames number = .ok (.waiting, frames)) (serial : Nat) :
    Fits bound { b with frames, serial } := by
  obtain ⟨count, viable⟩ := fits.viable
  obtain ⟨kept, short⟩ := viable.closed grouped entry reduced
  exact ⟨⟨count, kept⟩, short.trans fits.short⟩

private theorem Fits.shift {b : Branch Lexeme V} (fits : Fits bound b) {c : Terminal}
    {target : Nat} (entry : target ∈ (table g).shifts (Frame.top b.frames) c.index)
    (content : Content Lexeme V) (errors : List ErrorRecord) (level serial : Nat) :
    c ≠ .endOfInput ∧ Fits (bound + 1) ⟨⟨target, content⟩ :: b.frames, errors, level, serial⟩ := by
  obtain ⟨count, viable⟩ := fits.viable
  obtain ⟨goes, count', shifted⟩ := viable.shift entry
  exact ⟨goes, ⟨count', shifted⟩, Nat.succ_le_succ fits.short⟩

theorem Fits.mono {b : Branch Lexeme V} (fits : Fits bound b) (le : bound ≤ limit) : Fits limit b :=
  ⟨fits.viable, fits.short.trans le⟩

theorem contract_fits (grouped : p.table = table g) (token : Lexeme) (room : bound < limit) :
    Branching.Contract p token (Fits bound) (fun _ => Fits bound) (Fits (bound + 1))
      (Continues token limit) (Finished token) where
  shift := by
    intro b serial fits target entry
    rw [targets_eq grouped] at entry
    obtain ⟨goes, shifted⟩ := fits.shift entry (.lexeme token) b.errors b.level serial
    exact ⟨Bool.eq_false_iff.mpr (goes ∘ isEnd_eq_true_iff.mp), shifted.mono room⟩
  reduce := by
    intro b serial frames fits number entry reduced
    rw [rules_eq grouped] at entry
    exact fits.reduce grouped entry reduced serial
  accept := by
    intro b serial frames fits number entry reduced
    rw [rules_eq grouped] at entry
    obtain ⟨count, viable⟩ := fits.viable
    rcases viable.reduct grouped entry token with ⟨frames', same, -⟩ | ⟨v, same, ends, -⟩
    · rw [reduced] at same
      cases same
    · rw [reduced] at same
      cases same
      exact ⟨isEnd_eq_true_iff.mpr ends, v, rfl⟩
  delete := fun b serial fits goes => ⟨goes, fits.viable, fits.short.trans room.le⟩
  queue := fun _ fits _ _ => fits
  prepare := by
    intro terminal insertable b serial frames fits number entry reduced
    rw [grouped] at insertable entry
    obtain ⟨c, -, rfl⟩ := (mem_insertable_iff g).mp insertable
    exact fits.reduce grouped entry reduced serial
  insert := by
    intro terminal insertable b serial fits target entry
    rw [grouped] at insertable entry
    obtain ⟨c, -, rfl⟩ := (mem_insertable_iff g).mp insertable
    exact (fits.shift entry _ _ _ _).2

theorem descends_fits (grouped : p.table = table g) (token : Lexeme) (bound : Nat) :
    Branching.Descends p token (Fits bound) (fun _ => Fits bound) weight := by
  have lightens : ∀ (b : Branch Lexeme V) (c : Terminal), Fits bound b →
      ∀ number ∈ (table g).reduces (Frame.top b.frames) c.index,
        p.Lightens weight token b.frames number := by
    intro b c fits number entry
    obtain ⟨count, viable⟩ := fits.viable
    rcases viable.reduct grouped entry token with ⟨frames, same, -, lighter, -⟩ | ⟨v, same, -⟩
    · exact ⟨.waiting, frames, same, fun _ => lighter⟩
    · exact ⟨.accepted, _, same, Fate.noConfusion⟩
  constructor
  · intro b fits number entry
    rw [rules_eq grouped] at entry
    exact lightens b token.terminal fits number entry
  · intro terminal insertable b fits number entry
    rw [grouped] at insertable entry
    obtain ⟨c, -, rfl⟩ := (mem_insertable_iff g).mp insertable
    exact lightens b c fits number entry

structure Ready (token : Lexeme) (bound limit : Nat) (s : Branching Lexeme V) : Prop where
  meets : s.Meets (Fits bound) (Fits bound) (Continues token limit) (Finished token)
  waiting : s.waiting = []

namespace Ready

private theorem pass (grouped : p.table = table g) (ready : Ready token bound limit s)
    (room : bound < limit) {fuel : Nat} (enough : bound + 2 ≤ fuel) :
    ∃ passed, s.pass p token fuel = .ok passed ∧ Ready token bound limit passed := by
  have light : ∀ b ∈ s.live, weight b.frames < fuel := by
    intro b member
    have heavy := weight_le b.frames
    have short := (ready.meets.alive b member).short
    omega
  obtain ⟨passed, run⟩ := (descends_fits grouped token bound).exists_pass
    (contract_fits grouped token room) ready.meets ready.waiting light
  exact ⟨passed, run, (contract_fits grouped token room).pass ready.meets run,
    (Branching.pass_eq_ok run ready.waiting).2⟩

private theorem recover (grouped : p.table = table g) (ready : Ready token bound limit s)
    (room : bound < limit) {fuel : Nat} (enough : bound + 2 ≤ fuel) :
    ∃ recovered, s.recover Branch.merge fuel p token = .ok recovered ∧
      Ready token (bound + 1) limit recovered := by
  have light : ∀ b ∈ s.stranded, weight b.frames < fuel := by
    intro b member
    have heavy := weight_le b.frames
    have short := (ready.meets.stuck b member).short
    omega
  obtain ⟨recovered, run⟩ := (descends_fits grouped token bound).exists_recover
    (contract_fits grouped token room) Branch.merge ready.meets ready.waiting light
  exact ⟨recovered, run,
    (contract_fits grouped token room).recover selects_merge ready.meets ready.waiting run,
    (Branching.recover_keeps run).2.1⟩

private theorem accepted_eq_nil (ready : Ready token bound limit s)
    (goes : Token.isEnd token = false) : s.accepted = [] := by
  refine List.eq_nil_iff_forall_not_mem.mpr fun b member => ?_
  have ends := (ready.meets.done b member).ends
  rw [goes] at ends
  cases ends

private theorem shifted_eq_nil (ready : Ready token bound limit s)
    (ends : Token.isEnd token = true) : s.shifted = [] := by
  refine List.eq_nil_iff_forall_not_mem.mpr fun b member => ?_
  have goes := (ready.meets.gone b member).goes
  rw [ends] at goes
  cases goes

private theorem advance (grouped : p.table = table g) (ready : Ready token bound limit s)
    (goes : Token.isEnd token = false) (lives : s.live ≠ []) (room : bound + 1 < limit)
    {fuel : Nat} (enough : bound + 3 ≤ fuel) (rounds : Nat) :
    ∃ after, s.advance Branch.merge fuel p token (rounds + 2) = .ok after ∧ after.shifted ≠ [] ∧
      (∀ b ∈ after.shifted, Fits limit b) ∧ after.accepted = [] := by
  obtain ⟨passed, run, ready'⟩ := ready.pass grouped (by omega : bound < limit)
    (by omega : bound + 2 ≤ fuel)
  have none := ready'.accepted_eq_nil goes
  by_cases shifted : passed.shifted = []
  · obtain ⟨b, member⟩ := List.exists_mem_of_ne_nil _ lives
    have stranded : passed.stranded ≠ [] := by
      rcases Branching.pass_outcome run member (fun _ _ _ _ _ _ => trivial)
        (trivial : (fun _ => True) b.frames) with more | more | ⟨b', stuck, -⟩
      · exact absurd shifted more
      · rw [none] at more
        exact absurd more (Nat.not_lt_zero _)
      · exact List.ne_nil_of_mem stuck
    obtain ⟨recovered, again, ready''⟩ := ready'.recover grouped (by omega : bound < limit)
      (by omega : bound + 2 ≤ fuel)
    have dropped := Branching.recover_shifted_ne_nil again goes stranded
    obtain ⟨last, rerun, settled⟩ := ready''.pass grouped (by omega : bound + 1 < limit)
      (by omega : bound + 1 + 2 ≤ fuel)
    have kept : last.shifted ≠ [] := fun empty =>
      dropped (List.prefix_nil.mp (empty ▸ (Branching.pass_grows rerun).1.shifted))
    refine ⟨last, ?_, kept, fun b member => (settled.meets.gone b member).fits,
      settled.accepted_eq_nil goes⟩
    rw [Branching.advance_of_stuck run again shifted (by simp [none]) stranded]
    exact Branching.advance_of_settled _ rerun (.inl kept) rounds
  · exact ⟨passed, Branching.advance_of_settled _ run (.inl shifted) (rounds + 1), shifted,
      fun b member => (ready'.meets.gone b member).fits, none⟩

private theorem pass_end (grouped : p.table = table g) (ready : Ready token bound limit s)
    (ends : Token.isEnd token = true) {count : Nat} {b : Branch Lexeme V} (member : b ∈ s.live)
    (viable : Viable count (Frame.states b.frames)) (room : bound < limit) {fuel : Nat}
    (enough : bound + 2 ≤ fuel) :
    ∃ passed, s.pass p token fuel = .ok passed ∧ Ready token bound limit passed ∧
      (s.accepted.length < passed.accepted.length ∨ ∃ stuck ∈ passed.stranded,
        ∃ terminal ∈ p.table.insertable, ∃ target ∈ p.table.shifts (Frame.top stuck.frames) terminal,
          ∃ count', count = count' + 1 ∧ Viable count' (target :: Frame.states stuck.frames)) := by
  obtain ⟨passed, run, ready'⟩ := ready.pass grouped room enough
  refine ⟨passed, run, ready', ?_⟩
  have closed : ∀ frames frames', Viable count (Frame.states frames) →
      ∀ number ∈ p.rules token frames, p.reduct token frames number = .ok (.waiting, frames') →
        Viable count (Frame.states frames') := by
    intro frames frames' viable number entry reduced
    rw [rules_eq grouped] at entry
    exact (viable.closed grouped entry reduced).1
  rcases Branching.pass_outcome run member closed viable with
    more | more | ⟨stuck, stranded, viable', -, rules⟩
  · exact absurd (ready'.shifted_eq_nil ends) more
  · exact .inl more
  · rw [rules_eq grouped, isEnd_eq_true_iff.mp ends] at rules
    obtain ⟨c, target, count', goes, entry, more, inserted⟩ := viable'.exists_missing rules
    rw [grouped]
    exact .inr ⟨stuck, stranded, c.index, (mem_insertable_iff g).mpr ⟨c, goes, rfl⟩, target, entry,
      count', more, inserted⟩

private theorem finish (grouped : p.table = table g) (ready : Ready token bound limit s)
    (ends : Token.isEnd token = true) {count : Nat} {b : Branch Lexeme V} (member : b ∈ s.live)
    (viable : Viable count (Frame.states b.frames)) (room : bound + count < limit) {fuel : Nat}
    (enough : bound + count + 2 ≤ fuel) (rounds : Nat) :
    ∃ after, s.advance Branch.merge fuel p token (rounds + count + 1) = .ok after ∧
      after.accepted ≠ [] ∧ (∀ b ∈ after.accepted, Finished token b) ∧ after.shifted = [] := by
  induction count generalizing s bound b with
  | zero =>
    obtain ⟨passed, run, ready', more | ⟨_, _, _, _, _, _, _, less, _⟩⟩ :=
      ready.pass_end grouped ends member viable room enough
    · exact ⟨passed, Branching.advance_of_settled _ run (.inr (.inl more)) rounds,
        List.ne_nil_of_length_pos (Nat.zero_lt_of_lt more), ready'.meets.done,
        ready'.shifted_eq_nil ends⟩
    · cases less
  | succ count ih =>
    obtain ⟨passed, run, ready', outcome⟩ := ready.pass_end grouped ends member viable
      (by omega : bound < limit) (by omega : bound + 2 ≤ fuel)
    by_cases more : s.accepted.length < passed.accepted.length
    · exact ⟨passed, Branching.advance_of_settled _ run (.inr (.inl more)) _,
        List.ne_nil_of_length_pos (Nat.zero_lt_of_lt more), ready'.meets.done,
        ready'.shifted_eq_nil ends⟩
    · obtain ⟨stuck, stranded, terminal, insertable, target, entry, count', same, viable'⟩ :=
        outcome.resolve_left more
      cases same
      obtain ⟨recovered, again, ready''⟩ := ready'.recover grouped (by omega : bound < limit)
        (by omega : bound + 2 ≤ fuel)
      obtain ⟨inserted, lives, states, -⟩ :=
        Branching.recover_complete again stranded insertable .refl
          (Parser.inserts_states_iff.mpr ⟨target, entry, rfl⟩)
      obtain ⟨after, rest, finished⟩ := ih ready'' lives (states ▸ viable') (by omega) (by omega)
      refine ⟨after, ?_, finished⟩
      rw [Branching.advance_of_stuck run again (ready'.shifted_eq_nil ends) (Nat.not_lt.mp more)
        (List.ne_nil_of_mem stranded)]
      exact rest

end Ready

/-- Before the end of the input branches are live and none is accepted; behind it one is accepted
and none is live. -/
inductive Stage (bound : Nat) : Bool → Branching Lexeme V → Prop
  | ongoing {s : Branching Lexeme V} : s.live ≠ [] → (∀ b ∈ s.live, Fits bound b) →
      s.accepted = [] → Stage bound false s
  | finished {s : Branching Lexeme V} {b : Branch Lexeme V} {v : V} : s.live = [] → s.accepted = [b] →
      b.frames = [⟨0, .reduced v⟩] → Stage bound true s

private theorem exists_merge_eq_singleton {branches : List (Branch Lexeme V)}
    (finished : ∀ b ∈ branches, Finished token b) (filled : branches ≠ []) :
    ∃ b v, (Branch.merge branches).1 = [b] ∧ b.frames = [⟨0, .reduced v⟩] := by
  have same : ∀ b ∈ branches, b.path = [0, 0] := by
    intro b member
    obtain ⟨v, frames⟩ := (finished b member).whole
    rw [Branch.path, frames]
    rfl
  obtain ⟨b, member, kept⟩ := exists_survivors_eq_singleton Branch.rank same filled
  obtain ⟨v, frames⟩ := (finished b member).whole
  exact ⟨b, v, kept, frames⟩

theorem Stage.input (grouped : p.table = table g) {ended : Bool} (stage : Stage bound ended s)
    (idle : s.Idle) (token : Lexeme) {fuel : Nat} (enough : 2 * bound + 4 ≤ fuel) :
    ∃ after, s.input Branch.merge fuel p token = .ok after ∧
      Stage (bound + 2) (ended || Token.isEnd token) after := by
  cases stage with
  | ongoing lives fits none =>
    have begun (limit : Nat) : Ready token bound limit
        { s with stats := { s.stats with tokens := s.stats.tokens + 1 } } :=
      ⟨idle.meets fits (by simp [none]) _, idle.waiting⟩
    cases ending : Token.isEnd token with
    | false =>
      obtain ⟨rounds, rfl⟩ : ∃ rounds, fuel = rounds + 2 := ⟨fuel - 2, by omega⟩
      obtain ⟨advanced, moved, shifted, fits', none'⟩ := (begun (bound + 2)).advance grouped ending
        lives (by omega) (by omega : bound + 3 ≤ rounds + 2) rounds
      refine ⟨advanced.settle Branch.merge, by rw [Branching.input, moved]; rfl,
        .ongoing ?_ (fun b member => fits' b (selects_merge _ b member)) ?_⟩
      · exact fun empty => shifted (survivors_eq_nil_iff.mp empty)
      · exact survivors_eq_nil_iff.mpr none'
    | true =>
      obtain ⟨b, member⟩ := List.exists_mem_of_ne_nil _ lives
      obtain ⟨⟨count, viable⟩, short⟩ := fits b member
      have few := viable.le_length
      simp only [Frame.states, List.length_append, List.length_map, List.length_singleton] at few
      obtain ⟨rounds, rfl⟩ : ∃ rounds, fuel = rounds + count + 1 := ⟨fuel - (count + 1), by omega⟩
      obtain ⟨advanced, moved, accepted, finished, none'⟩ :=
        (begun (bound + count + 1)).finish grouped ending member viable (by omega)
          (by omega : bound + count + 2 ≤ rounds + count + 1) rounds
      obtain ⟨kept, v, merged, frames⟩ := exists_merge_eq_singleton finished accepted
      exact ⟨advanced.settle Branch.merge, by rw [Branching.input, moved]; rfl,
        .finished (survivors_eq_nil_iff.mpr none') merged frames⟩
  | finished none accepted frames =>
    obtain ⟨rounds, rfl⟩ : ∃ rounds, fuel = rounds + 1 := ⟨fuel - 1, by omega⟩
    have run : Branching.pass p token (rounds + 1)
        { s with stats := { s.stats with tokens := s.stats.tokens + 1 } } = .ok
          { s with stats := { s.stats with tokens := s.stats.tokens + 1 } } := by
      apply Branching.pass_nil
      exact none
    have moved := Branching.advance_of_settled Branch.merge run (.inr (.inr idle.stranded)) rounds
    refine ⟨_, by rw [Branching.input, moved]; rfl, .finished ?_ ?_ frames⟩
    · exact survivors_eq_nil_iff.mpr idle.shifted
    · change survivors _ _ s.accepted = _
      rw [accepted, survivors_singleton]

theorem Stage.parse (grouped : p.table = table g) {ended : Bool} (stage : Stage bound ended s)
    (idle : s.Idle) (tokens : List Lexeme) {fuel : Nat}
    (enough : 2 * bound + 4 * tokens.length + 4 ≤ fuel) :
    ∃ after, Branching.parse Branch.merge fuel p tokens s = .ok after ∧ after.Idle ∧
      Stage (bound + 2 * tokens.length) (ended || tokens.any Token.isEnd) after := by
  induction tokens generalizing s bound ended with
  | nil => exact ⟨s, rfl, idle, by simpa using stage⟩
  | cons token rest ih =>
    rw [List.length_cons] at enough
    obtain ⟨next, taken, stage'⟩ := stage.input grouped idle token (by omega : _ ≤ fuel)
    obtain ⟨after, run, idle', last⟩ := ih stage' (idle.input taken) (by omega)
    refine ⟨after, ?_, idle', ?_⟩
    · rw [Branching.parse, taken]
      exact run
    · rw [show bound + 2 * (token :: rest).length = bound + 2 + 2 * rest.length by
        rw [List.length_cons]; omega, List.any_cons, ← Bool.or_assoc]
      exact last

theorem Stage.start : Stage 0 false (Branching.start : Branching Lexeme V) := by
  refine .ongoing (List.cons_ne_nil _ _) (fun b member => ?_) rfl
  obtain rfl := List.mem_singleton.mp member
  exact ⟨⟨1, .operand .root⟩, Nat.zero_le _⟩

theorem exists_parse (grouped : p.table = table g) (tokens : List Lexeme) {fuel : Nat}
    (enough : 4 * tokens.length + 4 ≤ fuel) :
    ∃ s, Branching.parse Branch.merge fuel p tokens .start = .ok s ∧ s.Idle ∧
      Stage (2 * tokens.length) (tokens.any Token.isEnd) s := by
  obtain ⟨s, run, idle, stage⟩ :=
    Stage.start.parse grouped Branching.idle_start tokens (by omega : _ ≤ fuel)
  exact ⟨s, run, idle, by simpa using stage⟩

theorem Stage.heads {ended : Bool} (stage : Stage bound ended s) {e : Engine Lexeme V}
    (shows : e.Shows s) :
    if ended then e.heads = [] ∧ e.accepted.length = 1 else e.heads ≠ [] ∧ e.accepted = [] := by
  have lives := shows.live
  have accepts := shows.accepted
  cases stage with
  | ongoing filled _ none =>
    rw [none] at accepts
    refine ⟨fun empty => filled ?_, List.forall₂_nil_right_iff.mp accepts⟩
    rw [empty] at lives
    exact List.forall₂_nil_left_iff.mp lives
  | finished none accepted _ =>
    rw [none] at lives
    rw [accepted] at accepts
    exact ⟨List.forall₂_nil_right_iff.mp lives, accepts.length_eq⟩

theorem exists_engine_parse (grouped : p.table = table g) (tokens : List Lexeme) {fuel : Nat}
    (enough : 4 * tokens.length + 4 ≤ fuel) :
    ∃ e s, Engine.parse fuel p tokens .start = .ok e ∧ e.Shows s ∧
      Stage (2 * tokens.length) (tokens.any Lexeme.isEnd) s := by
  obtain ⟨s, run, -, stage⟩ := exists_parse grouped tokens enough
  obtain ⟨e, parsed, shows⟩ := Engine.exists_parse_of_branching run
  exact ⟨e, s, parsed, shows, stage⟩

section Evaluate

variable {grouping : Grouping} {codes : ErrorCodes} {source : String}

theorem enough_fuelFor (source : String) {tokens : List Lexeme}
    (listed : tokens.length ≤ (scan source).length) :
    4 * tokens.length + 4 ≤ fuelFor source := by
  have short : (scan source).length ≤ source.length + 1 := length_scanFrom_le ..
  unfold fuelFor
  omega

/-- A source that can be cut into tokens has a value: the result of the only parse that is accepted. -/
theorem exists_evaluation (grouping : Grouping) (codes : ErrorCodes) {tokens : List Lexeme}
    (run : tokenize source = .ok tokens) :
    ∃ s b v stats, Branching.parse Branch.merge (fuelFor source) (parser grouping codes) tokens .start =
        .ok s ∧ s.accepted = [b] ∧ b.frames = [⟨0, .reduced v⟩] ∧
      evaluate grouping codes source =
        .ok ⟨v, b.errors.map (·.diagnostic codes), stats⟩ := by
  have scanned := tokenize_eq_ok run
  obtain ⟨front, last, split, ends, -⟩ := exists_concat_of_tokenize run
  have ended : tokens.any Lexeme.isEnd = true := by simp [split, ends]
  obtain ⟨s, branched, -, stage⟩ := exists_parse (p := parser grouping codes)
    (g := grouping) rfl tokens (enough_fuelFor source (by simp [scanned]))
  obtain ⟨e, parsed, shows⟩ := Engine.exists_parse_of_branching branched
  rw [show tokens.any Token.isEnd = true from ended] at stage
  cases stage with
  | @finished _ b v _ accepted frames =>
    obtain ⟨head, heads, errors, result⟩ := shows.result accepted frames
    have reports : e.diagnostics codes 0 = b.errors.map (·.diagnostic codes) := by
      simp [Engine.diagnostics, result, heads, errors]
    have fed := feed_append parsed []
    rw [List.append_nil, ← scanned] at fed
    have evaluated := evaluate_eq_ok fed result
    rw [reports] at evaluated
    exact ⟨s, b, v, _, branched, accepted, frames, evaluated⟩

theorem evaluate_of_tokenize_eq_error {cause : Error}
    (run : tokenize source = .error cause) : evaluate grouping codes source = .error cause := by
  obtain ⟨tokens, rest, scanned⟩ := exists_of_tokenize_eq_error run
  obtain ⟨e, s, parsed, -⟩ := exists_engine_parse (p := parser grouping codes) (g := grouping) rfl
    tokens (enough_fuelFor source (by simp [scanned]))
  refine evaluate_eq_error ?_
  rw [scanned, feed_append parsed, feed]

end Evaluate

/-- Every token is taken in. Before the end of the input a head is live and none is accepted, behind
it exactly one is accepted and none is live. So an expression is evaluated if its source can be cut
into tokens at all. -/
theorem evaluate_total (grouping : Grouping) (codes : ErrorCodes) :
    (∀ (tokens : List Lexeme) (more : Nat), ∃ e,
      Engine.parse (4 * tokens.length + 4 + more) (parser grouping codes) tokens .start = .ok e ∧
        if tokens.any Lexeme.isEnd then e.heads = [] ∧ e.accepted.length = 1
        else e.heads ≠ [] ∧ e.accepted = []) ∧
    ∀ source, match tokenize source with
      | .ok _ => ∃ evaluation, evaluate grouping codes source = .ok evaluation
      | .error cause => evaluate grouping codes source = .error cause := by
  refine ⟨fun tokens more => ?_, fun source => ?_⟩
  · obtain ⟨e, s, run, shows, stage⟩ := exists_engine_parse (p := parser grouping codes)
      (g := grouping) rfl tokens (Nat.le_add_right _ more)
    exact ⟨e, run, stage.heads shows⟩
  · split
    · next tokens run =>
      obtain ⟨_, _, _, _, -, -, -, evaluated⟩ := exists_evaluation grouping codes run
      exact ⟨_, evaluated⟩
    · next cause run => exact evaluate_of_tokenize_eq_error run

end GeneralizedLR.Arithmetic
