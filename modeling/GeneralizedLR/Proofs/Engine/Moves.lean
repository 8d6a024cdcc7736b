import GeneralizedLR.Proofs.Engine.Branching
import GeneralizedLR.Proofs.Outcome

/-!
What the moves of a branch add to a branching. A shift or a reduction makes one branch; which ones
there are is said by the entries of the table.
-/

set_option autoImplicit false
set_option relaxedAutoImplicit false

namespace GeneralizedLR

variable {K V : Type}

@[simp] theorem Fate.select_nil (fate : Fate) : fate.select ([] : List (Fate × Branch K V)) = [] :=
  rfl

@[simp] theorem Fate.select_cons (fate : Fate) (fork : Fate × Branch K V)
    (rest : List (Fate × Branch K V)) :
    fate.select (fork :: rest) =
      if fork.1 = fate then fork.2 :: fate.select rest else fate.select rest := by
  unfold Fate.select
  rw [List.filterMap_cons]
  split <;> simp_all

@[simp] theorem Fate.select_append (fate : Fate) (forks rest : List (Fate × Branch K V)) :
    fate.select (forks ++ rest) = fate.select forks ++ fate.select rest := by
  simp [Fate.select]

theorem Branch.fork_append (b : Branch K V) (serial : Nat) (moves rest : List (Move K V)) :
    b.fork serial (moves ++ rest) = b.fork serial moves ++ b.fork (serial + moves.length) rest := by
  induction moves generalizing serial with
  | nil => rfl
  | cons move moves ih =>
    simp [Branch.fork, ih, Nat.add_assoc, Nat.add_comm 1]

theorem Branching.take_append (s : Branching K V) (b : Branch K V) (moves rest : List (Move K V)) :
    s.take b (moves ++ rest) = (s.take b moves).take b rest := by
  simp only [Branching.take, Branch.fork_append, Fate.select_append, List.append_assoc,
    List.length_append, Nat.add_assoc]
  congr 2; omega

theorem Branching.take_nil (s : Branching K V) (b : Branch K V) : s.take b [] = s := by
  simp [Branching.take, Branch.fork]

theorem Branching.take_shifted (s : Branching K V) (b : Branch K V) (frames : List (Frame K V)) :
    s.take b [(.shifted, frames)] =
      { s with
        shifted := s.shifted ++ [{ b with frames, serial := s.serial + 1 }]
        serial := s.serial + 1
        stats := { s.stats with shifts := s.stats.shifts + 1 } } := by
  simp [Branching.take, Branch.fork]

theorem Branching.take_waiting (s : Branching K V) (b : Branch K V) (frames : List (Frame K V)) :
    s.take b [(.waiting, frames)] =
      { s with
        waiting := s.waiting ++ [{ b with frames, serial := s.serial + 1 }]
        serial := s.serial + 1
        stats := { s.stats with reductions := s.stats.reductions + 1 } } := by
  simp [Branching.take, Branch.fork]

theorem Branching.take_accepted (s : Branching K V) (b : Branch K V) (frames : List (Frame K V)) :
    s.take b [(.accepted, frames)] =
      { s with
        accepted := s.accepted ++ [{ b with frames, serial := s.serial + 1 }]
        serial := s.serial + 1
        stats := { s.stats with reductions := s.stats.reductions + 1 } } := by
  simp [Branching.take, Branch.fork]

theorem Branching.prepare_nil (record : ErrorRecord) (b : Branch K V)
    (s : Branching K V × List (Branch K V)) : Branching.prepare record b [] s = s := by
  simp [Branching.prepare, Branch.fork]

theorem Branching.prepare_shifted (record : ErrorRecord) (b : Branch K V)
    (frames : List (Frame K V)) (s : Branching K V) (queue : List (Branch K V)) :
    Branching.prepare record b [(.shifted, frames)] (s, queue) =
      ({ s with
        waiting := s.waiting ++ [{ b with frames, serial := s.serial + 1 }.repaired record]
        serial := s.serial + 1
        stats := { s.stats with insertions := s.stats.insertions + 1 } }, queue) := by
  simp [Branching.prepare, Branch.fork]

theorem Branching.prepare_waiting (record : ErrorRecord) (b : Branch K V)
    (frames : List (Frame K V)) (s : Branching K V) (queue : List (Branch K V)) :
    Branching.prepare record b [(.waiting, frames)] (s, queue) =
      ({ s with
        serial := s.serial + 1
        stats := { s.stats with closures := s.stats.closures + 1 } },
       queue ++ [{ b with frames, serial := s.serial + 1 }]) := by
  simp [Branching.prepare, Branch.fork]

theorem Branching.prepare_accepted (record : ErrorRecord) (b : Branch K V)
    (frames : List (Frame K V)) (s : Branching K V) (queue : List (Branch K V)) :
    Branching.prepare record b [(.accepted, frames)] (s, queue) =
      ({ s with
        serial := s.serial + 1
        stats := { s.stats with closures := s.stats.closures + 1 } }, queue) := by
  simp [Branching.prepare, Branch.fork]

theorem Branching.prepare_append (record : ErrorRecord) (b : Branch K V)
    (moves rest : List (Move K V)) (s : Branching K V × List (Branch K V)) :
    Branching.prepare record b (moves ++ rest) s =
      Branching.prepare record b rest (Branching.prepare record b moves s) := by
  simp only [Branching.prepare, Branch.fork_append, Fate.select_append, List.append_assoc,
    List.length_append, Nat.add_assoc, List.map_append]
  congr 3; omega

private theorem Fate.mem_select {fate : Fate} {forks : List (Fate × Branch K V)} {b : Branch K V} :
    b ∈ fate.select forks ↔ (fate, b) ∈ forks := by
  induction forks with
  | nil => simp
  | cons fork rest ih =>
    obtain ⟨other, b'⟩ := fork
    by_cases same : other = fate
    · simp [same, ih]
    · simp [same, ih, Ne.symm same]

/-- A forked branch comes from a move with its fate, and differs from the old one in its stack and
its number. -/
theorem Branch.exists_move_of_mem_fork {b b' : Branch K V} {fate : Fate} {serial : Nat}
    {moves : List (Move K V)} (member : b' ∈ fate.select (b.fork serial moves)) :
    ∃ frames number, (fate, frames) ∈ moves ∧ b' = { b with frames, serial := number } := by
  rw [Fate.mem_select] at member
  induction moves generalizing serial with
  | nil => cases member
  | cons move moves ih =>
    obtain ⟨fate', frames'⟩ := move
    rcases List.mem_cons.mp member with same | member
    · cases same
      exact ⟨frames', serial + 1, List.mem_cons_self .., rfl⟩
    · obtain ⟨frames, number, listed, eq⟩ := ih member
      exact ⟨frames, number, List.mem_cons_of_mem _ listed, eq⟩

theorem Branch.serial_lt_of_mem_fork {b b' : Branch K V} {fate : Fate} {serial : Nat}
    {moves : List (Move K V)} (member : b' ∈ fate.select (b.fork serial moves)) :
    serial < b'.serial := by
  rw [Fate.mem_select] at member
  induction moves generalizing serial with
  | nil => cases member
  | cons move moves ih =>
    rcases List.mem_cons.mp member with same | member
    · cases same
      exact Nat.lt_succ_self serial
    · exact (Nat.lt_succ_self serial).trans (ih member)

theorem Branch.exists_mem_fork (b : Branch K V) {fate : Fate} {frames : List (Frame K V)}
    {moves : List (Move K V)} (listed : (fate, frames) ∈ moves) (serial : Nat) :
    ∃ number, { b with frames, serial := number } ∈ fate.select (b.fork serial moves) := by
  simp only [Fate.mem_select]
  induction moves generalizing serial with
  | nil => cases listed
  | cons move moves ih =>
    rcases List.mem_cons.mp listed with rfl | listed
    · exact ⟨serial + 1, List.mem_cons_self ..⟩
    · obtain ⟨number, member⟩ := ih listed (serial + 1)
      exact ⟨number, List.mem_cons_of_mem _ member⟩

theorem Parser.reduct_eq_ok {p : Parser K V} {lookahead : K} {frames : List (Frame K V)}
    {production : Nat} {move : Move K V} :
    p.reduct lookahead frames production = .ok move ↔
      ∃ rule state, p.table.production? production = some rule ∧ rule.arity ≤ frames.length ∧
        p.table.landing rule (Frame.top (frames.drop rule.arity)) = .ok state ∧
        move = (if rule.isStart then .accepted else .waiting,
          ⟨state, .reduced (p.reducer production
            ((frames.take rule.arity).reverse.map (·.content)) lookahead)⟩ ::
              frames.drop rule.arity) := by
  unfold Parser.reduct
  cases p.table.production? production with
  | none => simp
  | some rule =>
    by_cases short : frames.length < rule.arity
    · simp [short]
    · simp only [if_neg short]
      cases landing : p.table.landing rule (Frame.top (frames.drop rule.arity)) with
      | error cause => simp [landing]
      | ok state =>
        constructor
        · rintro ⟨⟩
          exact ⟨rule, state, rfl, Nat.le_of_not_lt short, landing, rfl⟩
        · rintro ⟨_, _, ⟨⟩, _, found, rfl⟩
          rw [landing] at found
          cases found
          rfl

theorem Parser.reduct_waiting_iff {p : Parser K V} {lookahead : K} {frames frames' : List (Frame K V)}
    {production : Nat} :
    p.reduct lookahead frames production = .ok (.waiting, frames') ↔
      ∃ rule target, p.table.production? production = some rule ∧ rule.arity ≤ frames.length ∧
        rule.isStart = false ∧
        p.table.goto? (Frame.top (frames.drop rule.arity)) rule.nonterminal = some target ∧
        frames' = ⟨target, .reduced (p.reducer production
          ((frames.take rule.arity).reverse.map (·.content)) lookahead)⟩ ::
            frames.drop rule.arity := by
  rw [Parser.reduct_eq_ok]
  constructor
  · rintro ⟨rule, state, listed, arity, landing, eq⟩
    cases start : rule.isStart with
    | true =>
      rw [start] at eq
      cases eq
    | false =>
      rw [start] at eq
      cases eq
      unfold Table.landing at landing
      rw [if_neg (by simp [start])] at landing
      split at landing
      · next target found =>
        cases landing
        exact ⟨rule, _, listed, arity, start, found, rfl⟩
      · cases landing
  · rintro ⟨rule, target, listed, arity, start, found, rfl⟩
    refine ⟨rule, target, listed, arity, ?_, by simp [start]⟩
    simp [Table.landing, start, found]

theorem Parser.reduct_accepted_iff {p : Parser K V} {lookahead : K}
    {frames frames' : List (Frame K V)} {production : Nat} :
    p.reduct lookahead frames production = .ok (.accepted, frames') ↔
      ∃ rule, p.table.production? production = some rule ∧ rule.arity ≤ frames.length ∧
        rule.isStart = true ∧
        frames' = ⟨Frame.top (frames.drop rule.arity), .reduced (p.reducer production
          ((frames.take rule.arity).reverse.map (·.content)) lookahead)⟩ ::
            frames.drop rule.arity := by
  rw [Parser.reduct_eq_ok]
  constructor
  · rintro ⟨rule, state, listed, arity, landing, eq⟩
    cases start : rule.isStart with
    | true =>
      rw [start] at eq
      cases eq
      simp only [Table.landing, start, if_true, Except.ok.injEq] at landing
      exact ⟨rule, listed, arity, start, by rw [landing]⟩
    | false =>
      rw [start] at eq
      cases eq
  · rintro ⟨rule, listed, arity, start, rfl⟩
    refine ⟨rule, Frame.top (frames.drop rule.arity), listed, arity, ?_, by simp [start]⟩
    simp [Table.landing, start]

theorem Parser.mem_moves {p : Parser K V} {lookahead lexeme : K} {targets rules : List Nat}
    {frames : List (Frame K V)} {made : List (Move K V)}
    (run : p.moves lookahead lexeme targets rules frames = .ok made) (move : Move K V) :
    move ∈ made ↔ (∃ target ∈ targets, move = (.shifted, ⟨target, .lexeme lexeme⟩ :: frames)) ∨
      ∃ production ∈ rules, p.reduct lookahead frames production = .ok move := by
  unfold Parser.moves at run
  cases reducts : rules.mapM (p.reduct lookahead frames) with
  | error cause =>
    rw [reducts] at run
    cases run
  | ok reduced =>
    rw [reducts] at run
    cases run
    have listed : move ∈ reduced ↔
        ∃ production ∈ rules, p.reduct lookahead frames production = .ok move := by
      have related := forall₂_of_mapM_eq_ok reducts
      constructor
      · intro member
        exact exists_of_forall₂_right related member
      · rintro ⟨production, member, made⟩
        obtain ⟨other, listed, made'⟩ := exists_of_forall₂_left related member
        rw [made] at made'
        cases made'
        exact listed
    rw [List.mem_append, List.mem_map, listed]
    simp only [eq_comm (a := move)]

theorem Parser.mem_moves_shifted {p : Parser K V} {lookahead lexeme : K} {targets rules : List Nat}
    {frames frames' : List (Frame K V)} {made : List (Move K V)}
    (run : p.moves lookahead lexeme targets rules frames = .ok made) :
    (.shifted, frames') ∈ made ↔ ∃ target ∈ targets, frames' = ⟨target, .lexeme lexeme⟩ :: frames := by
  rw [Parser.mem_moves run]
  constructor
  · rintro (⟨target, entry, eq⟩ | ⟨production, _, reduced⟩)
    · cases eq
      exact ⟨target, entry, rfl⟩
    · obtain ⟨rule, state, _, _, _, eq⟩ := Parser.reduct_eq_ok.mp reduced
      split at eq <;> cases eq
  · rintro ⟨target, entry, rfl⟩
    exact .inl ⟨target, entry, rfl⟩

theorem Parser.mem_moves_of_ne_shifted {p : Parser K V} {lookahead lexeme : K}
    {targets rules : List Nat} {frames frames' : List (Frame K V)} {made : List (Move K V)}
    (run : p.moves lookahead lexeme targets rules frames = .ok made) {fate : Fate}
    (other : fate ≠ .shifted) :
    (fate, frames') ∈ made ↔
      ∃ production ∈ rules, p.reduct lookahead frames production = .ok (fate, frames') := by
  rw [Parser.mem_moves run]
  constructor
  · rintro (⟨target, _, eq⟩ | reduced)
    · cases eq
      exact absurd rfl other
    · exact reduced
  · exact .inr

theorem Parser.movesOn_of_targets [Token K] {p : Parser K V} {token : K} {frames : List (Frame K V)}
    {target : Nat} (shifts : p.targets token frames = [target]) (settled : p.rules token frames = []) :
    p.movesOn token frames = .ok [(.shifted, ⟨target, .lexeme token⟩ :: frames)] := by
  rw [Parser.movesOn, shifts, settled]
  rfl

theorem Parser.movesOn_of_rules [Token K] {p : Parser K V} {token : K} {frames : List (Frame K V)}
    {production : Nat} {move : Move K V} (stays : p.targets token frames = [])
    (single : p.rules token frames = [production])
    (reduced : p.reduct token frames production = .ok move) :
    p.movesOn token frames = .ok [move] := by
  rw [Parser.movesOn, stays, single, Parser.moves, List.mapM_cons, reduced]
  rfl

theorem Parser.length_moves {p : Parser K V} {lookahead lexeme : K} {targets rules : List Nat}
    {frames : List (Frame K V)} {made : List (Move K V)}
    (run : p.moves lookahead lexeme targets rules frames = .ok made) :
    made.length = targets.length + rules.length := by
  unfold Parser.moves at run
  cases reducts : rules.mapM (p.reduct lookahead frames) with
  | error cause =>
    rw [reducts] at run
    cases run
  | ok reduced =>
    rw [reducts] at run
    cases run
    simp [(forall₂_of_mapM_eq_ok reducts).length_eq]

section Steps

variable {s after : Branching K V} {b : Branch K V}

def Branching.held (s : Branching K V) : Fate → List (Branch K V)
  | .shifted => s.shifted
  | .waiting => s.waiting
  | .accepted => s.accepted

theorem Branching.held_take_conclude (s : Branching K V) (b : Branch K V) (moves : List (Move K V))
    (count : Nat) (fate : Fate) :
    ((s.take b moves).conclude b count).held fate =
      s.held fate ++ fate.select (b.fork s.serial moves) := by
  unfold Branching.conclude
  split <;> cases fate <;> rfl

theorem Branching.mem_held_take_conclude {s : Branching K V} {b b' : Branch K V}
    {moves : List (Move K V)} {count : Nat} (fate : Fate)
    (member : b' ∈ ((s.take b moves).conclude b count).held fate) :
    b' ∈ s.held fate ∨
      ∃ frames number, (fate, frames) ∈ moves ∧ b' = { b with frames, serial := number } := by
  rw [Branching.held_take_conclude] at member
  exact (List.mem_append.mp member).imp_right Branch.exists_move_of_mem_fork

theorem Branching.exists_mem_held_take_conclude (s : Branching K V) (b : Branch K V) (count : Nat)
    {moves : List (Move K V)} {fate : Fate} {frames : List (Frame K V)}
    (listed : (fate, frames) ∈ moves) :
    ∃ number, { b with frames, serial := number } ∈
      ((s.take b moves).conclude b count).held fate := by
  obtain ⟨number, member⟩ := b.exists_mem_fork listed s.serial
  rw [Branching.held_take_conclude]
  exact ⟨number, List.mem_append_right _ member⟩

theorem Branching.length_held_lt_take_conclude (s : Branching K V) (b : Branch K V) (count : Nat)
    {moves : List (Move K V)} {fate : Fate} {frames : List (Frame K V)}
    (listed : (fate, frames) ∈ moves) :
    (s.held fate).length < (((s.take b moves).conclude b count).held fate).length := by
  obtain ⟨number, member⟩ := b.exists_mem_fork listed s.serial
  have some := List.length_pos_of_mem member
  rw [Branching.held_take_conclude, List.length_append]
  omega

theorem Branching.held_prefix_take_conclude (s : Branching K V) (b : Branch K V)
    (moves : List (Move K V)) (count : Nat) (fate : Fate) :
    s.held fate <+: ((s.take b moves).conclude b count).held fate := by
  rw [Branching.held_take_conclude]
  exact List.prefix_append ..

@[simp] theorem Branching.conclude_live (s : Branching K V) (b : Branch K V) (moves : Nat) :
    (s.conclude b moves).live = s.live := by
  unfold Branching.conclude
  split <;> rfl

@[simp] theorem Branching.conclude_stranded (s : Branching K V) (b : Branch K V) (moves : Nat) :
    (s.conclude b moves).stranded = s.stranded ++ if moves = 0 then [b] else [] := by
  unfold Branching.conclude
  split
  · rfl
  · exact (List.append_nil _).symm

variable [Token K] {p : Parser K V} {token : K}

theorem Branching.step_eq_ok :
    s.step p token b = .ok after ↔ ∃ moves, p.movesOn token b.frames = .ok moves ∧
      after = (s.take b moves).conclude b moves.length := by
  unfold Branching.step
  cases p.movesOn token b.frames with
  | error cause => simp
  | ok moves => simp [eq_comm]

theorem Branching.insertAt_eq_ok {terminal : Nat} {x y : Branching K V × List (Branch K V)} :
    Branching.insertAt p token terminal x b = .ok y ↔
      ∃ moves, p.movesBefore token terminal b.frames = .ok moves ∧
        y = Branching.prepare (Branching.missing p token terminal) b moves x := by
  obtain ⟨s, queue⟩ := x
  simp only [Branching.insertAt]
  cases p.movesBefore token terminal b.frames with
  | error cause => simp
  | ok moves => simp [eq_comm]

end Steps

end GeneralizedLR
