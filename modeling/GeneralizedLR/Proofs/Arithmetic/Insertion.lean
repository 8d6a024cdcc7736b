import GeneralizedLR.Proofs.Arithmetic.Composition
import GeneralizedLR.Proofs.Arithmetic.Missing
import GeneralizedLR.Proofs.Engine.Insertion

/-!
Incomplete input. Where the tokens only begin a sentence, the parser inserts the terminals that are
missing behind them and nothing else. The result is that of the sentence which these terminals complete.
-/

set_option autoImplicit false
set_option relaxedAutoImplicit false

namespace GeneralizedLR.Arithmetic

section Table

variable {g : Grouping}

theorem describe_eq (g : Grouping) (c : Terminal) : (table g).describe c.index = c.description := by
  cases g <;> cases c <;> rfl

private theorem description_inj {c c' : Terminal} (same : c.description = c'.description) : c = c' := by
  cases c <;> cases c' <;> first | rfl | exact absurd same (by decide)

private theorem shifts_endOfInput (g : Grouping) (state : Nat) :
    (table g).shifts state Terminal.endOfInput.index = [] := by
  have others : ∀ entry ∈ (table g).shiftEntries, entry.symbol ≠ Terminal.endOfInput.index := by
    cases g <;> decide
  exact List.eq_nil_iff_forall_not_mem.mpr fun target entry => others _ (Transition.mem_targets_iff.mp entry) rfl

private theorem reduces_eq_nil_of_endOfInput {state : Nat}
    (none : (table g).reduces state Terminal.endOfInput.index = []) (c : Terminal) :
    (table g).reduces state c.index = [] := by
  have also : ∀ entry ∈ (table g).reduceEntries,
      { entry with symbol := Terminal.endOfInput.index } ∈ (table g).reduceEntries := by
    cases g <;> decide
  refine List.eq_nil_iff_forall_not_mem.mpr fun number entry => ?_
  have listed : number ∈ (table g).reduces state Terminal.endOfInput.index :=
    Transition.mem_targets_iff.mpr (also _ (Transition.mem_targets_iff.mp entry))
  rw [none] at listed
  cases listed

private theorem rightParen_eq_endOfInput (g : Grouping) : ∀ state ∈ [1, 4, 7, 8, 9],
    (table g).reduces state Terminal.rightParen.index =
        (table g).reduces state Terminal.endOfInput.index ∧
      ((table g).shifts state Terminal.rightParen.index ≠ [] →
        (table g).reduces state Terminal.endOfInput.index = []) := by
  cases g <;> decide

end Table

section Lacking

variable {V : Type} {p : Parser Lexeme V} {g : Grouping} {last : Lexeme} {past rest : List Terminal}
  {c : Terminal}

def Blind (p : Parser Lexeme V) : Prop :=
  ∀ production values (lookahead lookahead' : Lexeme), lookahead.span = lookahead'.span →
    p.reducer production values lookahead = p.reducer production values lookahead'

theorem blind_actions (g : Grouping) (codes : ErrorCodes) : Blind (parser g codes) := by
  intro production values lookahead lookahead' same
  simp only [parser, reducer, value?, same]

private theorem correction_terminal (p : Parser Lexeme V) (last : Lexeme) (c : Terminal) :
    (p.correction last c.index).terminal = c :=
  terminal_correction last c _

private theorem top_of_completion {frames : List (Frame Lexeme V)}
    (derives : Sentence (past ++ c :: rest)) (which : c ∈ [.number, .rightParen])
    (spells : Spells past (Frame.states frames)) :
    c = .number ∧ Frame.top frames ∈ [0, 2, 5, 6] ∨
      c = .rightParen ∧ Frame.top frames ∈ [1, 4, 7, 8, 9] := by
  obtain ⟨below, top⟩ := Frame.exists_states_eq_cons frames
  obtain ⟨operand, depth, begun, behind⟩ := (derives.walk 0).exists_of_append
  cases behind with
  | number =>
    obtain ⟨state, below', same, member⟩ := spells.exists_operand begun
    rw [top] at same
    exact .inl ⟨rfl, (List.cons.inj same).1 ▸ member⟩
  | leftParen => simp at which
  | operator operator =>
    simp only [List.mem_cons, List.not_mem_nil, or_false] at which
    rcases which with rfl | rfl <;> simp at operator
  | rightParen =>
    obtain ⟨state, below', same, member⟩ := spells.exists_enclosed begun
    rw [top] at same
    exact .inr ⟨rfl, (List.cons.inj same).1 ▸ member⟩

private theorem lacks_of_completion (grouped : p.table = table g) (blind : Blind p)
    (ends : last.isEnd = true) (derives : Sentence (past ++ c :: rest))
    (which : c ∈ [.number, .rightParen]) : p.Lacks last c.index (Spells past) where
  insertable := by
    rw [grouped, mem_insertable_iff]
    refine ⟨c, ?_, rfl⟩
    rintro rfl
    simp at which
  described := by
    rw [grouped]
    rintro other inside same
    obtain ⟨c', -, rfl⟩ := (mem_insertable_iff g).mp inside
    rw [describe_eq, describe_eq] at same
    rw [description_inj same]
  values production values := blind production values _ _ rfl
  reduces stack stack' spells reduces := by
    rw [grouped] at reduces
    exact spells.reduce reduces
  targets frames := by
    rw [targets_eq grouped, correction_terminal, grouped]
  rules frames spells := by
    rw [rules_eq grouped, rules_eq grouped, correction_terminal, isEnd_eq_true_iff.mp ends]
    rcases top_of_completion derives which spells with ⟨rfl, top⟩ | ⟨rfl, top⟩
    · rw [reduces_operand g top, reduces_operand g top]
    · exact (rightParen_eq_endOfInput g _ top).1
  stuck frames spells goes := by
    rw [targets_eq grouped, rules_eq grouped, isEnd_eq_true_iff.mp ends]
    refine ⟨shifts_endOfInput g _, ?_⟩
    rcases top_of_completion derives which spells with ⟨rfl, top⟩ | ⟨rfl, top⟩
    · exact reduces_operand g top _
    · rw [grouped] at goes
      exact (rightParen_eq_endOfInput g _ top).2 goes

end Lacking

section Reading

variable {V : Type} {p : Parser Lexeme V} {g : Grouping} {token : Lexeme} {read : List Lexeme}
  {u next : Branching Lexeme V} {fuel : Nat}

private theorem spells_of_begins (grouped : p.table = table g)
    (begins : Begins (terminals (read ++ [token])))
    (begun : Branching.parse Branch.merge fuel p read .start = .ok u) :
    ∀ b ∈ u.live, b.errors = [] ∧ b.level = 0 ∧ Spells (terminals read) (Frame.states b.frames) := by
  intro b member
  obtain ⟨_, ⟨stack, reached, -⟩, -⟩ := admits_of_begins (g := g) begins
  obtain ⟨errors, level, there⟩ := (Branching.clean_of_reaches (grouped.symm ▸ reached) begun).2 b member
  rw [grouped] at there
  exact ⟨errors, level, spells_of_reaches there⟩

private theorem spells_of_sentence (grouped : p.table = table g)
    (begins : ∃ rest, Sentence (terminals read ++ rest))
    (begun : Branching.parse Branch.merge fuel p read .start = .ok u) :
    ∀ b ∈ u.live, b.errors = [] ∧ b.level = 0 ∧ Spells (terminals read) (Frame.states b.frames) := by
  obtain ⟨rest, derives⟩ := begins
  obtain ⟨c, more, split⟩ : ∃ c more, rest ++ [Terminal.endOfInput] = c :: more :=
    List.exists_cons_of_ne_nil (by simp)
  have before : Begins (terminals (read ++ [{ terminal := c }])) := by
    refine ⟨_, derives, more, ?_⟩
    rw [terminals_append, List.append_assoc, List.append_assoc, split]
    rfl
  exact spells_of_begins grouped before begun

private theorem exists_pass_of_begins (grouped : p.table = table g)
    (begins : Begins (terminals (read ++ [token])))
    (begun : Branching.parse Branch.merge fuel p read .start = .ok u)
    (run : u.input Branch.merge fuel p token = .ok next) :
    ∃ stats passed, Branching.pass p token fuel { u with stats } = .ok passed ∧
      next = passed.settle Branch.merge := by
  obtain ⟨advanced, moved, settled⟩ := exists_of_bind_eq_ok run
  cases settled
  have admits : p.table.Admits read token := grouped.symm ▸ admits_of_begins begins
  refine ⟨_, advanced, Branching.advance_of_admits admits ?_ moved, rfl⟩
  exact (Branching.parse_complete begun).1

private theorem accepted_ne_nil_of_begins (grouped : p.table = table g) (ends : token.isEnd = true)
    (begins : Begins (terminals (read ++ [token])))
    (begun : Branching.parse Branch.merge fuel p read .start = .ok u) {stats : Stats}
    (run : Branching.pass p token fuel { u with stats } = .ok next) : next.accepted ≠ [] := by
  obtain ⟨ready, ⟨stack, reached, chain⟩, goes⟩ := admits_of_begins (g := g) begins
  obtain ⟨b, member, -, rfl⟩ := (Branching.parse_complete begun).1 stack (grouped.symm ▸ reached)
  have stops : (table g).Ends token ready := by
    refine goes.resolve_left ?_
    rintro ⟨after, ⟨entry⟩⟩
    rw [classify_eq, isEnd_eq_true_iff.mp ends, shifts_endOfInput] at entry
    cases entry
  rw [← grouped] at chain stops
  have more := Branching.length_accepted_lt_of_pass run member chain stops
  exact List.ne_nil_of_length_pos (by omega)

private theorem shifted_ne_nil_of_begins (grouped : p.table = table g)
    (goes : token.terminal ≠ .endOfInput) (begins : Begins (terminals (read ++ [token])))
    (begun : Branching.parse Branch.merge fuel p read .start = .ok u) {stats : Stats}
    (run : Branching.pass p token fuel { u with stats } = .ok next) : next.shifted ≠ [] := by
  obtain ⟨ready, ⟨stack, reached, chain⟩, onward⟩ := admits_of_begins (g := g) begins
  obtain ⟨b, member, -, rfl⟩ := (Branching.parse_complete begun).1 stack (grouped.symm ▸ reached)
  have spells := (spells_of_reaches reached).reductions chain
  obtain ⟨after, shifts⟩ := onward.resolve_right fun stops => goes (spells.ends stops).1
  rw [← grouped] at chain shifts
  obtain ⟨b', shifted, -⟩ := (Branching.pass_complete run member chain).1 after shifts
  exact List.ne_nil_of_mem shifted

private theorem turns_spelling (grouped : p.table = table g) (goes : token.terminal ≠ .endOfInput)
    (past : List Terminal) :
    Branching.Turns p token (fun b => Spells past (Frame.states b.frames)) (fun _ => True)
      (fun _ => True) (fun _ => False) where
  shift _ _ _ _ _ := trivial
  reduce b serial frames spells production entry reduced := by
    have reduces := Parser.reduces_states_iff.mpr ⟨production, entry, frames, reduced, rfl⟩
    rw [grouped] at reduces
    exact spells.reduce reduces
  accept b serial frames spells production entry reduced := by
    have stops := Parser.ends_states_iff.mpr ⟨production, entry, frames, reduced⟩
    rw [grouped] at stops
    exact goes (spells.ends stops).1
  strand _ _ _ _ := trivial

end Reading

section Inserting

variable {V : Type} {p : Parser Lexeme V} {g : Grouping} {last : Lexeme} {word : List Terminal}
  {count : Nat}

def missings (p : Parser Lexeme V) (last : Lexeme) (inserted : List Terminal) : List ErrorRecord :=
  inserted.map fun c => Branching.missing p last c.index

/-- So many terminals were inserted behind the word, and the stack spells all of it. -/
def Inserted (p : Parser Lexeme V) (last : Lexeme) (word : List Terminal) (count : Nat)
    (b : Branch Lexeme V) : Prop :=
  ∃ inserted : List Terminal, inserted.length = count ∧ b.errors = missings p last inserted ∧
    Spells (word ++ inserted) (Frame.states b.frames)

def Completed (p : Parser Lexeme V) (last : Lexeme) (word : List Terminal) (count : Nat)
    (b : Branch Lexeme V) : Prop :=
  ∃ inserted : List Terminal, inserted.length = count ∧ b.errors = missings p last inserted ∧
    Sentence (word ++ inserted)

private theorem turns_inserted (grouped : p.table = table g) (ends : last.isEnd = true)
    (word : List Terminal) (count : Nat) :
    Branching.Turns p last (Inserted p last word count) (fun _ => False)
      (fun b => Inserted p last word count b ∧ p.rules last b.frames = [])
      (Completed p last word count) where
  shift b serial _ target entry := by
    rw [targets_eq grouped, isEnd_eq_true_iff.mp ends, shifts_endOfInput] at entry
    cases entry
  reduce := by
    rintro b serial frames ⟨inserted, length, errors, spells⟩ production entry reduced
    have reduces := Parser.reduces_states_iff.mpr ⟨production, entry, frames, reduced, rfl⟩
    rw [grouped] at reduces
    exact ⟨inserted, length, errors, spells.reduce reduces⟩
  accept := by
    rintro b serial frames ⟨inserted, length, errors, spells⟩ production entry reduced
    have stops := Parser.ends_states_iff.mpr ⟨production, entry, frames, reduced⟩
    rw [grouped] at stops
    exact ⟨inserted, length, errors, (spells.ends stops).2⟩
  strand b inserted _ rules := ⟨inserted, rules⟩

private theorem contract_inserted (grouped : p.table = table g) (ends : last.isEnd = true)
    (word : List Terminal) (count : Nat) :
    Branching.Contract p last
      (fun b => Inserted p last word count b ∧ p.rules last b.frames = [])
      (fun _ b => Inserted p last word count b ∧ p.rules last b.frames = [])
      (Inserted p last word (count + 1)) (fun _ => True) (fun _ => True) where
  shift _ _ _ _ _ := trivial
  reduce b serial frames stuck production entry := by
    rw [stuck.2] at entry
    cases entry
  accept _ _ _ _ _ _ _ := trivial
  delete _ _ _ _ := trivial
  queue _ stuck _ _ := stuck
  prepare terminal inside b serial frames stuck production entry := by
    have none := stuck.2
    rw [rules_eq grouped, isEnd_eq_true_iff.mp ends] at none
    rw [grouped] at inside entry
    obtain ⟨c, -, rfl⟩ := (mem_insertable_iff g).mp inside
    rw [reduces_eq_nil_of_endOfInput none] at entry
    cases entry
  insert := by
    rintro terminal inside b serial ⟨⟨inserted, rfl, errors, spells⟩, -⟩ target entry
    rw [grouped] at inside
    obtain ⟨c, -, rfl⟩ := (mem_insertable_iff g).mp inside
    have shifts : (table g).Shifts (p.correction last c.index) (Frame.states b.frames)
        (target :: Frame.states b.frames) := by
      rw [← grouped]
      refine Parser.shifts_states_iff.mpr ⟨target, ?_, rfl⟩
      rw [targets_eq grouped, correction_terminal, ← grouped]
      exact entry
    have spelled := spells.shift shifts
    rw [correction_terminal, List.append_assoc] at spelled
    refine ⟨inserted ++ [c], List.length_append, ?_, spelled⟩
    simp [missings, Branch.repaired, errors]

end Inserting

section Completion

variable {V : Type} {p : Parser Lexeme V} {g : Grouping} {last : Lexeme} {tokens : List Lexeme}
  {done rest : List Terminal} {fuel fuel' rounds : Nat} {u u' s after : Branching Lexeme V}

def supplies (p : Parser Lexeme V) (last : Lexeme) (inserted : List Terminal) : List Lexeme :=
  inserted.map fun c => p.correction last c.index

theorem terminals_supplies (p : Parser Lexeme V) (last : Lexeme) (inserted : List Terminal) :
    terminals (supplies p last inserted) = inserted := by
  rw [terminals, supplies, List.map_map]
  refine (List.map_congr_left fun c _ => ?_).trans (List.map_id _)
  exact correction_terminal p last c

private theorem errors_of_completed {word : List Terminal} {count : Nat} {b : Branch Lexeme V}
    (completed : Completed p last word count b) (short : count ≤ (completion word).length) :
    b.errors = missings p last (completion word) := by
  obtain ⟨inserted, rfl, errors, derives⟩ := completed
  rcases derives.eq_completion_or_length_lt with same | longer
  · rw [errors, same]
  · omega

/-- The tokens begin a sentence, and the input ends behind them. -/
structure Incomplete (g : Grouping) (p : Parser Lexeme V) (last : Lexeme) (tokens : List Lexeme) :
    Prop where
  grouped : p.table = table g
  blind : Blind p
  ends : last.isEnd = true
  begins : ∃ rest, Sentence (terminals tokens ++ rest)

namespace Incomplete

theorem completed (incomplete : Incomplete g p last tokens) :
    Sentence (terminals tokens ++ completion (terminals tokens)) := by
  obtain ⟨rest, derives⟩ := incomplete.begins
  exact derives.completed

private theorem whole (incomplete : Incomplete g p last tokens) {c : Terminal}
    (split : completion (terminals tokens) = done ++ c :: rest) :
    Sentence (terminals (tokens ++ supplies p last done) ++ c :: rest) := by
  rw [terminals_append, terminals_supplies, List.append_assoc, ← split]
  exact incomplete.completed

private theorem begins_supply (incomplete : Incomplete g p last tokens) {c : Terminal}
    (split : completion (terminals tokens) = done ++ c :: rest) :
    Begins (terminals ((tokens ++ supplies p last done) ++ [p.correction last c.index])) := by
  refine ⟨_, incomplete.whole split, rest ++ [.endOfInput], ?_⟩
  rw [terminals_append, show terminals [p.correction last c.index] = [c] from
    congrArg ([·]) (correction_terminal p last c)]
  simp

private theorem begins_last (incomplete : Incomplete g p last tokens) :
    Begins (terminals ((tokens ++ supplies p last (completion (terminals tokens))) ++ [last])) := by
  have ended : terminals [last] = [.endOfInput] :=
    congrArg ([·]) (isEnd_eq_true_iff.mp incomplete.ends)
  refine ⟨_, incomplete.completed, [], ?_⟩
  simp [terminals_append, terminals_supplies, ended]

private theorem sorted (incomplete : Incomplete g p last tokens)
    (supplied : Branching.Supplied done.length (missings p last done) u s)
    (inserted : ∀ b ∈ s.live, Inserted p last (terminals tokens) done.length b)
    (first : s.pass p last fuel' = .ok after) :
    after.Sorted (Inserted p last (terminals tokens) done.length) (fun _ => False)
      (fun b => Inserted p last (terminals tokens) done.length b ∧ p.rules last b.frames = [])
      (Completed p last (terminals tokens) done.length) :=
  (turns_inserted incomplete.grouped incomplete.ends (terminals tokens) done.length).pass
    (supplied.second.sorted inserted (by simp [supplied.quiet']) s.stats) first

private theorem exists_supplied (incomplete : Incomplete g p last tokens) {c : Terminal}
    (split : completion (terminals tokens) = done ++ c :: rest)
    (begun : Branching.parse Branch.merge fuel p (tokens ++ supplies p last done) .start = .ok u)
    (run : u.input Branch.merge fuel p (p.correction last c.index) = .ok u')
    (supplied : Branching.Supplied done.length (missings p last done) u s)
    (inserted : ∀ b ∈ s.live, Inserted p last (terminals tokens) done.length b)
    (run' : s.advance Branch.merge fuel' p last rounds = .ok after) :
    ∃ recovered rounds', recovered.advance Branch.merge fuel' p last rounds' = .ok after ∧
      Branching.Supplied (done ++ [c]).length (missings p last (done ++ [c])) u' recovered ∧
        ∀ b ∈ recovered.live, Inserted p last (terminals tokens) (done ++ [c]).length b := by
  have grouped := incomplete.grouped
  have listed : c ∈ completion (terminals tokens) := by
    simp [split]
  have which := mem_completion listed
  have goes : (p.correction last c.index).terminal ≠ .endOfInput := by
    rw [correction_terminal]
    rintro rfl
    simp at which
  have begins := incomplete.begins_supply split
  have clean := spells_of_begins grouped begins begun
  obtain ⟨stats, passed, first, rfl⟩ := exists_pass_of_begins grouped begins begun run
  have begun' : Branching.Supplied done.length (missings p last done) { u with stats } s :=
    { supplied with first := { supplied.first with } }
  have quiet := ((turns_spelling grouped goes _).pass
    (supplied.first.sorted (fun b member => (clean b member).2.2) (by simp [supplied.quiet]) stats)
    first).done
  have lacks := lacks_of_completion grouped incomplete.blind incomplete.ends (incomplete.whole split) which
  have still : ∀ frames : List (Frame Lexeme V), p.rules last frames = [] →
      ∀ other ∈ p.table.insertable, p.table.reduces (Frame.top frames) other = [] := by
    intro frames none other inside
    rw [rules_eq grouped, isEnd_eq_true_iff.mp incomplete.ends] at none
    rw [grouped] at inside ⊢
    obtain ⟨c', -, rfl⟩ := (mem_insertable_iff g).mp inside
    exact reduces_eq_nil_of_endOfInput none c'
  have filled := shifted_ne_nil_of_begins grouped goes begins begun first
  have unready : ∀ passed', s.pass p last fuel' = .ok passed' →
      passed'.shifted = [] ∧ passed'.accepted = [] := by
    intro passed' first'
    have sorted := incomplete.sorted supplied inserted first'
    refine ⟨List.eq_nil_iff_forall_not_mem.mpr sorted.gone,
      List.eq_nil_iff_forall_not_mem.mpr fun b member => ?_⟩
    obtain ⟨others, length, -, derives⟩ := sorted.done b member
    have short : done.length < (completion (terminals tokens)).length := by
      simp [split]
    rcases derives.eq_completion_or_length_lt with rfl | longer
    · omega
    · omega
  obtain ⟨passed', recovered, rounds', first', again, rest', supplied'⟩ := begun'.insert lacks
    (fun b member => (clean b member).2.2) incomplete.ends still first filled
    (List.eq_nil_iff_forall_not_mem.mpr quiet) run' unready
  have sorted := incomplete.sorted supplied inserted first'
  obtain ⟨empty, waiting⟩ := Branching.pass_eq_ok first' supplied.second.waiting
  have lives := ((contract_inserted grouped incomplete.ends (terminals tokens) done.length).recover
    selects_merge ⟨by simp [empty], by simp [waiting], fun _ _ => trivial, sorted.stuck,
      fun _ _ => trivial⟩ waiting again).alive
  refine ⟨recovered, rounds', rest', ?_, ?_⟩
  · simpa [missings] using supplied'
  · simpa using lives

private theorem finish (incomplete : Incomplete g p last tokens)
    (begun : Branching.parse Branch.merge fuel p
      (tokens ++ supplies p last (completion (terminals tokens))) .start = .ok u)
    (run : u.input Branch.merge fuel p last = .ok u')
    (supplied : Branching.Supplied (completion (terminals tokens)).length
      (missings p last (completion (terminals tokens))) u s)
    (inserted : ∀ b ∈ s.live,
      Inserted p last (terminals tokens) (completion (terminals tokens)).length b)
    (run' : s.advance Branch.merge fuel' p last rounds = .ok after) :
    Echo (missings p last (completion (terminals tokens))) (u'.accepted.map Branch.sketch)
        ((after.settle Branch.merge).accepted.map Branch.sketch) ∧
      ∀ b ∈ after.accepted, b.errors = missings p last (completion (terminals tokens)) := by
  obtain ⟨stats, passed, first, rfl⟩ :=
    exists_pass_of_begins incomplete.grouped incomplete.begins_last begun run
  have done := accepted_ne_nil_of_begins incomplete.grouped incomplete.ends incomplete.begins_last begun
    first
  have begun' : Branching.Supplied (completion (terminals tokens)).length
      (missings p last (completion (terminals tokens))) { u with stats } s :=
    { supplied with first := { supplied.first with } }
  obtain ⟨first', echo⟩ := begun'.finish first done run'
  have sorted := incomplete.sorted supplied inserted first'
  exact ⟨echo, fun b member => errors_of_completed (sorted.done b member) le_rfl⟩

theorem echo_accepted (incomplete : Incomplete g p last tokens)
    (split : completion (terminals tokens) = done ++ rest)
    (begun : Branching.parse Branch.merge fuel p (tokens ++ supplies p last done) .start = .ok u)
    (run : Branching.parse Branch.merge fuel p (supplies p last rest ++ [last]) u = .ok u')
    (supplied : Branching.Supplied done.length (missings p last done) u s)
    (inserted : ∀ b ∈ s.live, Inserted p last (terminals tokens) done.length b)
    (run' : s.advance Branch.merge fuel' p last rounds = .ok after) :
    Echo (missings p last (completion (terminals tokens))) (u'.accepted.map Branch.sketch)
        ((after.settle Branch.merge).accepted.map Branch.sketch) ∧
      ∀ b ∈ after.accepted, b.errors = missings p last (completion (terminals tokens)) := by
  induction rest generalizing done u s rounds with
  | nil =>
    rw [List.append_nil] at split
    subst split
    obtain ⟨_, taken, ended⟩ := exists_of_bind_eq_ok run
    cases ended
    exact incomplete.finish begun taken supplied inserted run'
  | cons c rest ih =>
    obtain ⟨next, taken, rest'⟩ := exists_of_bind_eq_ok run
    obtain ⟨recovered, rounds', again, supplied', inserted'⟩ :=
      incomplete.exists_supplied split begun taken supplied inserted run'
    refine ih (by simp [split]) ?_ rest' supplied' inserted' again
    rw [supplies, List.map_append, ← List.append_assoc, Branching.parse_append,
      show Branching.parse Branch.merge fuel p (tokens ++ done.map fun c => p.correction last c.index)
        .start = .ok u from begun]
    change u.input Branch.merge fuel p (p.correction last c.index) >>= _ = _
    rw [taken]
    rfl

end Incomplete

end Completion

section Result

variable {g : Grouping} {codes : ErrorCodes} {tokens : List Lexeme} {last : Mark} {fuel fuel' : Nat}
  {s u : Branching Lexeme Expr}

/-- The token that stands for a missing terminal where the input ends. -/
def Mark.missing (last : Mark) (terminal : Terminal) : Lexeme where
  terminal
  payload := .missing terminal.description
  span := last.span

private theorem supplies_eq (g : Grouping) (codes : ErrorCodes) (last : Mark)
    (inserted : List Terminal) :
    supplies (parser g codes) (last.token .endOfInput) inserted = inserted.map last.missing := by
  refine List.map_congr_left fun c _ => ?_
  change Lexeme.mk ((Terminal.ofIndex? c.index).getD .endOfInput)
    (.missing ((table g).describe c.index)) last.span = _
  rw [Terminal.ofIndex?_index, describe_eq]
  rfl

private theorem missings_eq (g : Grouping) (codes : ErrorCodes) (last : Mark)
    (inserted : List Terminal) :
    missings (parser g codes) (last.token .endOfInput) inserted =
      inserted.map fun c => ⟨some .missing, last.span, some c.description⟩ := by
  refine List.map_congr_left fun c _ => ?_
  rw [← describe_eq g]
  rfl

private theorem accepted_eq_nil_of_begins (begins : ∃ rest, Sentence (terminals tokens ++ rest))
    (enough : 4 * tokens.length + 4 ≤ fuel)
    (run : Branching.parse Branch.merge fuel (parser g codes) tokens .start = .ok s) :
    s.accepted = [] := by
  obtain ⟨rest, derives⟩ := begins
  have goes : tokens.any Token.isEnd = false := by
    refine List.any_eq_false.mpr fun token member ends => derives.not_mem_endOfInput ?_
    exact List.mem_append_left _ (List.mem_map.mpr ⟨token, member, isEnd_eq_true_iff.mp ends⟩)
  obtain ⟨s', run', -, stage⟩ := exists_parse (p := parser g codes) (g := g) rfl tokens enough
  rw [run] at run'
  cases run'
  rw [goes] at stage
  cases stage with
  | ongoing _ _ none => exact none

private theorem exists_completed (begins : ∃ rest, Sentence (terminals tokens ++ rest))
    (enough : 4 * tokens.length + 4 ≤ fuel)
    (run : Branching.parse Branch.merge fuel (parser g codes) (tokens ++ [last.token .endOfInput])
      .start = .ok s)
    (run' : Branching.parse Branch.merge fuel' (parser g codes)
      ((tokens ++ (completion (terminals tokens)).map last.missing) ++ [last.token .endOfInput])
        .start = .ok u)
    {b : Branch Lexeme Expr} (accepted : s.accepted = [b]) :
    b.errors = (completion (terminals tokens)).map
        (fun c => ⟨some .missing, last.span, some c.description⟩) ∧
      ∃ b' ∈ u.accepted, b'.frames = b.frames := by
  have incomplete : Incomplete g (parser g codes) (last.token .endOfInput) tokens :=
    ⟨rfl, blind_actions g codes, rfl, begins⟩
  rw [← supplies_eq g codes, List.append_assoc, Branching.parse_append] at run'
  rw [Branching.parse_append] at run
  obtain ⟨begun, first, final⟩ := exists_of_bind_eq_ok run
  obtain ⟨_, taken, done⟩ := exists_of_bind_eq_ok final
  cases done
  obtain ⟨advanced, moved, settled⟩ := exists_of_bind_eq_ok taken
  cases settled
  obtain ⟨begun', first', rest⟩ := exists_of_bind_eq_ok run'
  obtain rfl := Branching.parse_eq_of_fuel first' first
  have idle := (Branching.Reached.start.parse first).idle
  have quiet := accepted_eq_nil_of_begins begins enough first
  have clean := spells_of_sentence (g := g) rfl begins first
  have supplied : Branching.Supplied 0 [] begun'
      { begun' with stats := { begun'.stats with tokens := begun'.stats.tokens + 1 } } :=
    { first := idle
      second := { idle with }
      quiet := quiet
      quiet' := quiet
      live := .of_map_eq rfl
      clean := fun b member => (clean b member).2.1
      repaired := fun b member => (clean b member).2.1 }
  obtain ⟨echo, errors⟩ := incomplete.echo_accepted (List.nil_append _).symm
    (by simpa [supplies] using first') rest supplied
    (fun b member => ⟨[], rfl, (clean b member).1, by simpa using (clean b member).2.2⟩) moved
  rw [missings_eq] at echo errors
  have member : b ∈ advanced.accepted := by
    have kept : b ∈ (advanced.settle Branch.merge).accepted := accepted ▸ List.mem_singleton_self b
    exact mem_of_mem_survivors kept
  obtain ⟨before, x, behind, found, frames, -⟩ := echo.like [] b.sketch []
    (congrArg (List.map Branch.sketch) accepted) (errors b member)
  obtain ⟨b', listed, rfl⟩ := List.mem_map.mp (found ▸ List.mem_append_right before (List.mem_cons_self ..))
  exact ⟨errors b member, b', listed, frames⟩

private theorem exists_finished (g : Grouping) (codes : ErrorCodes) (read : List Lexeme) (last : Mark)
    (more : Nat) : ∃ s b v, Branching.parse Branch.merge (4 * read.length + 8 + more) (parser g codes)
      (read ++ [last.token .endOfInput]) .start = .ok s ∧ s.live = [] ∧ s.accepted = [b] ∧
        b.frames = [⟨0, .reduced v⟩] := by
  have enough : 4 * (read ++ [last.token .endOfInput]).length + 4 ≤ 4 * read.length + 8 + more := by
    rw [List.length_append, List.length_singleton]
    omega
  obtain ⟨s, run, -, stage⟩ := exists_parse (p := parser g codes) (g := g) rfl _ enough
  rw [List.any_append, show ([last.token .endOfInput] : List Lexeme).any Token.isEnd = true from rfl,
    Bool.or_true] at stage
  cases stage with
  | finished live accepted frames => exact ⟨s, _, _, run, live, accepted, frames⟩

/-- Incomplete input is completed by the terminals that are missing behind it: a number, if an operand is
expected, and a closing parenthesis for every open one. Each of them is reported at the end, nothing
else is, and the result is that of the completed sentence. A number that was missing is a question mark
without a value, and then the result has no value either. -/
theorem parse_incomplete (g : Grouping) (codes : ErrorCodes) (tokens : List Lexeme)
    (begins : ∃ rest, Sentence (terminals tokens ++ rest)) (last : Mark) (more : Nat) :
    let missing := completion (terminals tokens)
    let completed := tokens ++ missing.map last.missing
    (missing = [] ↔ Sentence (terminals tokens)) ∧ Sentence (terminals completed) ∧
    Expr.ofNumber (last.missing .number) = ⟨"?", none, last.span⟩ ∧
    ∃ e head expr e' head',
      (Engine.parse (4 * tokens.length + 8 + more) (parser g codes) (tokens ++ [last.token .endOfInput])
          .start = .ok e ∧
        e.heads = [] ∧ e.accepted = [head] ∧ e.result 0 = .ok expr ∧
        head.errors = missing.map (fun c => ⟨some .missing, last.span, some c.description⟩) ∧
        e.diagnostics codes 0 =
          missing.map fun c => ⟨codes.missing, last.span, some c.description⟩) ∧
      (Engine.parse (4 * completed.length + 8 + more) (parser g codes)
          (completed ++ [last.token .endOfInput]) .start = .ok e' ∧
        e'.heads = [] ∧ e'.accepted = [head'] ∧ e'.result 0 = .ok expr ∧ head'.errors = []) ∧
      expr.ComposedOf completed ∧ (.number ∈ missing → expr.Unsettled) := by
  intro missing completed
  have spelled : terminals completed = terminals tokens ++ missing := by
    rw [terminals_append, ← supplies_eq g codes, terminals_supplies]
  have whole : Sentence (terminals completed) := by
    obtain ⟨rest, derives⟩ := begins
    rw [spelled]
    exact derives.completed
  refine ⟨⟨fun none => ?_, Sentence.completion_eq_nil⟩, whole, rfl, ?_⟩
  · rw [spelled, none, List.append_nil] at whole
    exact whole
  obtain ⟨s, b, v, run, live, accepted, frames⟩ := exists_finished g codes tokens last more
  obtain ⟨u, b', v', run', live', accepted', frames'⟩ := exists_finished g codes completed last more
  obtain ⟨errors, other, listed, same⟩ := exists_completed begins (by omega) run run' accepted
  rw [accepted', List.mem_singleton] at listed
  subst listed
  obtain rfl : v' = v := by
    rw [frames, frames'] at same
    simpa using same
  have clean : other.errors = [] :=
    (errors_eq_nil_iff (g := g) rfl whole.not_mem_endOfInput rfl run' (accepted' ▸ by simp)).mpr whole
  have composed : v'.ComposedOf completed := by
    have resulting := (composed_of_reached (Branching.Reached.start.parse run')).2 other (accepted' ▸ by simp)
    obtain ⟨_, same, composed⟩ := resulting.composedOf (fun token member ends =>
      whole.not_mem_endOfInput (List.mem_map.mpr ⟨token, member, ends⟩)) clean
    rw [frames'] at same
    cases same
    exact composed
  obtain ⟨e, parsed, shows⟩ := Engine.exists_parse_of_branching run
  obtain ⟨e', parsed', shows'⟩ := Engine.exists_parse_of_branching run'
  obtain ⟨head, heads, records, result⟩ := shows.result accepted frames
  obtain ⟨head', heads', records', result'⟩ := shows'.result accepted' frames'
  refine ⟨e, head, v', e', head',
    ⟨parsed, List.forall₂_nil_right_iff.mp (live ▸ shows.live), heads, result, records.trans errors, ?_⟩,
    ⟨parsed', List.forall₂_nil_right_iff.mp (live' ▸ shows'.live), heads', result', records'.trans clean⟩,
    composed, fun unknown => ?_⟩
  · simp [Engine.diagnostics, result, heads, records, errors, ErrorRecord.diagnostic, ErrorCodes.code,
      Function.comp_def, missing]
  · have inserted : last.missing .number ∈ completed :=
      List.mem_append_right _ (List.mem_map_of_mem unknown)
    exact composed.unsettled inserted rfl fun value => Payload.noConfusion

def openSum : List Lexeme :=
  [{ terminal := .leftParen }, numberToken 1 none, { terminal := .plus }]

theorem parse_incomplete_openSum : (∃ rest, Sentence (terminals openSum ++ rest)) ∧ ∃ e e' expr,
    Engine.parse 20 (parser .precedence) (openSum ++ [{ terminal := .endOfInput }]) .start = .ok e ∧
      e.diagnostics {} 0 = [⟨2, none, some "number"⟩, ⟨2, none, some "')'"⟩] ∧ e.result 0 = .ok expr ∧
        expr.text = "(1+?)" ∧ expr.value = none ∧
    Engine.parse 28 (parser .precedence) (openSum ++ [Mark.missing {} .number, Mark.missing {} .rightParen] ++
      [{ terminal := .endOfInput }]) .start = .ok e' ∧ e'.result 0 = .ok expr := by
  have begins : ∃ rest, Sentence (terminals openSum ++ rest) :=
    ⟨[.number, .rightParen], .group (.sum .number .number)⟩
  obtain ⟨-, -, -, e, head, expr, e', head', ⟨run, -, -, result, -, diagnostics⟩,
    ⟨run', -, -, result', -⟩, -, unsettled⟩ := parse_incomplete .precedence {} openSum begins {} 0
  have shown : ((Engine.parse 20 (parser .precedence) (openSum ++ [{ terminal := .endOfInput }])
      .start).toOption.bind fun e => (e.result 0).toOption.map (·.text)) = some "(1+?)" := by
    decide +kernel
  rw [show Engine.parse 20 (parser .precedence) (openSum ++ [{ terminal := .endOfInput }]) .start = .ok e
    from run] at shown
  replace shown : ((e.result 0).toOption.map (·.text)) = some "(1+?)" := shown
  rw [result] at shown
  have missing : .number ∈ completion (terminals openSum) := by decide
  exact ⟨begins, e, e', expr, run, diagnostics, result, Option.some.inj shown, (unsettled missing).value,
    run', result'⟩

end Result

end GeneralizedLR.Arithmetic
