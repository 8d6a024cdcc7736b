import GeneralizedLR.Proofs.Arithmetic.Closing
import GeneralizedLR.Proofs.Engine.Fuel

/-!
Expressions with one token too many. Where no sentence goes on with a token, no stack has an action for
it, but for a closing parenthesis behind a whole sentence: before that one the sentence is reduced. So
a dropped token leaves no trace in the result, unless the parenthesis parts a sum from a product
behind it.
-/

set_option autoImplicit false
set_option relaxedAutoImplicit false

namespace GeneralizedLR.Arithmetic

section Stranded

variable {past sentence : List Terminal} {stack below : List Nat} {g : Grouping}

private theorem Spells.awaits_or_operand (spells : Spells past stack) :
    Awaits past stack ∨ ∃ before below sentence, past = before ++ sentence ∧ Awaits before below ∧
      Sentence sentence := by
  cases spells with
  | operand awaits => exact .inl awaits
  | number awaits => exact .inr ⟨_, _, _, rfl, awaits, .number⟩
  | expression awaits derives => exact .inr ⟨_, _, _, rfl, awaits, derives⟩
  | paren awaits inner => exact .inr ⟨_, _, _, rfl, awaits, .group inner⟩

private theorem Awaits.begins_operator (awaits : Awaits past below) (derives : Sentence sentence)
    {operator : Terminal} (which : operator ∈ [.plus, .star]) :
    Begins (past ++ sentence ++ [operator]) := by
  have joined : Sentence (sentence ++ operator :: [.number]) := by
    simp only [List.mem_cons, List.not_mem_nil, or_false] at which
    rcases which with rfl | rfl
    · exact .sum derives .number
    · exact .product derives .number
  obtain ⟨rest, whole⟩ := awaits.exists_rest joined
  exact ⟨_, whole, .number :: rest ++ [.endOfInput], by simp⟩

private theorem Awaits.begins_paren (awaits : Awaits past below) (derives : Sentence sentence) :
    Sentence (past ++ sentence) ∨ Begins (past ++ sentence ++ [.rightParen]) := by
  induction awaits generalizing sentence with
  | root => exact .inl derives
  | @paren past below awaits _ =>
    obtain ⟨rest, whole⟩ := awaits.exists_rest (.group derives)
    exact .inr ⟨_, whole, rest ++ [.endOfInput], by simp⟩
  | @operator past operand operator state top below _ first which ih =>
    have joined : Sentence (operand ++ operator :: sentence) := by
      simp only [List.mem_cons, List.not_mem_nil, or_false, Prod.mk.injEq] at which
      rcases which with ⟨rfl, -⟩ | ⟨rfl, -⟩
      · exact .sum first derives
      · exact .product first derives
    simpa using ih joined

theorem strands_of_reaches {tokens : List Lexeme} {token : Lexeme}
    (reached : (table g).Reaches tokens stack) (wrong : ¬ Begins (terminals (tokens ++ [token])))
    (goes : token.isEnd = false)
    (inside : token.terminal ≠ .rightParen ∨ ¬ Sentence (terminals tokens)) :
    (table g).Strands token stack := by
  have stuck : ¬ (table g).Admits tokens token := by
    rintro ⟨ready, ⟨stack', reached', chain⟩, ⟨after, shifts⟩ | ends⟩
    · exact wrong (begins_of_reaches (reached'.consume chain shifts))
    · have final := (((spells_of_reaches reached').reductions chain).ends ends).1
      have ends : token.isEnd = true := isEnd_eq_true_iff.mpr final
      simp [goes] at ends
  obtain ⟨state, below, rfl⟩ : ∃ state below, stack = state :: below := by
    cases reached with
    | start => exact ⟨0, [], rfl⟩
    | consume _ _ shifts =>
      cases shifts
      exact ⟨_, _, rfl⟩
  have shifts : (table g).shifts state (Token.classify ((table g).shiftChannel? state) token) = [] := by
    refine List.eq_nil_iff_forall_not_mem.mpr fun target entry => stuck ?_
    exact ⟨_, ⟨_, reached, .refl⟩, .inl ⟨_, .intro entry⟩⟩
  refine .intro shifts (List.eq_nil_iff_forall_not_mem.mpr fun number entry => ?_)
  rw [classify_eq] at entry
  rw [terminals_append] at wrong
  have follows : token.terminal ∈ lookaheads := by
    obtain ⟨-, symbol⟩ := reduceEntries_eq g _ (Transition.mem_targets_iff.mp entry)
    obtain ⟨c, listed, same⟩ := List.mem_map.mp symbol
    exact Terminal.index_inj same ▸ listed
  rcases (spells_of_reaches reached).awaits_or_operand with
    awaits | ⟨before, below', sentence, split, awaits, derives⟩
  · obtain ⟨_, _, same, operand⟩ := awaits.exists_top
    cases same
    simp [reduces_operand g operand] at entry
  · rw [show terminals [token] = [token.terminal] from rfl, split] at wrong
    rw [split] at inside
    simp only [lookaheads, List.mem_cons, List.not_mem_nil, or_false] at follows
    rcases follows with kind | kind | kind | kind
    · exact wrong (kind ▸ awaits.begins_operator derives (by simp))
    · exact wrong (kind ▸ awaits.begins_operator derives (by simp))
    · rcases awaits.begins_paren derives with whole | begins
      · exact inside.elim (· kind) (· whole)
      · exact wrong (kind ▸ begins)
    · have ends : token.isEnd = true := isEnd_eq_true_iff.mpr kind
      simp [goes] at ends

end Stranded

section Dropped

variable {g : Grouping} {V : Type} {p : Parser Lexeme V} {denote : Term → V}
  {front before behind : List Lexeme} {token last : Lexeme} {fuel more : Nat}
  {s : Branching Lexeme V} {b : Branch Lexeme V} {record : ErrorRecord}

private theorem exists_drops (grouped : p.table = table g)
    (goes : ∀ token ∈ front, token.isEnd = false) (ends : last.isEnd = true)
    (enough : 4 * front.length + 4 ≤ fuel)
    (run : Branching.parse Branch.merge fuel p (front ++ [last]) .start = .ok s)
    (member : b ∈ s.accepted) (only : b.errors = [record]) (kind : record.kind ≠ some .missing) :
    ∃ before token behind, front = before ++ token :: behind ∧
      record = Branching.unexpected token ∧ Branching.Drops p fuel before token behind last b := by
  rcases (Branching.parse_accounted run).2 b member with
    ⟨clean, -⟩ | ⟨before, token, future, first, rest, split, stops, records, repairs⟩
  · rw [only] at clean
    cases clean
  · rw [only] at records
    cases records
    obtain ⟨here, rfl⟩ | ⟨terminal, rfl⟩ := repairs
    · rcases List.eq_nil_or_concat future with rfl | ⟨behind, final, rfl⟩
      · obtain ⟨-, same⟩ := List.append_inj' split rfl
        cases same
        exact absurd (ends.symm.trans here) Bool.noConfusion
      · rw [List.concat_eq_append, ← List.cons_append, ← List.append_assoc] at split
        obtain ⟨rfl, -⟩ := List.append_inj' split rfl
        rw [Branching.parse_append] at run
        obtain ⟨middle, first, final⟩ := exists_of_bind_eq_ok run
        obtain ⟨_, taken, done⟩ := exists_of_bind_eq_ok final
        cases done
        obtain ⟨_, first', -, stage⟩ := exists_parse grouped (before ++ token :: behind) enough
        cases first.symm.trans first'
        rw [show (before ++ token :: behind).any Token.isEnd = false from
          List.any_eq_false.mpr fun other member => Bool.eq_false_iff.mp (goes other member)] at stage
        cases stage with
        | ongoing _ _ none =>
          exact ⟨before, token, behind, rfl, rfl, stops, here, ⟨_, _, first, none, taken, member⟩, only⟩
    · exact absurd rfl kind

private theorem exists_of_stranded (grouped : p.table = table g)
    (drops : Branching.Drops p fuel before token behind last b) (ends : last.isEnd = true)
    (inside : token.terminal ≠ .rightParen ∨ ¬ Sentence (terminals before))
    (enough : 4 * (before ++ behind).length + 8 ≤ fuel)
    (enough' : 4 * (before ++ behind).length + 8 ≤ more) :
    ∃ u b', Branching.parse Branch.merge more p (before ++ (behind ++ [last])) .start = .ok u ∧
      u.accepted = [b'] ∧ b'.frames = b.frames ∧ b'.errors = [] := by
  have whole : (before ++ (behind ++ [last])).length = (before ++ behind).length + 1 := by
    simp only [List.length_append, List.length_singleton]
    omega
  obtain ⟨u, rest, -, stage⟩ := exists_parse grouped (before ++ (behind ++ [last]))
    (by omega : _ ≤ more)
  obtain ⟨_, rest', -⟩ := exists_parse grouped (before ++ (behind ++ [last])) (by omega : _ ≤ fuel)
  cases Branching.parse_eq_of_fuel rest rest'
  have stuck : ∀ stack, p.table.Reaches before stack → p.table.Strands token stack := by
    have stops := drops.stops.stuck
    rw [grouped] at stops ⊢
    exact fun stack reached =>
      strands_of_reaches reached (fun begins => stops (admits_of_begins begins)) drops.goes inside
  obtain ⟨b', listed, frames, clean⟩ := drops.exists_of_strands stuck rest'
  have records := ((Branching.Reached.start.parse rest).follows.2 b' listed).records
  rw [clean] at records
  have final : (before ++ (behind ++ [last])).any Token.isEnd = true := by
    simp [show Token.isEnd last = true from ends]
  rw [final] at stage
  cases stage with
  | finished _ accepted _ =>
    rw [accepted] at listed
    obtain rfl := List.mem_singleton.mp listed
    exact ⟨u, b', rest, accepted, frames, List.eq_nil_of_length_eq_zero records⟩

private theorem Denotes.exists_undropped (denotes : Denotes g p denote)
    (drops : Branching.Drops p fuel before token behind last b)
    (inside : ∀ other ∈ before ++ token :: behind, other.isEnd = false ∧ other.Valued)
    (ends : last.isEnd = true)
    (kept : ¬ Regroups g (terminals before) token.terminal (terminals behind))
    (enough : 4 * (before ++ behind).length + 8 ≤ fuel)
    (enough' : 4 * (before ++ behind).length + 8 ≤ more) :
    ∃ u b', Branching.parse Branch.merge more p (before ++ (behind ++ [last])) .start = .ok u ∧
      u.accepted = [b'] ∧ b'.frames = b.frames ∧ b'.errors = [] := by
  by_cases closing : token.terminal = .rightParen ∧ Sentence (terminals before)
  · exact denotes.exists_of_closing drops inside ends closing.1 closing.2 kept enough'
  · exact exists_of_stranded denotes.grouped drops ends (not_and_or.mp closing) enough enough'

/-- Let the only diagnostic of a source be about a token that was dropped. This is the token up to which
no sentence begins as the source does. The result is that of the tokens without it, unless it closes
a sum and a product follows. -/
theorem evaluate_dropped (g : Grouping) (codes : ErrorCodes)
    (distinct : codes.unexpected ≠ codes.missing) (source : String) (evaluation : Evaluation)
    (run : evaluate g codes source = .ok evaluation) (diagnostic : Diagnostic)
    (only : evaluation.diagnostics = [diagnostic]) (kind : diagnostic.code = codes.unexpected) :
    ∃ before token behind last, tokenize source = .ok (before ++ token :: (behind ++ [last])) ∧
      last.isEnd = true ∧ diagnostic = (Branching.unexpected token).diagnostic codes ∧
      Begins (terminals before) ∧ ¬ Begins (terminals (before ++ [token])) ∧
      (¬ Regroups g (terminals before) token.terminal (terminals behind) → ∀ more, ∃ e head,
        Engine.parse (4 * (before ++ behind).length + 8 + more) (parser g codes)
            (before ++ (behind ++ [last])) .start = .ok e ∧
          e.accepted = [head] ∧ head.errors = [] ∧ e.result 0 = .ok evaluation.expr) := by
  cases scanned : tokenize source with
  | error cause =>
    rw [evaluate_of_tokenize_eq_error scanned] at run
    cases run
  | ok tokens =>
    obtain ⟨s, b, v, stats, parsed, accepted, frames, evaluated⟩ :=
      exists_evaluation g codes scanned
    cases run.symm.trans evaluated
    obtain ⟨front, last, rfl, ends, inside⟩ := exists_concat_of_tokenize scanned
    obtain ⟨record, single, rfl⟩ := List.map_eq_singleton_iff.mp only
    have unlike : record.kind ≠ some .missing := by
      intro same
      have code : codes.code record.kind = codes.unexpected := kind
      rw [same] at code
      exact distinct code.symm
    have enough : 4 * (front ++ [last]).length + 4 ≤ fuelFor source :=
      enough_fuelFor source (by rw [tokenize_eq_ok scanned, List.length_map])
    rw [List.length_append, List.length_singleton] at enough
    obtain ⟨before, token, behind, rfl, rfl, drops⟩ := exists_drops (g := g) rfl
      (fun token member => (inside token member).1) ends (by omega) parsed
      (accepted ▸ List.mem_singleton_self b) single unlike
    obtain ⟨stack, reached⟩ := drops.stops.reaches
    refine ⟨before, token, behind, last, by rw [List.append_assoc, List.cons_append], ends, rfl,
      begins_of_reaches (g := g) reached,
      fun begins => drops.stops.stuck (admits_of_begins (g := g) begins), fun kept more => ?_⟩
    have shorter : (before ++ token :: behind).length = (before ++ behind).length + 1 := by
      simp only [List.length_append, List.length_cons]
      omega
    obtain ⟨u, b', rest, accepted', same, clean⟩ := (Term.denotes_expr codes).exists_undropped drops
      inside ends kept (by omega) (Nat.le_add_right _ more)
    obtain ⟨e, fed, shows⟩ := Engine.exists_parse_of_branching rest
    obtain ⟨head, heads, errors, result⟩ := shows.result accepted' (same.trans frames)
    exact ⟨e, head, fed, heads, errors.trans clean, result⟩

theorem evaluate_dropped_number : ∃ evaluation before token behind last e,
    evaluate .precedence {} "1 2+3" = .ok evaluation ∧ evaluation.expr.text = "(1+3)" ∧
      tokenize "1 2+3" = .ok (before ++ token :: (behind ++ [last])) ∧
        Engine.parse (4 * (before ++ behind).length + 8) (parser .precedence)
            (before ++ (behind ++ [last])) .start = .ok e ∧
          e.result 0 = .ok evaluation.expr := by
  obtain ⟨evaluation, run⟩ :=
    exists_of_isOk (x := evaluate .precedence {} "1 2+3") (by decide +kernel)
  have shown : (evaluate .precedence {} "1 2+3").toOption.map (fun e => (e.diagnostics, e.expr.text)) =
      some ([⟨1, some ⟨⟨0, 2⟩, ⟨0, 3⟩⟩, some "2"⟩], "(1+3)") := by decide +kernel
  rw [run] at shown
  obtain ⟨diagnostics, text⟩ := Prod.mk.inj (Option.some.inj shown)
  obtain ⟨before, token, behind, last, scanned, -, -, -, -, undropped⟩ :=
    evaluate_dropped .precedence {} (by decide) "1 2+3" evaluation run _ diagnostics rfl
  have unclosed : (tokenize "1 2+3").toOption.map (fun tokens => tokens.all (·.terminal ≠ .rightParen)) =
      some true := by decide +kernel
  rw [scanned] at unclosed
  have plain : token.terminal ≠ .rightParen := by
    have all := List.all_eq_true.mp (Option.some.inj unclosed) token (by simp)
    simpa using all
  obtain ⟨e, -, fed, -, -, result⟩ := undropped (fun regroups => plain regroups.closes) 0
  exact ⟨evaluation, before, token, behind, last, e, run, text, scanned, fed, result⟩

theorem evaluate_dropped_paren :
    (evaluate .precedence {} "1+2)*3").toOption.map
        (fun e => (e.diagnostics, e.expr.text, e.expr.value)) =
      some ([⟨1, some ⟨⟨0, 3⟩, ⟨0, 4⟩⟩, some ")"⟩], "((1+2)*3)", some 9) ∧
    ((tokenize "1+2)*3").toOption.bind fun tokens =>
      (Engine.parse 40 (parser .precedence) (tokens.eraseIdx 3) .start).toOption.bind fun e =>
        (e.result 0).toOption.map fun expr => (expr.text, expr.value)) =
      some ("(1+(2*3))", some 7) := by
  decide +kernel

end Dropped

end GeneralizedLR.Arithmetic
