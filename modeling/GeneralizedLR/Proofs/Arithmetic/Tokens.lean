import GeneralizedLR.Arithmetic.Evaluate
import GeneralizedLR.Proofs.Outcome

/-!
The tokens of a source. A scan has at most one item for each character and one more, and if it has
no error then its last item is the end of the input.
-/

set_option autoImplicit false
set_option relaxedAutoImplicit false

namespace GeneralizedLR.Arithmetic

theorem length_skipLayout_le (comment : Bool) (p : Position) (chars : List Char) :
    (skipLayout comment p chars).2.length ≤ chars.length := by
  induction chars generalizing comment p with
  | nil => exact Nat.le_refl _
  | cons c rest ih =>
    unfold skipLayout
    split
    · exact Nat.le_trans (ih ..) (Nat.le_succ _)
    · split
      · exact Nat.le_trans (ih ..) (Nat.le_succ _)
      · split
        · exact Nat.le_trans (ih ..) (Nat.le_succ _)
        · exact Nat.le_refl _

private theorem punctuation_goes {c : Char} {terminal : Terminal} {span : Option Span}
    (which : punctuation? c = some terminal) : Lexeme.isEnd { terminal, span } = false := by
  unfold punctuation? at which
  split at which <;> cases which <;> rfl

def Lexeme.Valued (token : Lexeme) : Prop :=
  token.terminal = .number → ∃ value, token.payload = .number value

private theorem punctuation_valued {c : Char} {terminal : Terminal} {span : Option Span}
    (which : punctuation? c = some terminal) : Lexeme.Valued { terminal, span } := by
  intro kind
  obtain rfl : terminal = .number := kind
  unfold punctuation? at which
  split at which <;> cases which

theorem scanFrom_cases (fuel : Nat) (p : Position) (chars : List Char) :
    (∃ cause, scanFrom (fuel + 1) p chars = [.error cause]) ∨
    (∃ token : Lexeme, scanFrom (fuel + 1) p chars = [.ok token] ∧ token.isEnd = true) ∨
      ∃ token p' rest, scanFrom (fuel + 1) p chars = .ok token :: scanFrom fuel p' rest ∧
        rest.length < chars.length ∧ token.isEnd = false ∧ token.Valued := by
  have shorter := length_skipLayout_le false p chars
  rw [scanFrom]
  split
  · exact .inr (.inl ⟨_, rfl, rfl⟩)
  · next start c rest skipped =>
    rw [skipped] at shorter
    split
    · next digit =>
      dsimp only
      split
      · next value _ =>
        have behind := (List.dropWhile_sublist Char.isDigit (l := rest)).length_le
        refine .inr (.inr ⟨_, _, _, rfl, ?_, rfl, fun _ => ⟨value, rfl⟩⟩)
        rw [List.dropWhile_cons_of_pos digit]
        exact Nat.lt_of_le_of_lt behind shorter
      · exact .inl ⟨_, rfl⟩
    · split
      · next terminal which =>
        exact .inr (.inr ⟨_, _, _, rfl, shorter, punctuation_goes which, punctuation_valued which⟩)
      · exact .inl ⟨_, rfl⟩

theorem length_scanFrom_le (fuel : Nat) (p : Position) (chars : List Char) :
    (scanFrom fuel p chars).length ≤ fuel := by
  induction fuel generalizing p chars with
  | zero => exact Nat.le_refl _
  | succ fuel ih =>
    obtain ⟨cause, scanned⟩ | ⟨token, scanned, -⟩ | ⟨token, p', rest, scanned, -⟩ :=
      scanFrom_cases fuel p chars
    · simp [scanned]
    · simp [scanned]
    · simpa [scanned] using ih p' rest

theorem exists_concat_of_scanFrom {fuel : Nat} {p : Position} {chars : List Char}
    {tokens : List Lexeme} (enough : chars.length < fuel)
    (scanned : scanFrom fuel p chars = tokens.map .ok) :
    ∃ front last, tokens = front ++ [last] ∧ last.isEnd = true ∧
      ∀ token ∈ front, token.isEnd = false ∧ token.Valued := by
  induction fuel generalizing p chars tokens with
  | zero => exact absurd enough (Nat.not_lt_zero _)
  | succ fuel ih =>
    obtain ⟨cause, last⟩ | ⟨token, last, ends⟩ | ⟨token, p', rest, more, shorter, goes⟩ :=
      scanFrom_cases fuel p chars
    · rw [scanned] at last
      obtain ⟨_, _, rfl, head, -⟩ := List.map_eq_cons_iff.mp last
      cases head
    · rw [scanned] at last
      obtain ⟨_, _, rfl, head, none⟩ := List.map_eq_cons_iff.mp last
      cases head
      obtain rfl := List.map_eq_nil_iff.mp none
      exact ⟨[], token, rfl, ends, fun _ => (nomatch ·)⟩
    · rw [scanned] at more
      obtain ⟨_, _, rfl, head, tail⟩ := List.map_eq_cons_iff.mp more
      cases head
      obtain ⟨front, last, rfl, ends, others⟩ := ih (by omega) tail.symm
      exact ⟨token :: front, last, rfl, ends, List.forall_mem_cons.mpr ⟨goes, others⟩⟩

/-- The tokens of a source are all items of its scan, if none of them is an error. -/
theorem tokenize_eq_ok {source : String} {tokens : List Lexeme}
    (run : tokenize source = .ok tokens) : scan source = tokens.map .ok := by
  have items := forall₂_of_mapM_eq_ok run
  rw [← List.forall₂_eq_eq_eq, List.forall₂_map_right_iff]
  exact items

theorem tokenize_of_scan {source : String} {tokens : List Lexeme}
    (scanned : scan source = tokens.map .ok) : tokenize source = .ok tokens := by
  rw [tokenize, scanned, List.mapM_map]
  exact (List.mapM_pure ..).trans (congrArg _ (List.map_id tokens))

theorem exists_concat_of_tokenize {source : String} {tokens : List Lexeme}
    (run : tokenize source = .ok tokens) : ∃ front last, tokens = front ++ [last] ∧
      last.isEnd = true ∧ ∀ token ∈ front, token.isEnd = false ∧ token.Valued :=
  exists_concat_of_scanFrom (Nat.lt_succ_of_le (String.length_toList ▸ Nat.le_refl _))
    (tokenize_eq_ok run)

theorem exists_of_tokenize_eq_error {source : String} {cause : Error}
    (run : tokenize source = .error cause) :
    ∃ (tokens : List Lexeme) (rest : List Scanned),
      scan source = tokens.map .ok ++ .error cause :: rest := by
  unfold tokenize at run
  generalize scan source = items at run
  induction items with
  | nil =>
    rw [List.mapM_nil] at run
    cases run
  | cons item items ih =>
    rw [List.mapM_cons] at run
    cases item with
    | error first =>
      cases run
      exact ⟨[], items, rfl⟩
    | ok token =>
      cases stop : items.mapM id with
      | error last =>
        rw [stop] at run
        cases run
        obtain ⟨tokens, rest, split⟩ := ih stop
        exact ⟨token :: tokens, rest, by rw [split]; rfl⟩
      | ok made =>
        rw [stop] at run
        cases run

theorem feed_append {fuel : Nat} {p : Parser Lexeme Expr} {tokens : List Lexeme}
    {e after : Engine Lexeme Expr} (run : e.parse fuel p tokens = .ok after) (rest : List Scanned) :
    feed fuel p e (tokens.map .ok ++ rest) = feed fuel p after rest := by
  induction tokens generalizing e with
  | nil =>
    cases run
    rfl
  | cons token tokens ih =>
    obtain ⟨next, taken, run⟩ := exists_of_bind_eq_ok run
    rw [List.map_cons, List.cons_append, feed,
      show e.input fuel p token = .ok next from taken]
    exact ih run

section Evaluate

variable {grouping : Grouping} {codes : ErrorCodes} {source : String}

theorem evaluate_eq_ok {e : Engine Lexeme Expr} {expr : Expr}
    (fed : feed (fuelFor source) (parser grouping codes) .start (scan source) = .ok e)
    (result : e.result 0 = .ok expr) :
    evaluate grouping codes source = .ok ⟨expr, e.diagnostics codes 0, e.stats⟩ := by
  have filled : e.accepted.isEmpty = false := by
    cases none : e.accepted with
    | nil => simp [Engine.result, none] at result
    | cons => rfl
  simp only [evaluate, fed, bind, Except.bind, filled, Bool.false_eq_true, if_false, result]
  rfl

theorem evaluate_eq_error {cause : Error}
    (fed : feed (fuelFor source) (parser grouping codes) .start (scan source) = .error cause) :
    evaluate grouping codes source = .error cause := by
  simp only [evaluate, fed, bind, Except.bind]

end Evaluate

end GeneralizedLR.Arithmetic
