import GeneralizedLR.Proofs.Arithmetic.ByteReader
import GeneralizedLR.Proofs.Arithmetic.Tokens
import Mathlib.Algebra.Group.Nat.Defs
import Mathlib.Data.List.TakeWhile

/-!
What a lexer gives for a source. The source falls into whole pieces, one behind the other, up to its
end or the first character or number that stands in the way; every piece that is not layout is one
item, and its span is counted from the characters in front of it. A lexer with a recognizer that
reports its patterns gives these items one by one, and the scan gives them at once.
-/

set_option autoImplicit false
set_option relaxedAutoImplicit false

namespace GeneralizedLR.Arithmetic

/-- The place behind some characters: their line feeds, and the characters behind the last one. -/
def place (passed : List Char) : Position where
  line := passed.count '\n'
  column := (passed.reverse.takeWhile (· ≠ '\n')).length

theorem place_concat (passed : List Char) (c : Char) :
    place (passed ++ [c]) = (place passed).next c := by
  by_cases feed : c = '\n'
  · simp [place, Position.next, feed]
  · simp [place, Position.next, feed]

theorem place_append (passed piece : List Char) :
    place (passed ++ piece) = (place passed).after piece := by
  induction piece generalizing passed with
  | nil => simp [Position.after]
  | cons c piece ih =>
    have step := ih (passed ++ [c])
    rw [List.append_assoc, List.singleton_append, place_concat] at step
    exact step

/-- The items for the rest of a source behind the characters passed. -/
inductive Items : List Char → List Char → List Scanned → Prop where
  | finish (passed : List Char) :
    Items passed []
      [.ok { terminal := .endOfInput, span := some ⟨place passed, place passed⟩ }]
  | layout {passed piece rest : List Char} {items : List Scanned} {pattern : Pattern}
    (silent : pattern = .space ∨ pattern = .comment) (cut : pattern.Cut piece rest)
    (more : Items (passed ++ piece) rest items) : Items passed (piece ++ rest) items
  | number {passed piece rest : List Char} {items : List Scanned} {value : Int64}
    (cut : Pattern.number.Cut piece rest) (reads : value.toInt = Nat.ofDigitChars 10 piece 0)
    (more : Items (passed ++ piece) rest items) :
    Items passed (piece ++ rest)
      (.ok { terminal := .number, payload := .number value,
             span := some ⟨place passed, place (passed ++ piece)⟩ } :: items)
  | tooLarge {passed piece rest : List Char} (cut : Pattern.number.Cut piece rest)
    (exceeds : 2 ^ 63 ≤ Nat.ofDigitChars 10 piece 0) :
    Items passed (piece ++ rest) [.error (.unreadable .tooLarge)]
  | punctuation {passed piece rest : List Char} {items : List Scanned} {terminal : Terminal}
    (cut : (Pattern.punctuation terminal).Cut piece rest)
    (more : Items (passed ++ piece) rest items) :
    Items passed (piece ++ rest)
      (.ok { terminal, span := some ⟨place passed, place (passed ++ piece)⟩ } :: items)
  | stray {passed rest : List Char} {c : Char}
    (alone : ∀ pattern : Pattern, ∀ piece others, c :: rest = piece ++ others →
      ¬ pattern.Cut piece others) :
    Items passed (c :: rest) [.error (.unexpected c (place passed))]

section Read

theorem le_ofDigitChars (digits : List Char) (start : Nat) :
    start ≤ Nat.ofDigitChars 10 digits start := by
  rw [Nat.ofDigitChars_eq_ofDigitChars_zero]
  have power : 0 < 10 ^ digits.length := Nat.pow_pos (by decide)
  exact Nat.le_trans (Nat.le_mul_of_pos_left start power) (Nat.le_add_right _ _)

private theorem readDigits_cases {digits : List Char} (all : ∀ c ∈ digits, c.isDigit)
    {start : Int64} {count : Nat} (here : start.toInt = count) :
    (∃ value, Number.readDigits false start digits = .ok value ∧
        value.toInt = Nat.ofDigitChars 10 digits count) ∨
      Number.readDigits false start digits = .error .tooLarge ∧
        2 ^ 63 ≤ Nat.ofDigitChars 10 digits count := by
  induction digits generalizing start count with
  | nil => exact .inl ⟨start, rfl, by simpa using here⟩
  | cons c digits ih =>
    have digit : Number.digit? c = some (c.toNat - '0'.toNat) := by
      simp [Number.digit?, all c List.mem_cons_self]
    have sum : start.toInt * 10 + ((c.toNat - '0'.toNat : Nat) : Int) =
        ((10 * count + (c.toNat - '0'.toNat) : Nat) : Int) := by
      rw [here]
      omega
    simp only [Number.readDigits, digit, Bool.false_eq_true, if_false, sum, Nat.ofDigitChars_cons]
    cases fits : Number.ofInt? ((10 * count + (c.toNat - '0'.toNat) : Nat) : Int) with
    | some next =>
      exact ih (fun other member => all other (List.mem_cons_of_mem c member))
        (Number.toInt_of_ofInt? fits)
    | none =>
      refine .inr ⟨rfl, Nat.le_trans ?_ (le_ofDigitChars digits _)⟩
      rw [Number.ofInt?_eq_none_iff, Int64.toInt_minValue, Int64.toInt_maxValue] at fits
      omega

theorem read_cases {digits : List Char} (occupied : digits ≠ [])
    (all : ∀ c ∈ digits, c.isDigit) :
    (∃ value, Number.read digits = .ok value ∧ value.toInt = Nat.ofDigitChars 10 digits 0) ∨
      Number.read digits = .error .tooLarge ∧ 2 ^ 63 ≤ Nat.ofDigitChars 10 digits 0 := by
  obtain ⟨c, rest, rfl⟩ := List.exists_cons_of_ne_nil occupied
  have digit := all c List.mem_cons_self
  have unsigned : Number.read (c :: rest) = Number.readDigits false 0 (c :: rest) := by
    unfold Number.read
    split <;> simp_all [Char.isDigit]
  rw [unsigned]
  exact readDigits_cases all rfl

theorem read_eq_ok {digits : List Char} (occupied : digits ≠ []) (all : ∀ c ∈ digits, c.isDigit)
    {value : Int64} (reads : value.toInt = Nat.ofDigitChars 10 digits 0) :
    Number.read digits = .ok value := by
  obtain ⟨other, read, same⟩ | ⟨-, exceeds⟩ := read_cases occupied all
  · obtain rfl : other = value := Int64.toInt_inj.mp (same.trans reads.symm)
    exact read
  · have bound := value.toInt_lt
    omega

end Read

section Digits

variable {value : Int64}

private theorem toList_decimal (natural : 0 ≤ value.toInt) :
    (Number.decimal value).toList = Nat.toDigits 10 value.toInt.toNat := by
  obtain ⟨count, same⟩ := Int.eq_ofNat_of_zero_le natural
  rw [Number.decimal, same, Int.toNat_natCast]
  exact Nat.toList_repr

theorem cut_padded (natural : 0 ≤ value.toInt) (zeros : Nat) {rest : List Char}
    (boundary : ∀ c ∈ rest.head?, c.isDigit = false) :
    Pattern.number.Cut (List.replicate zeros '0' ++ (Number.decimal value).toList) rest := by
  rw [toList_decimal natural]
  refine ⟨fun none => Nat.toDigits_ne_nil (List.append_eq_nil_iff.mp none).2, fun c member => ?_,
    boundary⟩
  rcases List.mem_append.mp member with zero | digit
  · obtain rfl := List.eq_of_mem_replicate zero
    rfl
  · exact Nat.isDigit_of_mem_toDigits (by decide) (by decide) digit

theorem ofDigitChars_padded (natural : 0 ≤ value.toInt) (zeros : Nat) : value.toInt =
    Nat.ofDigitChars 10 (List.replicate zeros '0' ++ (Number.decimal value).toList) 0 := by
  rw [toList_decimal natural, Nat.ofDigitChars_append, Nat.ofDigitChars_replicate_zero, Nat.mul_zero,
    Nat.ofDigitChars_toDigits (by decide) (by decide)]
  exact (Int.toNat_of_nonneg natural).symm

end Digits

section Lexer

variable {r : Recognizer}

theorem Lexer.next_eq (rest : List Char) (position : Position) :
    Lexer.next r { rest, position } =
      match Lexer.nextToken r { rest, position } with
      | none => none
      | some (.error cause, lexer) => some (some (.error cause), { lexer with done := true })
      | some (.ok token, lexer) => some (some (.ok token), lexer) := rfl

theorem Lexer.answer_done (lexer : Lexer) (ended : lexer.done = true) (count : Nat) :
    lexer.answer r count = some none := by
  have idle : lexer.next r = some (none, lexer) := by simp [Lexer.next, ended]
  induction count with
  | zero => simp [Lexer.answer, idle]
  | succ count ih => simp [Lexer.answer, idle, ih]

theorem Lexer.answer_last {lexer behind : Lexer} {item : Scanned}
    (last : lexer.next r = some (some item, behind)) (ended : behind.done = true) (count : Nat) :
    lexer.answer r count = some [item][count]? := by
  cases count with
  | zero => simp [Lexer.answer, last]
  | succ count => simp [Lexer.answer, last, behind.answer_done ended]

theorem Lexer.answer_cons {lexer behind : Lexer} {item : Scanned} {items : List Scanned}
    (first : lexer.next r = some (some item, behind))
    (more : ∀ count, behind.answer r count = some items[count]?) (count : Nat) :
    lexer.answer r count = some (item :: items)[count]? := by
  cases count with
  | zero => simp [Lexer.answer, first]
  | succ count => simp [Lexer.answer, first, more]

theorem Lexer.answer_congr {lexer other : Lexer} (same : lexer.next r = other.next r)
    (count : Nat) : lexer.answer r count = other.answer r count := by
  cases count <;> simp only [Lexer.answer, same]

theorem Lexer.nextToken_eq {pattern : Pattern} {piece rest : List Char} (position : Position)
    (occupied : piece ≠ [])
    (found : r.longest? (piece ++ rest) = some (pattern, (encode piece).length)) :
    Lexer.nextToken r { rest := piece ++ rest, position } =
      match pattern.item piece ⟨position, position.after piece⟩ with
      | some item => some (item, { rest, position := position.after piece })
      | none => Lexer.nextToken r { rest, position := position.after piece } := by
  obtain ⟨c, behind, split⟩ := List.exists_cons_of_ne_nil occupied
  obtain ⟨more, bytes⟩ : ∃ more, (encode piece).length = more + 1 :=
    Nat.exists_eq_succ_of_ne_zero (Nat.ne_of_gt (length_encode_pos occupied))
  have cut := cutBytes_length_encode piece rest
  rw [bytes] at found cut
  subst split
  rw [List.cons_append] at found cut ⊢
  rw [Lexer.nextToken]
  simp only [found]
  split
  · next uncut => rw [cut] at uncut; cases uncut
  · next text others same => rw [cut] at same; cases same; rfl

theorem Lexer.nextToken_stray {c : Char} {rest : List Char} {position : Position}
    (lost : r.longest? (c :: rest) = none) :
    Lexer.nextToken r { rest := c :: rest, position } =
      some (.error (.unexpected c position), { rest := c :: rest, position }) := by
  rw [Lexer.nextToken]
  simp only [lost]

theorem Lexer.exists_items (reports : r.Reports) (passed rest : List Char) :
    ∃ items, Items passed rest items ∧
      ∀ count, Lexer.answer r count { rest, position := place passed } = some items[count]? := by
  induction length : rest.length using Nat.strongRecOn generalizing passed rest with
  | ind size ih =>
    cases rest with
    | nil =>
      have last : Lexer.next r { rest := [], position := place passed } =
          some (some (.ok { terminal := .endOfInput, span := some ⟨place passed, place passed⟩ }),
            { rest := [], position := place passed, done := true }) := by
        rw [Lexer.next_eq, Lexer.nextToken]
      exact ⟨_, .finish passed, Lexer.answer_last last rfl⟩
    | cons c behind =>
      obtain ⟨lost, unmatched⟩ | ⟨pattern, piece, rest, split, cut, found⟩ :=
        reports.longest_spec (c :: behind)
      · have last : Lexer.next r { rest := c :: behind, position := place passed } =
            some (some (.error (.unexpected c (place passed))),
              { rest := c :: behind, position := place passed, done := true }) := by
          rw [Lexer.next_eq, Lexer.nextToken_stray lost]
        refine ⟨_, .stray fun pattern piece others split cut => ?_, Lexer.answer_last last rfl⟩
        exact unmatched piece ⟨others, split.symm⟩ pattern cut.matched
      · have occupied := cut.matched.ne_nil
        have shorter : rest.length < size := by
          rw [← length, split, List.length_append]
          have := List.length_pos_iff.mpr occupied
          omega
        rw [split] at found ⊢
        obtain ⟨items, listed, answers⟩ := ih rest.length shorter (passed ++ piece) rest rfl
        rw [place_append] at answers
        have step := Lexer.nextToken_eq (place passed) occupied found
        cases pattern with
        | space =>
          refine ⟨items, .layout (.inl rfl) cut listed, fun count => ?_⟩
          rw [← answers count]
          exact Lexer.answer_congr (by rw [Lexer.next_eq, step]; rfl) count
        | comment =>
          refine ⟨items, .layout (.inr rfl) cut listed, fun count => ?_⟩
          rw [← answers count]
          exact Lexer.answer_congr (by rw [Lexer.next_eq, step]; rfl) count
        | number =>
          obtain ⟨value, read, reads⟩ | ⟨read, exceeds⟩ := read_cases cut.1 cut.2.1
          · refine ⟨_, .number cut reads listed, Lexer.answer_cons ?_ answers⟩
            rw [Lexer.next_eq, step, Pattern.item, read, place_append]
          · have last : Lexer.next r { rest := piece ++ rest, position := place passed } =
                some (some (.error (.unreadable .tooLarge)),
                  { rest, position := (place passed).after piece, done := true }) := by
              rw [Lexer.next_eq, step, Pattern.item, read]
            exact ⟨_, .tooLarge cut exceeds, Lexer.answer_last last rfl⟩
        | punctuation terminal =>
          refine ⟨_, .punctuation cut listed, Lexer.answer_cons ?_ answers⟩
          rw [Lexer.next_eq, step, Pattern.item, place_append]

end Lexer

section Scan

variable {passed piece rest : List Char} {p : Position}

theorem skipLayout_blanks (blank : ∀ c ∈ piece, isBlank c) :
    skipLayout false p (piece ++ rest) = skipLayout false (p.after piece) rest := by
  induction piece generalizing p with
  | nil => rfl
  | cons c piece ih =>
    have here : skipLayout false p (c :: (piece ++ rest)) =
        skipLayout false (p.next c) (piece ++ rest) := by
      rw [skipLayout]
      rcases eq_of_isBlank (blank c List.mem_cons_self) with feed | ⟨-, rfl | rfl | rfl⟩
      · rw [if_pos feed]
      all_goals rfl
    rw [List.cons_append, here, ih fun other member => blank other (List.mem_cons_of_mem c member)]
    rfl

private theorem skipLayout_comment (closed : '\n' ∉ piece) :
    skipLayout true p (piece ++ rest) = skipLayout true (p.after piece) rest := by
  induction piece generalizing p with
  | nil => rfl
  | cons c piece ih =>
    have other : c ≠ '\n' := fun feed => closed (feed ▸ List.mem_cons_self)
    have here : skipLayout true p (c :: (piece ++ rest)) =
        skipLayout true (p.next c) (piece ++ rest) := by
      rw [skipLayout, if_neg other]
      rfl
    rw [List.cons_append, here, ih fun member => closed (List.mem_cons_of_mem c member)]
    rfl

theorem skipLayout_cut {pattern : Pattern} (silent : pattern = .space ∨ pattern = .comment)
    (cut : pattern.Cut piece rest) :
    skipLayout false p (piece ++ rest) = skipLayout false (p.after piece) rest := by
  rcases silent with rfl | rfl
  · exact skipLayout_blanks cut.2.1
  · obtain ⟨⟨body, rfl, closed⟩, boundary⟩ := cut
    have opened : skipLayout false p ('#' :: (body ++ rest)) =
        skipLayout true (p.next '#') (body ++ rest) := rfl
    have closes : skipLayout true (p.after ('#' :: body)) rest =
        skipLayout false (p.after ('#' :: body)) rest := by
      cases rest with
      | nil => rfl
      | cons c rest =>
        obtain rfl : c = '\n' := boundary c rfl
        rfl
    rw [List.cons_append, opened, skipLayout_comment closed, ← closes]
    rfl

theorem skipLayout_stop {c : Char} (solid : isBlank c = false) (open_ : c ≠ '#') :
    skipLayout false p (c :: rest) = (p, c :: rest) := by
  simp only [isBlank, Bool.or_eq_false_iff, decide_eq_false_iff_not] at solid
  obtain ⟨⟨⟨space, tab⟩, carriage⟩, feed⟩ := solid
  rw [skipLayout, if_neg feed, if_neg (by simp [space, tab, carriage]), if_neg open_]

private theorem stray_cases {c : Char}
    (alone : ∀ pattern : Pattern, ∀ piece others, c :: rest = piece ++ others →
      ¬ pattern.Cut piece others) :
    isBlank c = false ∧ c ≠ '#' ∧ c.isDigit = false ∧ punctuation? c = none := by
  have run (q : Char → Bool) (first : q c = true) : c :: rest.takeWhile q ≠ [] ∧
      (∀ d ∈ c :: rest.takeWhile q, q d = true) ∧ ∀ d ∈ (rest.dropWhile q).head?, q d = false := by
    refine ⟨List.cons_ne_nil _ _, List.forall_mem_cons.mpr ⟨first, fun d => ?_⟩, fun d next => ?_⟩
    · exact List.mem_takeWhile_imp
    · have stop := List.head?_dropWhile_not q rest
      rw [Option.mem_def.mp next] at stop
      exact stop
  have whole (q : Char → Bool) : c :: rest = (c :: rest.takeWhile q) ++ rest.dropWhile q := by
    simp
  refine ⟨?_, ?_, ?_, ?_⟩
  · by_contra blank
    exact alone .space _ _ (whole isBlank) (run isBlank (by simpa using blank))
  · rintro rfl
    have boundary := (run (· ≠ '\n') rfl)
    refine alone .comment _ _ (whole (· ≠ '\n')) ⟨⟨_, rfl, fun feed => ?_⟩, fun d next => ?_⟩
    · simpa using boundary.2.1 _ (List.mem_cons_of_mem _ feed)
    · simpa using boundary.2.2 d next
  · by_contra digit
    exact alone .number _ _ (whole Char.isDigit) (run Char.isDigit (by simpa using digit))
  · cases which : punctuation? c with
    | none => rfl
    | some terminal => exact absurd ⟨c, rfl, which⟩ (alone (.punctuation terminal) [c] rest rfl)

theorem scanFrom_number (cut : Pattern.number.Cut piece rest) (fuel : Nat) :
    scanFrom (fuel + 1) p (piece ++ rest) =
      match Number.read piece with
      | .ok value =>
        .ok { terminal := .number, payload := .number value, span := some ⟨p, p.after piece⟩ } ::
          scanFrom fuel (p.after piece) rest
      | .error cause => [.error (.unreadable cause)] := by
  obtain ⟨occupied, digits, boundary⟩ := cut
  have stop : rest.takeWhile Char.isDigit = [] ∧ rest.dropWhile Char.isDigit = rest := by
    cases rest with
    | nil => exact ⟨rfl, rfl⟩
    | cons c rest => simp [boundary c rfl]
  have taken : (piece ++ rest).takeWhile Char.isDigit = piece := by
    rw [List.takeWhile_append_of_pos digits, stop.1, List.append_nil]
  have dropped : (piece ++ rest).dropWhile Char.isDigit = rest := by
    rw [List.dropWhile_append_of_pos digits, stop.2]
  obtain ⟨c, others, rfl⟩ := List.exists_cons_of_ne_nil occupied
  have first := digits c List.mem_cons_self
  obtain ⟨solid, mark⟩ := solid_of_isDigit first
  rw [List.cons_append] at taken dropped ⊢
  rw [scanFrom, skipLayout_stop solid mark]
  cases read : Number.read (c :: others) <;> simp [first, taken, dropped, read]

theorem scanFrom_punctuation {c : Char} {terminal : Terminal} (which : punctuation? c = some terminal)
    (fuel : Nat) : scanFrom (fuel + 1) p (c :: rest) =
      .ok { terminal, span := some ⟨p, p.next c⟩ } :: scanFrom fuel (p.next c) rest := by
  obtain ⟨solid, mark, digit⟩ := solid_of_punctuation which
  rw [scanFrom, skipLayout_stop solid mark]
  simp [digit, which]

theorem scanFrom_of_items {items : List Scanned} (listed : Items passed rest items) (fuel : Nat)
    (enough : rest.length < fuel) : scanFrom fuel (place passed) rest = items := by
  induction listed generalizing fuel with
  | finish passed =>
    obtain ⟨fuel, rfl⟩ := Nat.exists_eq_succ_of_ne_zero (Nat.ne_zero_of_lt enough)
    rfl
  | layout silent cut more ih =>
    rw [List.length_append] at enough
    obtain ⟨fuel, rfl⟩ := Nat.exists_eq_succ_of_ne_zero (Nat.ne_zero_of_lt enough)
    rw [← ih (fuel + 1) (by omega), place_append, scanFrom, scanFrom, skipLayout_cut silent cut]
  | @number passed piece rest items value cut reads more ih =>
    have occupied := List.length_pos_iff.mpr cut.1
    rw [List.length_append] at enough
    obtain ⟨fuel, rfl⟩ := Nat.exists_eq_succ_of_ne_zero (Nat.ne_zero_of_lt enough)
    have behind := ih fuel (by omega)
    rw [place_append] at behind
    rw [scanFrom_number cut, read_eq_ok cut.1 cut.2.1 reads, place_append, ← behind]
  | @tooLarge passed piece rest cut exceeds =>
    obtain ⟨fuel, rfl⟩ := Nat.exists_eq_succ_of_ne_zero (Nat.ne_zero_of_lt enough)
    obtain ⟨value, -, reads⟩ | ⟨read, -⟩ := read_cases cut.1 cut.2.1
    · have bound := value.toInt_lt
      omega
    · rw [scanFrom_number cut, read]
  | @punctuation passed piece rest items terminal cut more ih =>
    obtain ⟨c, rfl, which⟩ := cut
    rw [List.singleton_append] at enough ⊢
    obtain ⟨fuel, rfl⟩ := Nat.exists_eq_succ_of_ne_zero (Nat.ne_zero_of_lt enough)
    rw [← ih fuel (by simpa using enough), scanFrom_punctuation which, place_concat]
  | stray alone =>
    obtain ⟨fuel, rfl⟩ := Nat.exists_eq_succ_of_ne_zero (Nat.ne_zero_of_lt enough)
    obtain ⟨solid, mark, digit, plain⟩ := stray_cases alone
    rw [scanFrom, skipLayout_stop solid mark]
    simp [digit, plain]

theorem scan_eq_of_items {source : String} {items : List Scanned} (listed : Items [] source.toList items) :
    scan source = items :=
  scanFrom_of_items listed (source.length + 1)
    (Nat.lt_succ_of_le (String.length_toList ▸ Nat.le_refl _))

theorem items_scan (source : String) : Items [] source.toList (scan source) := by
  obtain ⟨items, listed, -⟩ := Lexer.exists_items ByteReader.reports [] source.toList
  exact (scan_eq_of_items listed).symm ▸ listed

end Scan

/-- With a reporting recognizer, a lexer answers its requests with the items of the source, one by
one, and then for ever with none. The items are those of the scan, and there are no others. -/
theorem Lexer.answers_items {r : Recognizer} (reports : r.Reports) (source : String) :
    ∃ items, Items [] source.toList items ∧
      (∀ others, Items [] source.toList others → others = items) ∧ scan source = items ∧
      ∀ count, (Lexer.ofSource source).answer r count = some items[count]? := by
  have scanned {items : List Scanned} (listed : Items [] source.toList items) :
      scan source = items :=
    scanFrom_of_items listed (source.length + 1)
      (Nat.lt_succ_of_le (String.length_toList ▸ Nat.le_refl _))
  obtain ⟨items, listed, answers⟩ := Lexer.exists_items reports [] source.toList
  exact ⟨items, listed, fun others other => (scanned other).symm.trans (scanned listed),
    scanned listed, answers⟩

theorem Lexer.answers_items_commented :
    ByteReader.recognizer.Reports ∧ ∃ items : List Scanned,
      items = [.ok ⟨.number, .number 7, some ⟨⟨0, 0⟩, ⟨0, 1⟩⟩⟩,
        .ok ⟨.star, .empty, some ⟨⟨1, 0⟩, ⟨1, 1⟩⟩⟩,
        .ok ⟨.number, .number 3, some ⟨⟨1, 1⟩, ⟨1, 2⟩⟩⟩,
        .ok ⟨.endOfInput, .empty, some ⟨⟨1, 2⟩, ⟨1, 2⟩⟩⟩] ∧
      ∀ count, (Lexer.ofSource "7 # é + 1\n*3").answer ByteReader.recognizer count =
        some items[count]? := by
  obtain ⟨items, -, -, scanned, answers⟩ :=
    Lexer.answers_items ByteReader.reports "7 # é + 1\n*3"
  exact ⟨ByteReader.reports, items, scanned.symm.trans rfl, answers⟩

end GeneralizedLR.Arithmetic
