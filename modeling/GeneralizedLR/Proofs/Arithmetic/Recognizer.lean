import GeneralizedLR.Arithmetic.Lexer
import Mathlib.Data.List.Basic

/-!
Recognizers. A recognizer that reports the matches of the patterns, each one byte late as its states
are made, finds the longest match at the start of a text: the search meets every match as it reads,
and it leaves early only where none is left. So a piece that the lexer takes is a whole one.
-/

set_option autoImplicit false
set_option relaxedAutoImplicit false

namespace GeneralizedLR.Arithmetic

section Encode

variable {text part rest : List Char}

@[simp]
theorem encode_append (text rest : List Char) :
    encode (text ++ rest) = encode text ++ encode rest :=
  List.flatMap_append

@[simp]
theorem encode_cons (c : Char) (text : List Char) :
    encode (c :: text) = String.utf8EncodeChar c ++ encode text :=
  List.flatMap_cons

theorem encode_mono (before : part <+: text) : encode part <+: encode text := by
  obtain ⟨rest, rfl⟩ := before
  exact ⟨encode rest, (encode_append part rest).symm⟩

theorem length_encode_pos (occupied : text ≠ []) : 0 < (encode text).length := by
  obtain ⟨c, rest, rfl⟩ := List.exists_cons_of_ne_nil occupied
  have first := c.utf8Size_pos
  rw [encode_cons, List.length_append, String.length_utf8EncodeChar]
  omega

theorem eq_of_encode_eq {other : List Char} (before : part <+: text) (ahead : other <+: text)
    (same : encode part = encode other) : part = other := by
  have nothing (rest : List Char) (short : (encode rest).length = 0) : rest = [] := by
    by_contra occupied
    exact Nat.ne_of_gt (length_encode_pos occupied) short
  rcases List.prefix_or_prefix_of_prefix before ahead with ⟨rest, rfl⟩ | ⟨rest, rfl⟩
  · have length := congrArg List.length same
    rw [encode_append, List.length_append] at length
    rw [nothing rest (by omega), List.append_nil]
  · have length := congrArg List.length same
    rw [encode_append, List.length_append] at length
    rw [nothing rest (by omega), List.append_nil]

theorem cutBytes_length_encode (part rest : List Char) :
    cutBytes (encode part).length (part ++ rest) = some (part, rest) := by
  induction part with
  | nil => simp [encode, cutBytes]
  | cons c part ih =>
    have bytes : (encode (c :: part)).length = c.utf8Size + (encode part).length := by simp
    obtain ⟨more, split⟩ : ∃ more, (encode (c :: part)).length = more + 1 :=
      Nat.exists_eq_succ_of_ne_zero (Nat.ne_of_gt (length_encode_pos (List.cons_ne_nil c part)))
    have fits : c.utf8Size ≤ more + 1 := by omega
    have left : more + 1 - c.utf8Size = (encode part).length := by omega
    rw [split, List.cons_append, cutBytes.eq_3 _ _ _ (Nat.succ_ne_zero more)]
    simp only [fits, if_true, left, ih, Option.map_some]

end Encode

section Characters

variable {c : Char}

theorem eq_of_isBlank (blank : isBlank c = true) :
    c = '\n' ∨ c ≠ '\n' ∧ (c = ' ' ∨ c = '\t' ∨ c = '\r') := by
  simp only [isBlank, Bool.or_eq_true, decide_eq_true_eq] at blank
  by_cases feed : c = '\n'
  · exact .inl feed
  · exact .inr ⟨feed, by tauto⟩

theorem solid_of_isDigit (digit : c.isDigit = true) :
    isBlank c = false ∧ c ≠ '#' := by
  constructor
  · by_contra blank
    rcases eq_of_isBlank (by simpa using blank) with rfl | ⟨-, rfl | rfl | rfl⟩ <;>
      exact absurd digit (by decide)
  · rintro rfl
    exact absurd digit (by decide)

theorem solid_of_punctuation {terminal : Terminal}
    (which : punctuation? c = some terminal) :
    isBlank c = false ∧ c ≠ '#' ∧ c.isDigit = false := by
  unfold punctuation? at which
  split at which
  all_goals first
    | exact ⟨rfl, by decide, rfl⟩
    | cases which

end Characters

namespace Pattern

/-- A piece of a pattern is whole in front of what follows it, if it could not be longer. -/
def Cut : Pattern → List Char → List Char → Prop
  | .space, piece, rest =>
    piece ≠ [] ∧ (∀ c ∈ piece, isBlank c) ∧ ∀ c ∈ rest.head?, isBlank c = false
  | .comment, piece, rest =>
    (∃ body, piece = '#' :: body ∧ '\n' ∉ body) ∧ ∀ c ∈ rest.head?, c = '\n'
  | .number, piece, rest =>
    piece ≠ [] ∧ (∀ c ∈ piece, c.isDigit) ∧ ∀ c ∈ rest.head?, c.isDigit = false
  | .punctuation terminal, piece, _ => ∃ c, piece = [c] ∧ punctuation? c = some terminal

variable {pattern : Pattern} {piece rest : List Char}

theorem Cut.matched (cut : pattern.Cut piece rest) : pattern.Matches piece := by
  cases pattern with
  | space => exact ⟨cut.1, cut.2.1⟩
  | comment => exact cut.1
  | number => exact ⟨cut.1, cut.2.1⟩
  | punctuation terminal => exact cut

theorem Matches.ne_nil (matched : pattern.Matches piece) : piece ≠ [] := by
  cases pattern with
  | space => exact matched.1
  | comment =>
    obtain ⟨body, rfl, -⟩ := matched
    exact List.cons_ne_nil _ _
  | number => exact matched.1
  | punctuation terminal =>
    obtain ⟨c, rfl, -⟩ := matched
    exact List.cons_ne_nil _ _

theorem cut_of_matches (matched : pattern.Matches piece)
    (longest : ∀ c ∈ rest.head?, ¬ pattern.Matches (piece ++ [c])) : pattern.Cut piece rest := by
  cases pattern with
  | space =>
    refine ⟨matched.1, matched.2, fun c next => ?_⟩
    by_contra blank
    refine longest c next ⟨by simp, fun other member => ?_⟩
    rcases List.mem_append.mp member with inside | last
    · exact matched.2 other inside
    · rw [List.mem_singleton.mp last]
      simpa using blank
  | comment =>
    refine ⟨matched, fun c next => ?_⟩
    by_contra inside
    obtain ⟨body, rfl, closed⟩ := matched
    exact longest c next ⟨body ++ [c], rfl, by simp [closed, Ne.symm inside]⟩
  | number =>
    refine ⟨matched.1, matched.2, fun c next => ?_⟩
    by_contra digit
    refine longest c next ⟨by simp, fun other member => ?_⟩
    rcases List.mem_append.mp member with inside | last
    · exact matched.2 other inside
    · rw [List.mem_singleton.mp last]
      simpa using digit
  | punctuation terminal => exact matched

end Pattern

namespace Recognizer

variable (r : Recognizer)

def after (bytes : List UInt8) : r.State := bytes.foldl r.step r.start

/-- A state tells whether the first bytes of a text are a match, and of which pattern. -/
structure Tells (text : List Char) (bytes : List UInt8) (state : r.State) : Prop where
  names : r.isMatch state = true →
    ∃ part, part <+: text ∧ encode part = bytes ∧ (Pattern.all.get (r.pattern state)).Matches part
  denies : r.isMatch state = false →
    ∀ part, part <+: text → encode part = bytes → ∀ pattern : Pattern, ¬ pattern.Matches part

/-- What a recognizer of the patterns promises about every text: the state behind a byte tells of the
bytes in front of it, and the finishing state of the whole text; a match state is special; and
behind a dead state there is no match. -/
structure Reports : Prop where
  late {text : List Char} {bytes : List UInt8} {byte : UInt8} :
    bytes ++ [byte] <+: encode text → r.Tells text bytes (r.after (bytes ++ [byte]))
  finishes (text : List Char) : r.Tells text (encode text) (r.finish (r.after (encode text)))
  special {state : r.State} : r.isMatch state = true → r.isSpecial state = true
  dead {text : List Char} {bytes : List UInt8} {byte : UInt8} :
    bytes ++ [byte] <+: encode text → r.isDead (r.after (bytes ++ [byte])) = true →
      ∀ part, part <+: text → bytes.length < (encode part).length →
        ∀ pattern : Pattern, ¬ pattern.Matches part

def Longest (text : List Char) (bound : Nat) : Option (Pattern × Nat) → Prop
  | none => ∀ part, part <+: text → (encode part).length < bound →
      ∀ pattern : Pattern, ¬ pattern.Matches part
  | some (pattern, length) =>
    ∃ part, part <+: text ∧ pattern.Matches part ∧ (encode part).length = length ∧ length < bound ∧
      ∀ longer, longer <+: text → length < (encode longer).length →
        (encode longer).length < bound → ∀ pattern : Pattern, ¬ pattern.Matches longer

variable {r} {text : List Char} {bytes : List UInt8} {last : Option (Pattern × Nat)}

/-- A longest match stays the longest under a higher bound if no match lies between. -/
theorem Longest.mono {bound higher : Nat} (longest : Longest text bound last)
    (raised : bound ≤ higher)
    (between : ∀ part, part <+: text → bound ≤ (encode part).length →
      (encode part).length < higher → ∀ pattern : Pattern, ¬ pattern.Matches part) :
    Longest text higher last := by
  have extend : ∀ part, part <+: text → (encode part).length < higher →
      ((encode part).length < bound → ∀ pattern : Pattern, ¬ pattern.Matches part) →
      ∀ pattern : Pattern, ¬ pattern.Matches part := by
    intro part before short below
    rcases Nat.lt_or_ge (encode part).length bound with inside | outside
    · exact below inside
    · exact between part before outside short
  cases last with
  | none => exact fun part before short => extend part before short (longest part before)
  | some found =>
    obtain ⟨pattern, length⟩ := found
    obtain ⟨part, before, matched, bytes, short, others⟩ := longest
    exact ⟨part, before, matched, bytes, Nat.lt_of_lt_of_le short raised, fun longer ahead more less =>
      extend longer ahead less (others longer ahead more)⟩

theorem Tells.longest {state : r.State} (tells : r.Tells text bytes state)
    (ahead : bytes <+: encode text) (longest : Longest text bytes.length last) :
    Longest text (bytes.length + 1)
      (if r.isMatch state then some (Pattern.all.get (r.pattern state), bytes.length) else last) := by
  cases found : r.isMatch state with
  | true =>
    obtain ⟨part, before, same, matched⟩ := tells.names found
    refine ⟨part, before, matched, by rw [same], Nat.lt_succ_self _, fun longer _ more less => ?_⟩
    omega
  | false =>
    refine longest.mono (Nat.le_succ _) fun part before more less => ?_
    have same : encode part = bytes :=
      (List.prefix_of_prefix_length_le (encode_mono before) ahead (by omega)).eq_of_length
        (by omega)
    exact tells.denies found part before same

theorem Reports.longest_search (reports : r.Reports) (bytes : List UInt8)
    (last : Option (Pattern × Nat)) {ahead : List UInt8} (split : encode text = bytes ++ ahead)
    (longest : Longest text bytes.length last) :
    Longest text ((encode text).length + 1) (r.search (r.after bytes) bytes.length last ahead) := by
  induction ahead generalizing bytes last with
  | nil =>
    rw [List.append_nil] at split
    have tells := reports.finishes text
    rw [split] at tells ⊢
    exact tells.longest (split ▸ List.prefix_rfl) longest
  | cons byte ahead ih =>
    have front : bytes ++ [byte] <+: encode text := ⟨ahead, by simp [split]⟩
    have next : r.step (r.after bytes) byte = r.after (bytes ++ [byte]) := by simp [after]
    have length : (bytes ++ [byte]).length = bytes.length + 1 := by simp
    have grown := (reports.late front).longest ((List.prefix_append bytes [byte]).trans front) longest
    have more (last' : Option (Pattern × Nat)) (longest' : Longest text (bytes.length + 1) last') :
        Longest text ((encode text).length + 1)
          (r.search (r.after (bytes ++ [byte])) (bytes.length + 1) last' ahead) := by
      have behind := ih (bytes ++ [byte]) last' (by simp [split]) (length ▸ longest')
      rwa [length] at behind
    simp only [search, next]
    cases found : r.isMatch (r.after (bytes ++ [byte])) with
    | true =>
      rw [found] at grown
      simp only [reports.special found, if_true]
      exact more _ grown
    | false =>
      rw [found] at grown
      simp only [Bool.false_eq_true, if_false] at grown ⊢
      split
      · split
        · next dead =>
          refine grown.mono (by simp [split]) fun part before more _ => ?_
          exact reports.dead front dead part before more
        · exact more _ grown
      · exact more _ grown

/-- The recognizer finds a whole piece at the start of a text, or else no pattern matches there. -/
theorem Reports.longest_spec (reports : r.Reports) (text : List Char) :
    (r.longest? text = none ∧ ∀ part, part <+: text → ∀ pattern : Pattern, ¬ pattern.Matches part) ∨
      ∃ pattern piece rest, text = piece ++ rest ∧ pattern.Cut piece rest ∧
        r.longest? text = some (pattern, (encode piece).length) := by
  have longest : Longest text ((encode text).length + 1) (r.longest? text) :=
    reports.longest_search [] none rfl fun _ _ short => absurd short (Nat.not_lt_zero _)
  cases found : r.longest? text with
  | none =>
    rw [found] at longest
    refine .inl ⟨rfl, fun part before => longest part before ?_⟩
    exact Nat.lt_succ_of_le (encode_mono before).length_le
  | some answer =>
    obtain ⟨pattern, length⟩ := answer
    rw [found] at longest
    obtain ⟨piece, ⟨rest, rfl⟩, matched, rfl, -, others⟩ := longest
    refine .inr ⟨pattern, piece, rest, rfl, Pattern.cut_of_matches matched fun c next => ?_, rfl⟩
    obtain ⟨behind, rfl⟩ := List.head?_eq_some_iff.mp next
    have front : piece ++ [c] <+: piece ++ c :: behind := ⟨behind, by simp⟩
    refine others _ front ?_ (Nat.lt_succ_of_le (encode_mono front).length_le) pattern
    have more := length_encode_pos (List.cons_ne_nil c [])
    rw [encode_append, List.length_append]
    omega

end Recognizer

end GeneralizedLR.Arithmetic
