import GeneralizedLR.Proofs.Arithmetic.Recognizer
import Mathlib.Data.List.Induction

/-!
A recognizer that keeps what it reports. It reads a text byte by byte and remembers which pattern
the bytes so far are. Bytes of a character outside ASCII are all alike to the patterns, so it may
take them one by one; and the first byte of a character tells it that the character before is whole.
-/

set_option autoImplicit false
set_option relaxedAutoImplicit false

namespace GeneralizedLR.Arithmetic

namespace Pattern

def Continues : Pattern → Char → Prop
  | .space, c => isBlank c
  | .comment, c => c ≠ '\n'
  | .number, c => c.isDigit
  | .punctuation _, _ => False

variable {pattern : Pattern} {c : Char}

theorem matches_singleton : pattern.Matches [c] ↔
    match pattern with
    | .space => isBlank c = true
    | .comment => c = '#'
    | .number => c.isDigit = true
    | .punctuation terminal => punctuation? c = some terminal := by
  cases pattern <;> simp [Matches]

theorem matches_concat (text : List Char) : pattern.Matches (text ++ [c]) ↔
    text = [] ∧ pattern.Matches [c] ∨ pattern.Matches text ∧ pattern.Continues c := by
  rcases List.eq_nil_or_concat text with rfl | ⟨front, last, rfl⟩
  · have : ¬ pattern.Matches [] := fun matched => matched.ne_nil rfl
    simp [this]
  · cases pattern with
    | space => simp [Matches, Continues, or_imp, forall_and, and_assoc]
    | comment => cases front <;> simp [Matches, Continues, and_assoc, @eq_comm _ c]
    | number => simp [Matches, Continues, or_imp, forall_and, and_assoc]
    | punctuation terminal => cases front <;> simp [Matches, Continues]

end Pattern

inductive Reading where
  | nothing
  | within (pattern : Pattern)
  | lost
  deriving DecidableEq

namespace Reading

def read : Reading → Char → Reading
  | .nothing, c =>
    if isBlank c then .within .space
    else if c = '#' then .within .comment
    else if c.isDigit then .within .number
    else
      match punctuation? c with
      | some terminal => .within (.punctuation terminal)
      | none => .lost
  | .within .space, c => if isBlank c then .within .space else .lost
  | .within .comment, c => if c = '\n' then .lost else .within .comment
  | .within .number, c => if c.isDigit then .within .number else .lost
  | .within (.punctuation _), _ => .lost
  | .lost, _ => .lost

def pattern? : Reading → Option Pattern
  | .within pattern => some pattern
  | _ => none

def readByte (reading : Reading) (byte : UInt8) : Reading := reading.read (Char.ofUInt8 byte)

def ofText (text : List Char) : Reading := text.foldl read .nothing

def ofBytes (bytes : List UInt8) : Reading := bytes.foldl readByte .nothing

variable {reading : Reading} {pattern : Pattern} {c : Char} {text : List Char}

theorem read_nothing_eq_within : read .nothing c = .within pattern ↔ pattern.Matches [c] := by
  rw [Pattern.matches_singleton, read]
  by_cases blank : isBlank c = true
  · rw [if_pos blank]
    rcases eq_of_isBlank blank with rfl | ⟨-, rfl | rfl | rfl⟩ <;> cases pattern <;>
      simp [punctuation?, isBlank]
  rw [if_neg blank]
  by_cases mark : c = '#'
  · subst mark
    cases pattern <;> simp [punctuation?, isBlank]
  rw [if_neg mark]
  cases digit : c.isDigit with
  | true =>
    have plain : punctuation? c = none := by
      cases which : punctuation? c with
      | none => rfl
      | some terminal => simp [(solid_of_punctuation which).2.2] at digit
    cases pattern <;> simp [blank, mark, plain]
  | false =>
    cases punctuation? c <;> cases pattern <;> simp [blank, mark]

theorem read_eq_within : reading.read c = .within pattern ↔
    reading = .nothing ∧ pattern.Matches [c] ∨
      reading = .within pattern ∧ pattern.Continues c := by
  cases reading with
  | nothing => simp [read_nothing_eq_within]
  | within inside =>
    cases inside <;> simp only [read] <;> (try split) <;>
      cases pattern <;> simp_all [Pattern.Continues]
  | lost => simp [read]

theorem read_ne_nothing : reading.read c ≠ .nothing := by
  cases reading with
  | nothing =>
    rw [read]
    split
    · simp
    · split
      · simp
      · split
        · simp
        · split <;> simp
  | within inside => cases inside <;> simp only [read] <;> (try split) <;> simp
  | lost => simp [read]

theorem ofText_concat (text : List Char) (c : Char) :
    ofText (text ++ [c]) = (ofText text).read c := by
  simp [ofText]

theorem ofText_eq_nothing : ofText text = .nothing ↔ text = [] := by
  rcases List.eq_nil_or_concat text with rfl | ⟨front, last, rfl⟩
  · simp [ofText]
  · simp [ofText_concat, read_ne_nothing]

theorem ofText_eq_within : ofText text = .within pattern ↔ pattern.Matches text := by
  induction text using List.reverseRecOn with
  | nil =>
    have : ¬ pattern.Matches [] := fun matched => matched.ne_nil rfl
    simp [ofText, this]
  | append_singleton text c ih =>
    rw [ofText_concat, read_eq_within, Pattern.matches_concat, ofText_eq_nothing, ih]

private def pass : Reading → Reading
  | .within .comment => .within .comment
  | _ => .lost

private theorem read_foreign (foreign : 128 ≤ c.toNat) (reading : Reading) :
    reading.read c = reading.pass := by
  have other {d : Char} (plain : d.toNat < 128) : c ≠ d := by
    rintro rfl
    omega
  have solid : isBlank c = false := by
    simp [isBlank, other (d := ' ') (by decide), other (d := '\t') (by decide),
      other (d := '\r') (by decide), other (d := '\n') (by decide)]
  have digit : c.isDigit = false := by
    by_contra digit
    have bound : c.toNat ≤ 57 := by
      simp only [Char.isDigit, Bool.and_eq_true, decide_eq_true_eq, Bool.not_eq_false] at digit
      exact digit.2
    omega
  have plain : punctuation? c = none := by
    cases which : punctuation? c with
    | none => rfl
    | some terminal =>
      unfold punctuation? at which
      split at which <;> first | cases which; done | exact absurd foreign (by decide)
  unfold read
  split <;> simp [solid, digit, plain, pass, other (d := '#') (by decide), other (d := '\n') (by decide)]

private theorem foldl_readByte_foreign {bytes : List UInt8} (occupied : bytes ≠ [])
    (foreign : ∀ byte ∈ bytes, 128 ≤ byte.toNat) (reading : Reading) :
    bytes.foldl readByte reading = reading.pass := by
  have step {byte : UInt8} (member : byte ∈ bytes) (reading : Reading) :
      reading.readByte byte = reading.pass := by
    have same : (Char.ofUInt8 byte).toNat = byte.toNat := UInt8.toNat_toUInt32 byte
    exact read_foreign (same ▸ foreign byte member) reading
  obtain ⟨byte, rest, rfl⟩ := List.exists_cons_of_ne_nil occupied
  rw [List.foldl_cons, step List.mem_cons_self]
  have stays : ∀ others : List UInt8, others ⊆ byte :: rest →
      others.foldl readByte reading.pass = reading.pass := by
    intro others
    induction others with
    | nil => exact fun _ => rfl
    | cons other others ih =>
      intro inside
      have still : reading.pass.pass = reading.pass := by
        cases reading with
        | within inside => cases inside <;> rfl
        | _ => rfl
      rw [List.foldl_cons, step (inside List.mem_cons_self), still]
      exact ih fun _ member => inside (List.mem_cons_of_mem other member)
  exact stays rest (List.subset_cons_self byte rest)

theorem foldl_utf8EncodeChar (c : Char) (reading : Reading) :
    (String.utf8EncodeChar c).foldl readByte reading = reading.read c := by
  rcases Nat.lt_or_ge c.toNat 128 with plain | foreign
  · have one : c.utf8Size = 1 := by
      rw [Char.utf8Size_eq_one_iff, UInt32.le_iff_toNat_le]
      exact Nat.le_of_lt_succ plain
    have same : Char.ofUInt8 c.val.toUInt8 = c := by
      refine Char.ext (UInt32.toNat_inj.mp ?_)
      have byte : (Char.ofUInt8 c.val.toUInt8).val.toNat = c.val.toUInt8.toNat :=
        UInt8.toNat_toUInt32 _
      rw [byte, UInt32.toNat_toUInt8]
      exact Nat.mod_eq_of_lt (Nat.lt_trans plain (by decide))
    rw [String.utf8EncodeChar_eq_singleton one, List.foldl_cons, List.foldl_nil, readByte, same]
  · rw [read_foreign foreign]
    refine foldl_readByte_foreign String.utf8EncodeChar_ne_nil (fun byte member => ?_) reading
    have : c.val.toNat = c.toNat := rfl
    unfold String.utf8EncodeChar at member
    simp only [this] at member
    split at member
    · omega
    · split at member
      · simp only [List.mem_cons, List.not_mem_nil, or_false] at member
        rcases member with rfl | rfl <;> simp <;> omega
      · split at member
        · simp only [List.mem_cons, List.not_mem_nil, or_false] at member
          rcases member with rfl | rfl | rfl <;> simp <;> omega
        · simp only [List.mem_cons, List.not_mem_nil, or_false] at member
          rcases member with rfl | rfl | rfl | rfl <;> simp <;> omega

theorem pattern?_eq_some : reading.pattern? = some pattern ↔ reading = .within pattern := by
  cases reading <;> simp [pattern?]

theorem ofBytes_append_of_lost {bytes : List UInt8} (lost : ofBytes bytes = .lost)
    (behind : List UInt8) : ofBytes (bytes ++ behind) = .lost := by
  have stays : behind.foldl readByte .lost = .lost := by
    induction behind with
    | nil => rfl
    | cons byte behind ih => exact ih
  rw [ofBytes, List.foldl_append, ← ofBytes, lost, stays]

theorem ofBytes_encode (text : List Char) : ofBytes (encode text) = ofText text := by
  have from_here (reading : Reading) :
      (encode text).foldl readByte reading = text.foldl read reading := by
    induction text generalizing reading with
    | nil => rfl
    | cons c text ih =>
      rw [encode_cons, List.foldl_append, foldl_utf8EncodeChar, List.foldl_cons, ih]
  exact from_here .nothing

end Reading

theorem isUTF8FirstByte_iff {text : List Char} {bytes : List UInt8} {byte : UInt8}
    (front : bytes ++ [byte] <+: encode text) :
    byte.IsUTF8FirstByte ↔ ∃ part, part <+: text ∧ encode part = bytes := by
  induction text generalizing bytes with
  | nil => simp [encode] at front
  | cons c text ih =>
    rw [encode_cons] at front
    rcases Nat.lt_or_ge bytes.length (String.utf8EncodeChar c).length with inside | outside
    · -- the byte is one of the first character
      have here : (String.utf8EncodeChar c)[bytes.length] = byte := by
        have same := front.getElem (i := bytes.length) (by simp)
        rw [List.getElem_append_left inside, List.getElem_concat_length rfl] at same
        exact same.symm
      rw [← here, UInt8.isUTF8FirstByte_getElem_utf8EncodeChar]
      constructor
      · intro none
        exact ⟨[], List.nil_prefix, by rw [List.length_eq_zero_iff.mp none]; rfl⟩
      · rintro ⟨part, before, rfl⟩
        cases part with
        | nil => rfl
        | cons d part =>
          obtain ⟨rfl, -⟩ := List.cons_prefix_cons.mp before
          rw [encode_cons, List.length_append] at inside
          omega
    · obtain ⟨others, rfl⟩ : String.utf8EncodeChar c <+: bytes := by
        refine List.prefix_of_prefix_length_le (List.prefix_append _ (encode text))
          ((List.prefix_append bytes [byte]).trans front) outside
      rw [List.append_assoc, List.prefix_append_right_inj] at front
      rw [ih front]
      constructor
      · rintro ⟨part, before, rfl⟩
        exact ⟨c :: part, List.cons_prefix_cons.mpr ⟨rfl, before⟩, encode_cons c part⟩
      · rintro ⟨part, before, same⟩
        cases part with
        | nil =>
          have first := length_encode_pos (List.cons_ne_nil c [])
          have none := congrArg List.length same
          simp [encode] at none first
          omega
        | cons d part =>
          obtain ⟨rfl, behind⟩ := List.cons_prefix_cons.mp before
          exact ⟨part, behind, List.append_cancel_left (same ▸ (encode_cons d part).symm)⟩

namespace Pattern

def index : Pattern → Fin 7
  | .space => 0
  | .comment => 1
  | .number => 2
  | .punctuation .plus => 3
  | .punctuation .star => 4
  | .punctuation .leftParen => 5
  | .punctuation .rightParen => 6
  | .punctuation _ => 0

theorem all_index {pattern : Pattern} {text : List Char} (matched : pattern.Matches text) :
    all.get pattern.index = pattern := by
  cases pattern with
  | punctuation terminal =>
    obtain ⟨c, -, which⟩ := matched
    unfold punctuation? at which
    split at which <;> cases which <;> rfl
  | _ => rfl

end Pattern

/-- A reading, and for a match the pattern of the bytes before the last one. -/
structure ByteReader where
  reading : Reading
  found : Option Pattern

namespace ByteReader

def recognizer : Recognizer where
  State := ByteReader
  start := ⟨.nothing, none⟩
  step := fun state byte =>
    ⟨state.reading.readByte byte, if byte.IsUTF8FirstByte then state.reading.pattern? else none⟩
  finish := fun state => ⟨state.reading, state.reading.pattern?⟩
  isSpecial := fun state => state.found.isSome || state.reading = .lost
  isMatch := fun state => state.found.isSome
  isDead := fun state => state.reading = .lost
  pattern := fun state => (state.found.map Pattern.index).getD 0

theorem reading_after (bytes : List UInt8) :
    ByteReader.reading (recognizer.after bytes) = .ofBytes bytes := by
  induction bytes using List.reverseRecOn with
  | nil => rfl
  | append_singleton bytes byte ih =>
    have read : Reading.ofBytes (bytes ++ [byte]) = (Reading.ofBytes bytes).readByte byte := by
      simp [Reading.ofBytes]
    have step : recognizer.after (bytes ++ [byte]) =
        recognizer.step (recognizer.after bytes) byte := by
      simp [Recognizer.after]
    rw [read, step, ← ih]
    rfl

theorem found_after (bytes : List UInt8) (byte : UInt8) :
    ByteReader.found (recognizer.after (bytes ++ [byte])) =
      if byte.IsUTF8FirstByte then (Reading.ofBytes bytes).pattern? else none := by
  have step : recognizer.after (bytes ++ [byte]) =
      recognizer.step (recognizer.after bytes) byte := by
    simp [Recognizer.after]
  rw [step, ← reading_after]
  rfl

variable {text part : List Char} {bytes : List UInt8} {byte : UInt8}

/-- With the pattern of some first characters, a state tells whether they are a match. -/
theorem tells {state : ByteReader} (before : part <+: text)
    (found : state.found = (Reading.ofText part).pattern?) :
    recognizer.Tells text (encode part) state where
  names := by
    intro some
    obtain ⟨pattern, known⟩ := Option.isSome_iff_exists.mp some
    have matched : pattern.Matches part := by
      rw [← Reading.ofText_eq_within, ← Reading.pattern?_eq_some, ← found]
      exact known
    have named : Pattern.all.get (recognizer.pattern state) = pattern := by
      have place : recognizer.pattern state = pattern.index := by
        have chosen : recognizer.pattern state = (state.found.map Pattern.index).getD 0 := rfl
        rw [chosen, known]
        rfl
      rw [place]
      exact Pattern.all_index matched
    exact ⟨part, before, rfl, named ▸ matched⟩
  denies := by
    intro missing other ahead same pattern matched
    rw [eq_of_encode_eq ahead before same, ← Reading.ofText_eq_within,
      ← Reading.pattern?_eq_some, ← found] at matched
    have some : recognizer.isMatch state = true := Option.isSome_iff_exists.mpr ⟨pattern, matched⟩
    exact absurd (some.symm.trans missing) (by decide)

theorem reports : recognizer.Reports where
  late := by
    intro text bytes byte front
    have found := found_after bytes byte
    by_cases first : byte.IsUTF8FirstByte
    · obtain ⟨part, before, rfl⟩ := (isUTF8FirstByte_iff front).mp first
      rw [if_pos first, Reading.ofBytes_encode] at found
      exact tells before found
    · rw [if_neg first] at found
      refine ⟨fun some => ?_, fun _ part before same => ?_⟩
      · have none : recognizer.isMatch (recognizer.after (bytes ++ [byte])) = false :=
          congrArg Option.isSome found
        exact absurd (some.symm.trans none) (by decide)
      · exact absurd ((isUTF8FirstByte_iff front).mpr ⟨part, before, same⟩) first
  finishes := by
    intro text
    refine tells List.prefix_rfl ?_
    have read := reading_after (encode text)
    rw [Reading.ofBytes_encode] at read
    rw [← read]
    rfl
  special := by
    intro state found
    have same : recognizer.isSpecial state =
      (recognizer.isMatch state || decide (ByteReader.reading state = .lost)) := rfl
    rw [same, found, Bool.true_or]
  dead := by
    intro text bytes byte front dead part before longer pattern matched
    have lost : Reading.ofBytes (bytes ++ [byte]) = .lost := by
      rw [← reading_after]
      exact of_decide_eq_true dead
    obtain ⟨behind, split⟩ : bytes ++ [byte] <+: encode part :=
      List.prefix_of_prefix_length_le front (encode_mono before)
        (by simpa using Nat.succ_le_of_lt longer)
    have stays : Reading.ofText part = .lost := by
      rw [← Reading.ofBytes_encode, ← split]
      exact Reading.ofBytes_append_of_lost lost behind
    rw [← Reading.ofText_eq_within, stays] at matched
    cases matched

end ByteReader

end GeneralizedLR.Arithmetic
