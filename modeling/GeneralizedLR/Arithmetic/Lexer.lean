import GeneralizedLR.Arithmetic.Scan

/-!
The lexer: an iterator over the tokens of a source. At each place a recognizer, which reads bytes,
reports the longest match of a pattern; the lexer steps over its characters and keeps the line and
the column. Behind the end token or an error the iterator stays empty.
-/

set_option autoImplicit false
set_option relaxedAutoImplicit false

namespace GeneralizedLR.Arithmetic

inductive Pattern where
  | space
  | comment
  | number
  | punctuation (terminal : Terminal)
  deriving DecidableEq

def isBlank (c : Char) : Bool := c = ' ' || c = '\t' || c = '\r' || c = '\n'

namespace Pattern

def all : List Pattern :=
  [.space, .comment, .number, .punctuation .plus, .punctuation .star, .punctuation .leftParen,
    .punctuation .rightParen]

/-- The texts of a pattern: a run of blanks, a comment without its line feed, a run of digits, or
one character of punctuation. -/
def Matches : Pattern → List Char → Prop
  | .space, text => text ≠ [] ∧ ∀ c ∈ text, isBlank c
  | .comment, text => ∃ body, text = '#' :: body ∧ '\n' ∉ body
  | .number, text => text ≠ [] ∧ ∀ c ∈ text, c.isDigit
  | .punctuation terminal, text => ∃ c, text = [c] ∧ punctuation? c = some terminal

def item (pattern : Pattern) (text : List Char) (span : Span) : Option Scanned :=
  match pattern with
  | .space => none
  | .comment => none
  | .number =>
    match Number.read text with
    | .ok value => some (.ok { terminal := .number, payload := .number value, span })
    | .error cause => some (.error (.unreadable cause))
  | .punctuation terminal => some (.ok { terminal, span })

end Pattern

def encode (text : List Char) : List UInt8 := text.flatMap String.utf8EncodeChar

/-- A deterministic automaton over bytes with a step for the end of the text. A match state names
a pattern by its place among them all. -/
structure Recognizer where
  State : Type
  start : State
  step : State → UInt8 → State
  finish : State → State
  isSpecial : State → Bool
  isMatch : State → Bool
  /-- No match comes any more. -/
  isDead : State → Bool
  pattern : State → Fin Pattern.all.length

namespace Recognizer

variable (r : Recognizer)

/-- Search on from a state for the last match, given the match found so far. A match state tells
of a match that ends before the byte just read. -/
def search : r.State → Nat → Option (Pattern × Nat) → List UInt8 → Option (Pattern × Nat)
  | state, offset, last, [] =>
    let state := r.finish state
    if r.isMatch state then some (Pattern.all.get (r.pattern state), offset) else last
  | state, offset, last, byte :: bytes =>
    let state := r.step state byte
    if r.isSpecial state then
      if r.isMatch state then
        search state (offset + 1) (some (Pattern.all.get (r.pattern state), offset)) bytes
      else if r.isDead state then last
      else search state (offset + 1) last bytes
    else search state (offset + 1) last bytes

/-- The longest match at the start of a text, as a pattern and a number of bytes. -/
def longest? (text : List Char) : Option (Pattern × Nat) :=
  r.search r.start 0 none (encode text)

end Recognizer

/-- The characters of the first bytes and the text behind them, unless the cut goes through a
character or the text is too short. -/
def cutBytes : Nat → List Char → Option (List Char × List Char)
  | 0, text => some ([], text)
  | _, [] => none
  | count, c :: text =>
    if c.utf8Size ≤ count then
      (cutBytes (count - c.utf8Size) text).map fun (piece, rest) => (c :: piece, rest)
    else none

theorem length_lt_of_cutBytes {count : Nat} {text piece rest : List Char}
    (cut : cutBytes (count + 1) text = some (piece, rest)) : rest.length < text.length := by
  induction text generalizing count piece rest with
  | nil => simp [cutBytes] at cut
  | cons c text ih =>
    simp only [cutBytes] at cut
    split at cut
    · obtain ⟨⟨others, behind⟩, shorter, same⟩ := Option.map_eq_some_iff.mp cut
      cases same
      rw [List.length_cons]
      cases left : count + 1 - c.utf8Size with
      | zero =>
        rw [left, cutBytes] at shorter
        cases shorter
        exact Nat.lt_succ_self _
      | succ more =>
        rw [left] at shorter
        exact Nat.lt_succ_of_lt (ih shorter)
    · cases cut

/-- The rest of a source, the place where it starts, and whether the lexer has come to an end. -/
structure Lexer where
  rest : List Char
  position : Position := .origin
  done : Bool := false

namespace Lexer

def ofSource (source : String) : Lexer := { rest := source.toList }

/-- The next token or error. There is no answer if a match ends inside a character. -/
def nextToken (r : Recognizer) (lexer : Lexer) : Option (Scanned × Lexer) :=
  let start := lexer.position
  match lexer.rest with
  | [] =>
    some (.ok { terminal := .endOfInput, span := some ⟨start, start⟩ }, { lexer with done := true })
  | c :: _ =>
    match r.longest? lexer.rest with
    | some (pattern, length + 1) =>
      match _cut : cutBytes (length + 1) lexer.rest with
      | none => none
      | some (text, rest) =>
        let stop := start.after text
        let next : Lexer := { lexer with rest, position := stop }
        match pattern.item text ⟨start, stop⟩ with
        | some item => some (item, next)
        | none => nextToken r next
    | _ => some (.error (.unexpected c start), lexer)
termination_by lexer.rest.length
decreasing_by exact length_lt_of_cutBytes (by assumption)

def next (r : Recognizer) (lexer : Lexer) : Option (Option Scanned × Lexer) :=
  if lexer.done then some (none, lexer)
  else
    match lexer.nextToken r with
    | none => none
    | some (.error cause, lexer) => some (some (.error cause), { lexer with done := true })
    | some (.ok token, lexer) => some (some (.ok token), lexer)

/-- The answer to the request with the given number, counted from zero. -/
def answer (r : Recognizer) : Nat → Lexer → Option (Option Scanned)
  | 0, lexer => (lexer.next r).map Prod.fst
  | count + 1, lexer => (lexer.next r).bind fun (_, lexer) => answer r count lexer

end Lexer

end GeneralizedLR.Arithmetic
