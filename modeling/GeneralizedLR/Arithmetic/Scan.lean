import GeneralizedLR.Arithmetic.Error
import GeneralizedLR.Arithmetic.Lexeme

/-!
Cutting a source into tokens. Blanks and comments, which run from `#` to the end of their line, only
separate. A run of digits is one number. The scan ends with one end token, or with the first error.
-/

set_option autoImplicit false
set_option relaxedAutoImplicit false

namespace GeneralizedLR.Arithmetic

/-- Skip blanks and comments; `comment` tells whether a comment is open. -/
def skipLayout : Bool → Position → List Char → Position × List Char
  | _, p, [] => (p, [])
  | comment, p, c :: rest =>
    if c = '\n' then skipLayout false (p.next c) rest
    else if comment || c = ' ' || c = '\t' || c = '\r' then skipLayout comment (p.next c) rest
    else if c = '#' then skipLayout true (p.next c) rest
    else (p, c :: rest)

def punctuation? : Char → Option Terminal
  | '+' => some .plus
  | '*' => some .star
  | '(' => some .leftParen
  | ')' => some .rightParen
  | _ => none

abbrev Scanned := Except Error Lexeme

/-- Scan from a position on. Every item but the last takes at least one character, so a fuel above
their number is never used up. -/
def scanFrom : Nat → Position → List Char → List Scanned
  | 0, _, _ => []
  | fuel + 1, p, chars =>
    match skipLayout false p chars with
    | (start, []) => [.ok { terminal := .endOfInput, span := some ⟨start, start⟩ }]
    | (start, c :: rest) =>
      if c.isDigit then
        let digits := (c :: rest).takeWhile Char.isDigit
        let stop := start.after digits
        match Number.read digits with
        | .ok value =>
          .ok { terminal := .number, payload := .number value, span := some ⟨start, stop⟩ } ::
            scanFrom fuel stop ((c :: rest).dropWhile Char.isDigit)
        | .error cause => [.error (.unreadable cause)]
      else
        match punctuation? c with
        | some terminal =>
          .ok { terminal, span := some ⟨start, start.next c⟩ } :: scanFrom fuel (start.next c) rest
        | none => [.error (.unexpected c start)]

def scan (source : String) : List Scanned :=
  scanFrom (source.length + 1) .origin source.toList

def tokenize (source : String) : Except Error (List Lexeme) :=
  (scan source).mapM id

end GeneralizedLR.Arithmetic
