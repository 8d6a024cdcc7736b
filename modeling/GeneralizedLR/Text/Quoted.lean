import GeneralizedLR.Text.Visible

/-!
Quoted characters and texts, as messages show them: a mark that would end the quote, a backslash and
the common controls are written with a backslash, other characters that cannot be seen by their code
point.
-/

set_option autoImplicit false
set_option relaxedAutoImplicit false

namespace GeneralizedLR.Text

/-- The code point in lower-case hexadecimal digits, without leading zeros. -/
def hexDigits (code : Nat) : String :=
  String.ofList (Nat.toDigits 16 code)

def quoteWithin (mark : Char) (c : Char) : String :=
  if c = '\x00' then "\\0"
  else if c = '\t' then "\\t"
  else if c = '\r' then "\\r"
  else if c = '\n' then "\\n"
  else if c = '\\' then "\\\\"
  else if c = mark then String.ofList ['\\', c]
  else if isVisible c then String.singleton c
  else "\\u\x7b" ++ hexDigits c.toNat ++ "\x7d"

def quoteChar (c : Char) : String :=
  "'" ++ quoteWithin '\'' c ++ "'"

def quote (text : String) : String :=
  "\"" ++ String.join (text.toList.map (quoteWithin '"')) ++ "\""

end GeneralizedLR.Text
