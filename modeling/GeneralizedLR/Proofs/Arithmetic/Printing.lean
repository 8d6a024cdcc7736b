import GeneralizedLR.Proofs.Arithmetic.Lexer
import Mathlib.Data.List.Chain

/-!
Printing tokens. A printed token has layout in front of it, and a number may have zeros in front of its
digits. Layout is skipped however much of it there is and whatever its comments say, and a token ends
where it was printed to end, so a source that is printed is tokenized to the tokens that were printed.
-/

set_option autoImplicit false
set_option relaxedAutoImplicit false

namespace GeneralizedLR.Arithmetic

section Layout

/-- A blank, or a comment with the line feed that closes it. -/
inductive Filler where
  | blank (c : Char) (white : isBlank c = true)
  | comment (body : List Char) (line : '\n' ∉ body)

def Filler.text : Filler → List Char
  | .blank c _ => [c]
  | .comment body _ => '#' :: (body ++ ['\n'])

def layout (fillers : List Filler) : List Char := fillers.flatMap Filler.text

variable {p : Position}

private theorem skipLayout_filler (filler : Filler) (rest : List Char) :
    skipLayout false p (filler.text ++ rest) = skipLayout false (p.after filler.text) rest := by
  have white (c : Char) (blank : isBlank c = true) : ∀ other ∈ [c], isBlank other := by
    simpa using blank
  cases filler with
  | blank c blank => exact skipLayout_blanks (white c blank)
  | comment body line =>
    have cut : Pattern.comment.Cut ('#' :: body) ('\n' :: rest) := ⟨⟨body, rfl, line⟩, by simp⟩
    have split : (Filler.comment body line).text = ('#' :: body) ++ ['\n'] := rfl
    rw [split, Position.after_append, List.append_assoc, List.singleton_append,
      skipLayout_cut (.inr rfl) cut]
    exact skipLayout_blanks (white '\n' rfl)

theorem skipLayout_layout (fillers : List Filler) (rest : List Char) :
    skipLayout false p (layout fillers ++ rest) = skipLayout false (p.after (layout fillers)) rest := by
  induction fillers generalizing p with
  | nil => rfl
  | cons filler fillers ih =>
    rw [layout, List.flatMap_cons, List.append_assoc, skipLayout_filler, Position.after_append]
    exact ih

theorem scanFrom_layout (fillers : List Filler) (rest : List Char) (fuel : Nat) :
    scanFrom fuel p (layout fillers ++ rest) = scanFrom fuel (p.after (layout fillers)) rest := by
  cases fuel with
  | zero => rfl
  | succ fuel => rw [scanFrom, scanFrom, skipLayout_layout]

private theorem boundary_layout (fillers : List Filler) (rest : List Char)
    (behind : fillers = [] → ∀ c ∈ rest.head?, c.isDigit = false) :
    ∀ c ∈ (layout fillers ++ rest).head?, c.isDigit = false := by
  cases fillers with
  | nil => exact behind rfl
  | cons filler fillers =>
    intro c first
    by_contra digit
    obtain ⟨solid, mark⟩ := solid_of_isDigit (by simpa using digit)
    cases filler with
    | blank c' white =>
      obtain rfl : c' = c := Option.some.inj first
      exact Bool.noConfusion (white.symm.trans solid)
    | comment body line => exact mark (Option.some.inj first).symm

end Layout

section Print

/-- A number that is not negative, with zeros in front of it, or an operator or parenthesis. -/
inductive Glyph where
  | number (zeros : Nat) (value : Int64) (natural : 0 ≤ value.toInt)
  | mark (terminal : Terminal) (kind : terminal ∈ [.plus, .star, .leftParen, .rightParen])

namespace Glyph

def token : Glyph → Lexeme
  | number _ value _ => { terminal := .number, payload := .number value }
  | mark terminal _ => { terminal }

def text : Glyph → List Char
  | number zeros value _ => List.replicate zeros '0' ++ (Number.decimal value).toList
  | mark terminal _ => terminal.symbol.toList

end Glyph

structure Printed where
  before : List Filler
  glyph : Glyph

def print : List Printed → List Filler → List Char
  | [], after => layout after
  | first :: rest, after => layout first.before ++ (first.glyph.text ++ print rest after)

/-- Between two numbers without another token between them there is layout. -/
def Apart (printed : List Printed) : Prop :=
  printed.IsChain fun former latter =>
    former.glyph.token.terminal = .number → latter.glyph.token.terminal = .number → latter.before ≠ []

def Lexeme.unplaced (token : Lexeme) : Lexeme := { token with span := none }

private theorem exists_symbol {terminal : Terminal}
    (kind : terminal ∈ [.plus, .star, .leftParen, .rightParen]) :
    ∃ c, terminal.symbol.toList = [c] ∧ punctuation? c = some terminal := by
  simp only [List.mem_cons, List.not_mem_nil, or_false] at kind
  rcases kind with rfl | rfl | rfl | rfl <;> exact ⟨_, rfl, rfl⟩

private theorem boundary_print {first : Printed} {rest : List Printed} (apart : Apart (first :: rest))
    (number : first.glyph.token.terminal = .number) (after : List Filler) :
    ∀ c ∈ (print rest after).head?, c.isDigit = false := by
  cases rest with
  | nil =>
    have alone := boundary_layout after [] (fun _ => by simp)
    rwa [List.append_nil] at alone
  | cons second rest =>
    have distant := (List.isChain_cons_cons.mp apart).1 number
    refine boundary_layout _ _ fun close => ?_
    obtain ⟨before, glyph⟩ := second
    cases glyph with
    | number zeros value natural => exact absurd close (distant rfl)
    | mark terminal kind =>
      obtain ⟨c, symbol, which⟩ := exists_symbol kind
      simp [Glyph.text, symbol, (solid_of_punctuation which).2.2]

private theorem scanFrom_glyph (glyph : Glyph) (p : Position) {rest : List Char}
    (boundary : glyph.token.terminal = .number → ∀ c ∈ rest.head?, c.isDigit = false) (fuel : Nat) :
    ∃ token : Lexeme, token.unplaced = glyph.token ∧ scanFrom (fuel + 1) p (glyph.text ++ rest) =
      .ok token :: scanFrom fuel (p.after glyph.text) rest := by
  cases glyph with
  | number zeros value natural =>
    have cut := cut_padded natural zeros (boundary rfl)
    have read := read_eq_ok cut.1 cut.2.1 (ofDigitChars_padded natural zeros)
    let span : Span := ⟨p, p.after (Glyph.number zeros value natural).text⟩
    refine ⟨{ terminal := .number, payload := .number value, span }, rfl, ?_⟩
    rw [Glyph.text, scanFrom_number cut, read]
    rfl
  | mark terminal kind =>
    obtain ⟨c, symbol, which⟩ := exists_symbol kind
    refine ⟨{ terminal, span := some ⟨p, p.next c⟩ }, rfl, ?_⟩
    rw [Glyph.text, symbol]
    exact scanFrom_punctuation which fuel

private theorem length_text_pos (glyph : Glyph) : 0 < glyph.text.length := by
  cases glyph with
  | number zeros value natural =>
    have cut : Pattern.number.Cut (Glyph.number zeros value natural).text [] :=
      cut_padded natural zeros (by simp)
    exact List.length_pos_iff.mpr cut.1
  | mark terminal kind =>
    obtain ⟨c, symbol, -⟩ := exists_symbol kind
    simp [Glyph.text, symbol]

theorem scanFrom_print {printed : List Printed} (apart : Apart printed) (after : List Filler)
    (p : Position) {fuel : Nat} (enough : (print printed after).length < fuel) :
    ∃ tokens : List Lexeme, scanFrom fuel p (print printed after) = tokens.map .ok ∧
      tokens.map Lexeme.unplaced = printed.map (·.glyph.token) ++ [{ terminal := .endOfInput }] := by
  induction printed generalizing p fuel with
  | nil =>
    obtain ⟨fuel, rfl⟩ := Nat.exists_eq_succ_of_ne_zero (Nat.ne_zero_of_lt enough)
    let stop := p.after (layout after)
    refine ⟨[{ terminal := .endOfInput, span := some ⟨stop, stop⟩ }], ?_, rfl⟩
    rw [print, ← List.append_nil (layout after), scanFrom_layout]
    rfl
  | cons first rest ih =>
    have occupied := length_text_pos first.glyph
    rw [print, List.length_append, List.length_append] at enough
    obtain ⟨fuel, rfl⟩ := Nat.exists_eq_succ_of_ne_zero (Nat.ne_zero_of_lt enough)
    obtain ⟨token, same, scanned⟩ := scanFrom_glyph first.glyph (p.after (layout first.before))
      (fun number => boundary_print apart number after) fuel
    obtain ⟨tokens, more, others⟩ := ih apart.tail
      ((p.after (layout first.before)).after first.glyph.text)
      (by omega : (print rest after).length < fuel)
    refine ⟨token :: tokens, ?_, by rw [List.map_cons, List.map_cons, same, others]; rfl⟩
    rw [print, scanFrom_layout, scanned, more]
    rfl

end Print

/-- Tokenizing undoes printing. If there is layout between numbers that follow each other, what is
printed is tokenized to the tokens that were printed and one end token, and these are the answers of a
lexer with a reporting recognizer. -/
theorem tokenize_print {r : Recognizer} (reports : r.Reports) {printed : List Printed}
    (apart : Apart printed) (after : List Filler) :
    ∃ tokens, tokenize (String.ofList (print printed after)) = .ok tokens ∧
      tokens.map Lexeme.unplaced = printed.map (·.glyph.token) ++ [{ terminal := .endOfInput }] ∧
      ∀ count, (Lexer.ofSource (String.ofList (print printed after))).answer r count =
        some (tokens.map Except.ok)[count]? := by
  generalize text : String.ofList (print printed after) = source
  have characters : source.toList = print printed after := text ▸ String.toList_ofList
  have enough : (print printed after).length < source.length + 1 := by
    rw [← characters, String.length_toList]
    exact Nat.lt_succ_self _
  obtain ⟨tokens, scanned, same⟩ := scanFrom_print apart after .origin enough
  rw [← characters] at scanned
  obtain ⟨items, listed, answers⟩ := Lexer.exists_items reports [] source.toList
  have scanned' : tokens.map .ok = items := scanned.symm.trans (scan_eq_of_items listed)
  exact ⟨tokens, tokenize_of_scan scanned, same, scanned' ▸ answers⟩

theorem tokenize_print_commented : ByteReader.recognizer.Reports ∧ ∃ printed after,
    Apart printed ∧
      print printed after = "(007# é + 1*\n9223372036854775807*\t# end\n".toList ∧
      ∃ tokens, tokenize "(007# é + 1*\n9223372036854775807*\t# end\n" = .ok tokens ∧
        tokens.map Lexeme.unplaced = [⟨.leftParen, .empty, none⟩, ⟨.number, .number 7, none⟩,
          ⟨.number, .number 9223372036854775807, none⟩, ⟨.star, .empty, none⟩,
          ⟨.endOfInput, .empty, none⟩] ∧
        ∀ count, (Lexer.ofSource "(007# é + 1*\n9223372036854775807*\t# end\n").answer
          ByteReader.recognizer count = some (tokens.map Except.ok)[count]? := by
  let printed : List Printed := [⟨[], .mark .leftParen (by decide)⟩, ⟨[], .number 2 7 (by decide)⟩,
    ⟨[.comment " é + 1*".toList (by decide)], .number 0 9223372036854775807 (by decide)⟩,
    ⟨[], .mark .star (by decide)⟩]
  let after : List Filler := [.blank '\t' rfl, .comment " end".toList (by decide)]
  have apart : Apart printed := by
    simp [Apart, printed, Glyph.token]
  have text : print printed after = "(007# é + 1*\n9223372036854775807*\t# end\n".toList := by
    decide +kernel
  have undone := tokenize_print ByteReader.reports apart after
  rw [text, String.ofList_toList] at undone
  exact ⟨ByteReader.reports, printed, after, apart, text, undone⟩

end GeneralizedLR.Arithmetic
