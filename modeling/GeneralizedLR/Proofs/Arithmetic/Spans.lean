import GeneralizedLR.Proofs.Arithmetic.Language
import GeneralizedLR.Proofs.Arithmetic.Lexer

/-!
Where expressions stand. The tokens of a source have spans one behind the other, whatever layout is
between them. So an expression, which is given the span that covers those of its parts, runs from the
start of its first token to the stop of its last one, however its operators are grouped.
-/

set_option autoImplicit false
set_option relaxedAutoImplicit false

namespace GeneralizedLR.Arithmetic

section Order

/-- From a position on, the spans of the tokens are one behind the other. -/
def InOrder : Position → List Lexeme → Prop
  | _, [] => True
  | p, token :: rest => ∃ span, token.span = some span ∧ p ≤ span.start ∧ span.start ≤ span.stop ∧
      InOrder span.stop rest

theorem InOrder.mono {p q : Position} {tokens : List Lexeme} (ordered : InOrder q tokens)
    (earlier : p ≤ q) : InOrder p tokens := by
  cases tokens with
  | nil => trivial
  | cons token rest =>
    obtain ⟨span, known, start, more⟩ := ordered
    exact ⟨span, known, Position.le_trans earlier start, more⟩

private theorem place_le (passed piece : List Char) : place passed ≤ place (passed ++ piece) :=
  place_append passed piece ▸ (place passed).le_after piece

theorem Items.inOrder {passed rest : List Char} {items : List Scanned} (listed : Items passed rest items)
    {tokens : List Lexeme} (all : items = tokens.map .ok) : InOrder (place passed) tokens := by
  induction listed generalizing tokens with
  | finish passed =>
    obtain ⟨token, rfl, item⟩ := List.map_eq_singleton_iff.mp all.symm
    cases item
    exact ⟨_, rfl, Position.le_refl _, Position.le_refl _, trivial⟩
  | layout _ _ _ ih => exact (ih all).mono (place_le ..)
  | number _ _ _ ih =>
    obtain ⟨token, others, rfl, item, behind⟩ := List.map_eq_cons_iff.mp all.symm
    cases item
    exact ⟨_, rfl, Position.le_refl _, place_le .., ih behind.symm⟩
  | tooLarge =>
    obtain ⟨token, -, item⟩ := List.map_eq_singleton_iff.mp all.symm
    cases item
  | punctuation _ _ ih =>
    obtain ⟨token, others, rfl, item, behind⟩ := List.map_eq_cons_iff.mp all.symm
    cases item
    exact ⟨_, rfl, Position.le_refl _, place_le .., ih behind.symm⟩
  | stray =>
    obtain ⟨token, -, item⟩ := List.map_eq_singleton_iff.mp all.symm
    cases item

end Order

section Bounds

/-- The span runs from the start of the first token to the stop of the last one. -/
structure Bounds (tokens : List Lexeme) (span : Span) : Prop where
  first : ∃ token opening, tokens.head? = some token ∧ token.span = some opening ∧
    opening.start = span.start
  last : ∃ token closing, tokens.getLast? = some token ∧ token.span = some closing ∧
    closing.stop = span.stop

theorem bounds_singleton {token : Lexeme} {span : Span} (known : token.span = some span) :
    Bounds [token] span :=
  ⟨⟨token, span, rfl, known, rfl⟩, ⟨token, span, rfl, known, rfl⟩⟩

theorem Bounds.append {left right : List Lexeme} {a b : Span} (first : Bounds left a)
    (last : Bounds right b) (middle : List Lexeme) :
    Bounds (left ++ middle ++ right) ⟨a.start, b.stop⟩ := by
  obtain ⟨⟨token, opening, head, known, start⟩, -⟩ := first
  obtain ⟨-, ⟨token', closing, foot, known', stop⟩⟩ := last
  exact ⟨⟨token, opening, by simp [head], known, start⟩, ⟨token', closing, by simp [foot], known', stop⟩⟩

/-- From a position on and in front of other tokens, the tokens take up the span. -/
structure Spanned (p : Position) (tokens rest : List Lexeme) (span : Span) : Prop where
  bounds : Bounds tokens span
  start : p ≤ span.start
  forward : span.start ≤ span.stop
  behind : InOrder span.stop rest

theorem exists_spanned_head {p : Position} {token : Lexeme} {rest : List Lexeme}
    (ordered : InOrder p (token :: rest)) :
    ∃ span, token.span = some span ∧ Spanned p [token] rest span := by
  obtain ⟨span, known, start, forward, more⟩ := ordered
  exact ⟨span, known, bounds_singleton known, start, forward, more⟩

theorem Spanned.append {p q : Position} {left right ahead rest : List Lexeme} {a b : Span}
    (first : Spanned p left ahead a) (last : Spanned q right rest b) (between : a.stop ≤ b.start)
    (middle : List Lexeme) : Spanned p (left ++ middle ++ right) rest (a.merge b) := by
  have starts : a.start ≤ b.start := Position.le_trans first.forward between
  have stops : a.stop ≤ b.stop := Position.le_trans between last.forward
  rw [Span.merge_eq starts stops]
  exact ⟨first.bounds.append last.bounds middle, first.start, Position.le_trans starts last.forward,
    last.behind⟩

end Bounds

section Terms

private theorem exists_spanned_binary {p : Position} {left right rest : List Lexeme}
    {operator : Lexeme} {a : Span} {leftSpan rightSpan : Option Span} (known : leftSpan = some a)
    (first : Spanned p left (operator :: (right ++ rest)) a)
    (last : ∀ q, InOrder q (right ++ rest) →
      ∃ b, rightSpan = some b ∧ Spanned q right rest b) :
    ∃ span, Span.mergeKnown leftSpan rightSpan = some span ∧
      Spanned p (left ++ operator :: right) rest span := by
  obtain ⟨o, -, middle⟩ := exists_spanned_head first.behind
  obtain ⟨b, rfl, second⟩ := last o.stop middle.behind
  subst known
  have between : a.stop ≤ b.start :=
    Position.le_trans middle.start (Position.le_trans middle.forward second.start)
  exact ⟨a.merge b, rfl, by simpa using first.append second between [operator]⟩

theorem Term.exists_spanned (t : Term) {p : Position} {rest : List Lexeme}
    (ordered : InOrder p (t.yield ++ rest)) :
    ∃ span, t.expr.span = some span ∧ Spanned p t.yield rest span := by
  induction t generalizing p rest with
  | number value span => exact exists_spanned_head ordered
  | sum left operator right l r =>
    rw [yield, List.append_assoc, List.cons_append] at ordered
    obtain ⟨a, known, first⟩ := l ordered
    exact exists_spanned_binary known first fun _ => r
  | product left operator right l r =>
    rw [yield, List.append_assoc, List.cons_append] at ordered
    obtain ⟨a, known, first⟩ := l ordered
    exact exists_spanned_binary known first fun _ => r
  | group opening inner closing ih =>
    rw [yield, List.cons_append, List.append_assoc, List.singleton_append] at ordered
    obtain ⟨o, opens, first⟩ := exists_spanned_head ordered
    obtain ⟨span, -, within⟩ := ih first.behind
    obtain ⟨c, closes, last⟩ := exists_spanned_head within.behind
    have whole : Span.mergeKnown opening.span closing.span = some (o.merge c) := by
      rw [show opening.span = some o from opens, show closing.span = some c from closes]
      rfl
    have between : o.stop ≤ c.start :=
      Position.le_trans within.start (Position.le_trans within.forward last.start)
    exact ⟨o.merge c, whole, first.append last between inner.yield⟩

end Terms

/-- A source whose tokens form a sentence is evaluated, nothing is reported, and the expression runs
from the start of the first token to the stop of the last one in front of the end. -/
theorem evaluate_span (g : Grouping) (codes : ErrorCodes) {source : String} {tokens : List Lexeme}
    {last : Lexeme} (scanned : tokenize source = .ok (tokens ++ [last]))
    (derives : Sentence (terminals tokens)) :
    ∃ found span, evaluate g codes source = .ok found ∧ found.diagnostics = [] ∧
      found.expr.span = some span ∧ Bounds tokens span := by
  obtain ⟨front, final, split, ends, others⟩ := exists_concat_of_tokenize scanned
  obtain ⟨rfl, rfl⟩ := List.concat_inj.mp (by simpa using split)
  obtain ⟨t, rfl⟩ := derives.exists_yield fun token member => (others token member).2
  obtain ⟨stats, evaluated⟩ := t.exists_evaluation_grouped g codes scanned ends
  have ordered : InOrder .origin ((t.grouped g).yield ++ [last]) :=
    t.yield_grouped g ▸ (items_scan source).inOrder (tokenize_eq_ok scanned)
  obtain ⟨span, known, spanned⟩ := (t.grouped g).exists_spanned ordered
  exact ⟨_, span, evaluated, rfl, known, t.yield_grouped g ▸ spanned.bounds⟩

theorem evaluate_span_lines : ∃ tokens last found,
    tokenize " (1 +\n2) # end" = .ok (tokens ++ [last]) ∧ Sentence (terminals tokens) ∧
      evaluate .precedence {} " (1 +\n2) # end" = .ok found ∧ found.diagnostics = [] ∧
        found.expr.span = some ⟨⟨0, 1⟩, ⟨1, 2⟩⟩ := by
  let opening : Lexeme := ⟨.leftParen, .empty, some ⟨⟨0, 1⟩, ⟨0, 2⟩⟩⟩
  let closing : Lexeme := ⟨.rightParen, .empty, some ⟨⟨1, 1⟩, ⟨1, 2⟩⟩⟩
  let tokens : List Lexeme := [opening, ⟨.number, .number 1, some ⟨⟨0, 2⟩, ⟨0, 3⟩⟩⟩,
    ⟨.plus, .empty, some ⟨⟨0, 4⟩, ⟨0, 5⟩⟩⟩, ⟨.number, .number 2, some ⟨⟨1, 0⟩, ⟨1, 1⟩⟩⟩, closing]
  have scanned : tokenize " (1 +\n2) # end" =
      .ok (tokens ++ [⟨.endOfInput, .empty, some ⟨⟨1, 8⟩, ⟨1, 8⟩⟩⟩]) := rfl
  have derives : Sentence (terminals tokens) := .group (.sum .number .number)
  obtain ⟨found, span, evaluated, clean, known, bounds⟩ :=
    evaluate_span .precedence {} scanned derives
  refine ⟨tokens, _, found, scanned, derives, evaluated, clean, known.trans (congrArg some ?_)⟩
  obtain ⟨⟨token, _, head, opens, start⟩, ⟨token', _, foot, closes, stop⟩⟩ := bounds
  obtain rfl : opening = token := Option.some.inj head
  obtain rfl : closing = token' := Option.some.inj foot
  cases opens
  cases closes
  rw [show span = ⟨span.start, span.stop⟩ from rfl, ← start, ← stop]

end GeneralizedLR.Arithmetic
