import GeneralizedLR.Proofs.Arithmetic.Terms
import GeneralizedLR.Proofs.Arithmetic.Transitions
import GeneralizedLR.Proofs.Engine.Reading

/-!
What a parser of arithmetic makes of a term. A term is readable where the table leads through its tokens
and reduces them as the term is grouped. Reading it puts its value on the stack, be it the term itself
or the expression that it stands for.
-/

set_option autoImplicit false
set_option relaxedAutoImplicit false

namespace GeneralizedLR.Arithmetic

def numberToken (value : Int64) (span : Option Span) : Lexeme :=
  { terminal := .number, payload := .number value, span }

/-- A parser of arithmetic whose actions give every term its value. -/
structure Denotes (g : Grouping) {V : Type} (p : Parser Lexeme V) (denote : Term → V) : Prop where
  grouped : p.table = table g
  start : ∀ t lookahead, p.reducer Rule.start.index [.reduced (denote t)] lookahead = denote t
  sum : ∀ left operator right lookahead, p.reducer Rule.add.index
    [.reduced (denote left), .lexeme (operator.token .plus), .reduced (denote right)] lookahead =
      denote (.sum left operator right)
  product : ∀ left operator right lookahead, p.reducer Rule.mul.index
    [.reduced (denote left), .lexeme (operator.token .star), .reduced (denote right)] lookahead =
      denote (.product left operator right)
  group : ∀ opening inner closing lookahead, p.reducer Rule.paren.index
    [.lexeme (opening.token .leftParen), .reduced (denote inner),
      .lexeme (closing.token .rightParen)] lookahead = denote (.group opening inner closing)
  number : ∀ value span lookahead, p.reducer Rule.number.index
    [.lexeme (numberToken value span)] lookahead = denote (.number value span)

/-- Behind the state and before the terminal, the table reads a term as it is grouped. -/
inductive Term.Readable (g : Grouping) : Nat → Terminal → Term → Prop
  | number {state : Nat} {next : Terminal} {value : Int64} {span : Option Span} :
      (table g).reduces 1 next.index = [Rule.number.index] →
        Term.Readable g state next (.number value span)
  | sum {state : Nat} {next : Terminal} {left right : Term} {operator : Mark} :
      Term.Readable g state .plus left →
        (table g).shifts (behind state) Terminal.plus.index = [5] →
          (table g).reduces (behind state) Terminal.plus.index = [] → Term.Readable g 5 next right →
            (table g).reduces 8 next.index = [Rule.add.index] →
              Term.Readable g state next (.sum left operator right)
  | product {state : Nat} {next : Terminal} {left right : Term} {operator : Mark} :
      Term.Readable g state .star left →
        (table g).shifts (behind state) Terminal.star.index = [6] →
          (table g).reduces (behind state) Terminal.star.index = [] → Term.Readable g 6 next right →
            (table g).reduces 9 next.index = [Rule.mul.index] →
              Term.Readable g state next (.product left operator right)
  | group {state : Nat} {next : Terminal} {opening closing : Mark} {inner : Term} :
      Term.Readable g 2 .rightParen inner → (table g).reduces 7 next.index = [Rule.paren.index] →
        Term.Readable g state next (.group opening inner closing)

section Readable

variable {g : Grouping} {V : Type} {p : Parser Lexeme V} {denote : Term → V}

private theorem hurries_operator (grouped : p.table = table g)
    {stack : List (Frame Lexeme V)} (operand : Frame.top stack ∈ [0, 2, 5, 6])
    {operator next : Lexeme} {target number : Nat} {left right : List Lexeme} {l r v : V}
    (before : p.Hurries left operator stack (⟨behind (Frame.top stack), .reduced l⟩ :: stack))
    (goes : (table g).shifts (behind (Frame.top stack)) operator.terminal.index = [target])
    (stays : (table g).reduces (behind (Frame.top stack)) operator.terminal.index = [])
    (after : p.Hurries right next
      (⟨target, .lexeme operator⟩ :: ⟨behind (Frame.top stack), .reduced l⟩ :: stack)
      (⟨behind target, .reduced r⟩ :: ⟨target, .lexeme operator⟩ ::
        ⟨behind (Frame.top stack), .reduced l⟩ :: stack))
    (reduces : (table g).reduces (behind target) next.terminal.index = [number])
    (listed : (table g).production? number = some ⟨expression, 3, false⟩)
    (yields : p.reducer number [.reduced l, .lexeme operator, .reduced r] next = v) :
    p.Hurries (left ++ operator :: right) next stack
      (⟨behind (Frame.top stack), .reduced v⟩ :: stack) := by
  have shifted : p.targets operator (⟨behind (Frame.top stack), .reduced l⟩ :: stack) = [target] :=
    (targets_eq grouped operator _).trans goes
  have settled : p.rules operator (⟨behind (Frame.top stack), .reduced l⟩ :: stack) = [] :=
    (rules_eq grouped operator _).trans stays
  have reduced := reduct_expression grouped next [⟨behind target, .reduced r⟩,
    ⟨target, .lexeme operator⟩, ⟨behind (Frame.top stack), .reduced l⟩] listed operand yields
  exact (before.shift shifted settled after).reduce ((rules_eq grouped next _).trans reduces) reduced

theorem Denotes.hurries (denotes : Denotes g p denote) {t : Term} (stack : List (Frame Lexeme V))
    (next : Lexeme) (operand : Frame.top stack ∈ [0, 2, 5, 6])
    (readable : t.Readable g (Frame.top stack) next.terminal) :
    p.Hurries t.yield next stack (⟨behind (Frame.top stack), .reduced (denote t)⟩ :: stack) := by
  -- The next token decides when an operand is reduced, so it must stay general: behind the left
  -- operand it is the operator, behind the right one whatever follows the whole term.
  have grouped := denotes.grouped
  induction t generalizing stack next with
  | number value span =>
    cases readable with
    | number reduces =>
      have shifted : p.targets (numberToken value span) stack = [1] :=
        (targets_eq grouped _ stack).trans (shifts_operand g operand .number)
      have settled : p.rules (numberToken value span) stack = [] :=
        (rules_eq grouped _ stack).trans (reduces_operand g operand .number)
      have reduced := reduct_expression grouped next [⟨1, .lexeme (numberToken value span)⟩]
        (production?_eq g 4) operand (denotes.number value span next)
      exact ((Parser.Hurries.nil p _ stack).shift shifted settled (.nil p next _)).reduce
        ((rules_eq grouped next _).trans reduces) reduced
  | sum left operator right ihl ihr =>
    cases readable with
    | sum first goes stays second reduces =>
      have before := ihl stack (operator.token .plus) operand first
      have after := ihr (⟨5, .lexeme (operator.token .plus)⟩ ::
        ⟨behind (Frame.top stack), .reduced (denote left)⟩ :: stack) next (by simp [Frame.top]) second
      exact hurries_operator grouped operand before goes stays after reduces (production?_eq g 1)
        (denotes.sum left operator right next)
  | product left operator right ihl ihr =>
    cases readable with
    | product first goes stays second reduces =>
      have before := ihl stack (operator.token .star) operand first
      have after := ihr (⟨6, .lexeme (operator.token .star)⟩ ::
        ⟨behind (Frame.top stack), .reduced (denote left)⟩ :: stack) next (by simp [Frame.top]) second
      exact hurries_operator grouped operand before goes stays after reduces (production?_eq g 2)
        (denotes.product left operator right next)
  | group opening inner closing ih =>
    cases readable with
    | group whole reduces =>
      let opener := opening.token .leftParen
      let close := closing.token .rightParen
      have opened : p.targets opener stack = [2] :=
        (targets_eq grouped _ stack).trans (shifts_operand g operand .leftParen)
      have settled : p.rules opener stack = [] :=
        (rules_eq grouped _ stack).trans (reduces_operand g operand .leftParen)
      have within : p.Hurries inner.yield close (⟨2, .lexeme opener⟩ :: stack)
          (⟨4, .reduced (denote inner)⟩ :: ⟨2, .lexeme opener⟩ :: stack) :=
        ih (⟨2, .lexeme opener⟩ :: stack) close (by simp [Frame.top]) whole
      have closed : p.targets close (⟨4, .reduced (denote inner)⟩ :: ⟨2, .lexeme opener⟩ :: stack) =
          [7] := (targets_eq grouped _ _).trans (by cases g <;> rfl)
      have settled' : p.rules close (⟨4, .reduced (denote inner)⟩ :: ⟨2, .lexeme opener⟩ :: stack) =
          [] := (rules_eq grouped _ _).trans (by cases g <;> rfl)
      have reduced := reduct_expression grouped next [⟨7, .lexeme close⟩, ⟨4, .reduced (denote inner)⟩,
        ⟨2, .lexeme opener⟩] (production?_eq g 3) operand (denotes.group opening inner closing next)
      exact ((Parser.Hurries.nil p _ stack).shift opened settled
        (within.shift closed settled' (.nil p next _))).reduce
          ((rules_eq grouped next _).trans reduces) reduced

end Readable

def Term.build : Reducer Lexeme Term := fun number values _ =>
  match Rule.ofIndex? number, values with
  | some .start, [.reduced t] => t
  | some .add, [.reduced left, .lexeme operator, .reduced right] =>
    .sum left ⟨operator.payload, operator.span⟩ right
  | some .mul, [.reduced left, .lexeme operator, .reduced right] =>
    .product left ⟨operator.payload, operator.span⟩ right
  | some .paren, [.lexeme opening, .reduced inner, .lexeme closing] =>
    .group ⟨opening.payload, opening.span⟩ inner ⟨closing.payload, closing.span⟩
  | some .number, [.lexeme ⟨_, .number value, span⟩] => .number value span
  | _, _ => .number 0 none

theorem Term.denotes_build {g : Grouping} :
    Denotes g { table := table g, reducer := Term.build } (id : Term → Term) where
  grouped := rfl
  start _ _ := rfl
  sum _ _ _ _ := rfl
  product _ _ _ _ := rfl
  group _ _ _ _ := rfl
  number _ _ _ := rfl

def Term.expr : Term → Expr
  | .number value span => ⟨Number.decimal value, some value, span⟩
  | .sum left _ right => left.expr.add right.expr
  | .product left _ right => left.expr.mul right.expr
  | .group opening inner closing =>
    { inner.expr with span := Span.mergeKnown opening.span closing.span }

theorem Term.denotes_expr {g : Grouping} (codes : ErrorCodes) :
    Denotes g (parser g codes) Term.expr where
  grouped := rfl
  start _ _ := rfl
  sum _ _ _ _ := rfl
  product _ _ _ _ := rfl
  group _ _ _ _ := rfl
  number _ _ _ := rfl

/-- The text of an expression has no parentheses but those around its operators. -/
theorem Term.text_expr (t : Term) : t.expr.text = t.render := by
  induction t with
  | number => rfl
  | sum left operator right l r => simp [expr, render, Expr.add, Expr.binary, l, r]
  | product left operator right l r => simp [expr, render, Expr.mul, Expr.binary, l, r]
  | group opening inner closing ih => exact ih

theorem Term.value_expr (t : Term) : t.expr.value = t.eval := by
  induction t with
  | number => rfl
  | sum left operator right l r => simp [expr, eval, Expr.add, Expr.binary, l, r]
  | product left operator right l r => simp [expr, eval, Expr.mul, Expr.binary, l, r]
  | group opening inner closing ih => exact ih

end GeneralizedLR.Arithmetic
