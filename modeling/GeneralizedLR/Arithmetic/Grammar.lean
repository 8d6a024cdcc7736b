import GeneralizedLR.Actions
import GeneralizedLR.Arithmetic.Lexeme

/-!
The grammar of arithmetic as an automaton, and the values of its productions.

The states are named by what lies on top of the stack. An operand is expected at the start, behind
an opening parenthesis and behind an operator; an operator may follow a complete expression. Where
an expression could either be reduced or go on with an operator, the ambiguous table lists both; the
table with precedence lists only the one that lets products bind tighter than sums and groups both
to the left.
-/

set_option autoImplicit false
set_option relaxedAutoImplicit false

namespace GeneralizedLR.Arithmetic

/-- How the conflicts between operators are settled. -/
inductive Grouping where
  /-- Every grouping is followed. -/
  | ambiguous
  /-- Products bind tighter than sums, and both group to the left. -/
  | precedence
  deriving DecidableEq, Inhabited

def Grouping.standard : Grouping := .precedence

inductive Rule where
  | start
  | add
  | mul
  | paren
  | number
  deriving DecidableEq

namespace Rule

def all : List Rule := [.start, .add, .mul, .paren, .number]

def index : Rule → Nat
  | .start => 0
  | .add => 1
  | .mul => 2
  | .paren => 3
  | .number => 4

def ofIndex? (index : Nat) : Option Rule := all[index]?

theorem ofIndex?_index (r : Rule) : ofIndex? r.index = some r := by
  cases r <;> rfl

end Rule

def expression : Nat := 0

def parsed : Nat := 1

/-- The automaton with its terminals and productions, but without transitions. -/
def emptyTable : Table where
  descriptions := Terminal.all.map Terminal.description
  endOfStream := Terminal.endOfInput.index
  productions :=
    [⟨parsed, 1, true⟩, ⟨expression, 3, false⟩, ⟨expression, 3, false⟩, ⟨expression, 3, false⟩,
     ⟨expression, 1, false⟩]

/-- The states where an operand is expected, each with the state behind the operand. -/
def operandStates : List (Nat × Nat) := [(0, 3), (2, 4), (5, 8), (6, 9)]

/-- In an operand state a number or an opening parenthesis may come. -/
def addOperand (t : Table) (states : Nat × Nat) : Table :=
  let t := t.addShift states.1 Terminal.number.index 1
  let t := t.addShift states.1 Terminal.leftParen.index 2
  t.setGoto states.1 expression states.2

/-- The states behind a complete expression, with the operators and the states they lead to. -/
def operatorShifts : List (Nat × Terminal × Nat) :=
  [3, 4, 8, 9].flatMap fun state => [(state, .plus, 5), (state, .star, 6)]

/-- With precedence, neither a sum before `+` nor a product before any operator goes on. -/
def onlyReduces (state : Nat) (operator : Terminal) : Bool :=
  state == 9 || (state == 8 && operator == .plus)

def lookaheads : List Terminal := [.plus, .star, .rightParen, .endOfInput]

/-- The reductions of a complete expression before a token; with precedence, a sum before `*` goes
on. -/
def addReductions (grouping : Grouping) (t : Table) (lookahead : Terminal) : Table :=
  let t := t.addReduce 1 lookahead.index Rule.number.index
  let t := t.addReduce 7 lookahead.index Rule.paren.index
  let t := t.addReduce 9 lookahead.index Rule.mul.index
  if grouping = .precedence ∧ lookahead = .star then t
  else t.addReduce 8 lookahead.index Rule.add.index

def table (grouping : Grouping) : Table :=
  let t := operandStates.foldl addOperand emptyTable
  let shifts := operatorShifts.filter fun (state, operator, _) =>
    !(grouping == .precedence && onlyReduces state operator)
  let t := shifts.foldl
    (fun t (state, operator, target) => t.addShift state operator.index target) t
  let t := t.addReduce 3 Terminal.endOfInput.index Rule.start.index
  let t := t.addShift 4 Terminal.rightParen.index 7
  lookaheads.foldl (addReductions grouping) t

structure Expr where
  /-- The expression with all its parentheses; an operand that a repair inserted is a question mark.
  -/
  text : String
  /-- Absent if an operand is, or if a result does not fit into 64 bits. -/
  value : Option Int64
  span : Option Span
  deriving DecidableEq

namespace Expr

def unknown (span : Option Span) : Expr := ⟨"?", none, span⟩

/-- A value as an operand; a bare token is an unknown one. -/
def ofContent : Content Lexeme Expr → Expr
  | .reduced expr => expr
  | .lexeme lexeme => unknown lexeme.span

def spanOf : Content Lexeme Expr → Option Span
  | .reduced expr => expr.span
  | .lexeme lexeme => lexeme.span

def binary (symbol : String) (apply : Int64 → Int64 → Option Int64) (left right : Expr) :
    Expr where
  text := "(" ++ left.text ++ symbol ++ right.text ++ ")"
  value := left.value.bind fun l => right.value.bind fun r => apply l r
  span := Span.mergeKnown left.span right.span

def add : Expr → Expr → Expr := binary "+" Number.add?

def mul : Expr → Expr → Expr := binary "*" Number.mul?

def ofNumber (lexeme : Lexeme) : Expr :=
  match lexeme.payload with
  | .number value => ⟨Number.decimal value, some value, lexeme.span⟩
  | _ => unknown lexeme.span

/-- The first value of a number production, if it is a token, gives the expression. -/
def ofDigits (values : List (Content Lexeme Expr)) : Expr :=
  match values.head?.bind Content.lexeme? with
  | some lexeme => ofNumber lexeme
  | none => unknown none

end Expr

/-- The value of a production, if there are as many values as it reads. -/
def Rule.value? (values : List (Content Lexeme Expr)) : Rule → Option Expr
  | .start => values[0]?.map Expr.ofContent
  | .add => do return (Expr.ofContent (← values[0]?)).add (Expr.ofContent (← values[2]?))
  | .mul => do return (Expr.ofContent (← values[0]?)).mul (Expr.ofContent (← values[2]?))
  | .paren => do
    let left ← values[0]?
    let right ← values[2]?
    let inner ← values[1]?
    let span := Span.mergeKnown (Expr.spanOf left) (Expr.spanOf right)
    return { Expr.ofContent inner with span }
  | .number => some (Expr.ofDigits values)

/-- The value of the production with a number; a number without a production gives an unknown
expression at the lookahead. -/
def value? (production : Nat) (values : List (Content Lexeme Expr)) (lookahead : Lexeme) :
    Option Expr :=
  match Rule.ofIndex? production with
  | some rule => rule.value? values
  | none => some (.unknown lookahead.span)

/-- The semantic actions of arithmetic. The table takes as many values as the actions read. -/
def reducer : Reducer Lexeme Expr := fun production values lookahead =>
  (value? production values lookahead).getD (.unknown lookahead.span)

end GeneralizedLR.Arithmetic
