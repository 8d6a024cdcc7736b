import GeneralizedLR.Proofs.Arithmetic.Composition
import GeneralizedLR.Proofs.Engine.Throughout
import GeneralizedLR.Proofs.Head.Reduction

/-!
Text and value of an expression. Both are read off one formula: the text renders it, and the value is
what it evaluates to in 64 bits, absent exactly if a leaf is unknown or an operation overflows. This is
so of every expression in the arena, with repairs or without, between calls and within, since every
reduction takes what the action of its production reads.
-/

set_option autoImplicit false
set_option relaxedAutoImplicit false

namespace GeneralizedLR.Arithmetic

inductive Operation where
  | sum
  | product

namespace Operation

def symbol : Operation → String
  | sum => "+"
  | product => "*"

def exact : Operation → Int → Int → Int
  | sum => (· + ·)
  | product => (· * ·)

end Operation

/-- A formula of sums and products; a leaf without a number is unknown. -/
inductive Formula where
  | leaf (value : Option Int64)
  | node (operation : Operation) (left right : Formula)

namespace Formula

/-- The formula with parentheses around every operation, and a question mark for an unknown leaf. -/
def render : Formula → String
  | leaf none => "?"
  | leaf (some value) => Number.decimal value
  | node operation left right => "(" ++ left.render ++ operation.symbol ++ right.render ++ ")"

/-- The value, if every leaf is known and every operation fits into 64 bits. -/
def eval : Formula → Option Int64
  | leaf value => value
  | node operation left right =>
    left.eval.bind fun l => right.eval.bind fun r =>
      Number.ofInt? (operation.exact l.toInt r.toInt)

def HasUnknown : Formula → Prop
  | leaf value => value = none
  | node _ left right => left.HasUnknown ∨ right.HasUnknown

/-- Some operation has two values for which the exact result does not fit into 64 bits. -/
def Overflows : Formula → Prop
  | leaf _ => False
  | node operation left right => left.Overflows ∨ right.Overflows ∨
    ∃ l r, left.eval = some l ∧ right.eval = some r ∧
      ¬ (Int64.minValue.toInt ≤ operation.exact l.toInt r.toInt ∧
        operation.exact l.toInt r.toInt ≤ Int64.maxValue.toInt)

private theorem bind_bind_eq_none_iff {x y : Option Int64} {apply : Int64 → Int64 → Option Int64} :
    (x.bind fun l => y.bind fun r => apply l r) = none ↔
      x = none ∨ y = none ∨ ∃ l r, x = some l ∧ y = some r ∧ apply l r = none := by
  cases x <;> cases y <;> simp

theorem eval_eq_none_iff (f : Formula) : f.eval = none ↔ f.HasUnknown ∨ f.Overflows := by
  induction f with
  | leaf value => simp [eval, HasUnknown, Overflows]
  | node operation left right ihl ihr =>
    rw [eval, bind_bind_eq_none_iff, ihl, ihr]
    simp only [Number.ofInt?_eq_none_iff, HasUnknown, Overflows, or_assoc, or_left_comm]

end Formula

/-- Text and value of the expression are those of the formula. -/
structure Expr.Agrees (expr : Expr) (f : Formula) : Prop where
  text : expr.text = f.render
  value : expr.value = f.eval
  absent : expr.value = none ↔ f.HasUnknown ∨ f.Overflows

namespace Expr

variable {expr left right : Expr} {f f' : Formula}

theorem agrees_of_eval (text : expr.text = f.render) (value : expr.value = f.eval) : expr.Agrees f :=
  ⟨text, value, value ▸ f.eval_eq_none_iff⟩

/-- Operands that agree with formulas, joined by an operation, agree with the formula of that. -/
theorem Agrees.binary (operation : Operation) (first : left.Agrees f) (second : right.Agrees f') :
    (Expr.binary operation.symbol (fun l r => Number.ofInt? (operation.exact l.toInt r.toInt))
      left right).Agrees (.node operation f f') := by
  apply agrees_of_eval
  · simp only [Expr.binary, first.text, second.text, Formula.render]
  · simp only [Expr.binary, first.value, second.value, Formula.eval]

theorem exists_agrees_ofNumber (token : Lexeme) : ∃ f, (ofNumber token).Agrees f := by
  unfold ofNumber
  split
  · next value _ => exact ⟨.leaf (some value), agrees_of_eval rfl rfl⟩
  · exact ⟨.leaf none, agrees_of_eval rfl rfl⟩

theorem ComposedOf.exists_agrees {tokens : List Lexeme} (composed : expr.ComposedOf tokens) :
    ∃ f, expr.Agrees f := by
  induction composed with
  | number => exact exists_agrees_ofNumber _
  | sum _ _ _ left right =>
    obtain ⟨f, first⟩ := left
    obtain ⟨f', second⟩ := right
    exact ⟨_, first.binary .sum second⟩
  | product _ _ _ left right =>
    obtain ⟨f, first⟩ := left
    obtain ⟨f', second⟩ := right
    exact ⟨_, first.binary .product second⟩
  | group _ _ _ inner =>
    obtain ⟨f, agrees⟩ := inner
    exact ⟨f, { agrees with }⟩

end Expr

def Agreeing (a : Arena Lexeme Expr) : Prop :=
  ∀ id node expr, a.node? id = some node → node.value = some (.reduced expr) → ∃ f, expr.Agrees f

theorem Agreeing.push {a : Arena Lexeme Expr} (agreeing : Agreeing a) (tidy : a.Tidy)
    {content : Content Lexeme Expr} (agrees : ∀ expr, content = .reduced expr → ∃ f, expr.Agrees f)
    (state : Nat) (below : Option NodeId) : Agreeing (a.push state (some content) below).1 := by
  intro id node expr filled carried
  by_cases new : id = (a.push state (some content) below).2
  · rw [new, tidy.push_node?_self] at filled
    cases filled
    exact agrees expr (Option.some.inj carried)
  · rw [Arena.push_node?_of_ne new] at filled
    exact agreeing id node expr filled carried

section Stacks

variable {read : List Lexeme} {frames : List (Frame Lexeme Expr)} {expr : Expr}

private theorem Expecting.exists_composed (expecting : Expecting read frames)
    (listed : .reduced expr ∈ frames.map (·.content)) : ∃ tokens, expr.ComposedOf tokens := by
  induction expecting with
  | root => cases listed
  | paren _ _ ih => exact ih (by simpa using listed)
  | operator _ composed _ ih =>
    simp only [List.map_cons, List.mem_cons, reduceCtorEq, false_or, Content.reduced.injEq] at listed
    rcases listed with rfl | listed
    · exact ⟨_, composed⟩
    · exact ih listed

theorem Carries.exists_composed (carries : Carries read frames)
    (listed : .reduced expr ∈ frames.map (·.content)) : ∃ tokens, expr.ComposedOf tokens := by
  cases carries with
  | operand expecting => exact expecting.exists_composed listed
  | number expecting => exact expecting.exists_composed (by simpa using listed)
  | expression expecting composed =>
    simp only [List.map_cons, List.mem_cons, Content.reduced.injEq] at listed
    rcases listed with rfl | listed
    · exact ⟨_, composed⟩
    · exact expecting.exists_composed listed
  | paren expecting _ composed _ =>
    simp only [List.map_cons, List.mem_cons, reduceCtorEq, false_or, Content.reduced.injEq] at listed
    rcases listed with rfl | listed
    · exact ⟨_, composed⟩
    · exact expecting.exists_composed listed

end Stacks

section Runs

variable {g : Grouping} {codes : ErrorCodes} {past : List Lexeme} {e x : Engine Lexeme Expr}
  {token : Lexeme} {h : Head} {production : Nat}

/-- The places of the operands among the values that the action of a production reads. -/
def Rule.operands : Rule → List Nat
  | .start => [0]
  | .add => [0, 2]
  | .mul => [0, 2]
  | .paren => [1]
  | .number => []

/-- The head `h` reduces by the action of `rule`, which finds all the values that it reads, among them
no bare token for an operand, and makes `expr` of them. -/
structure Acts (g : Grouping) (a : Arena Lexeme Expr) (h : Head) (lookahead : Lexeme) (rule : Rule)
    (values : List (Content Lexeme Expr)) (expr : Expr) : Prop where
  taken : ∃ entry base, (table g).production? rule.index = some entry ∧
    a.pop entry.arity h.top = .ok (values, base)
  reads : rule.value? values = some expr
  operands : ∀ i ∈ rule.operands, ∃ operand, values[i]? = some (.reduced operand)
  yields : ∃ r, h.reduction a (table g) reducer rule.index lookahead = .ok r ∧ r.value = expr

theorem Rule.Takes.operands {rule : Rule} {values : List (Content Lexeme Expr)} {tokens : List Lexeme}
    (takes : rule.Takes values tokens) :
    ∀ i ∈ rule.operands, ∃ operand, values[i]? = some (.reduced operand) := by
  cases takes <;> simp [Rule.operands]

theorem Rule.Takes.exists_arity {rule : Rule} {values : List (Content Lexeme Expr)}
    {tokens : List Lexeme} (takes : rule.Takes values tokens) (g : Grouping) :
    ∃ entry, (table g).production? rule.index = some entry ∧ entry.arity = values.length := by
  refine ⟨_, takes.production? g, ?_⟩
  split <;> rfl

theorem Carries.exists_reduction {a : Arena Lexeme Expr} {b : Branch Lexeme Expr} {read : List Lexeme}
    {c : Terminal} (carries : Carries read b.frames) (shown : h.Shown a false b)
    (entry : production ∈ (table g).reduces (Frame.top b.frames) c.index) (lookahead : Lexeme) :
    ∃ r, h.reduction a (table g) reducer production lookahead = .ok r := by
  rcases shown.reduction (parser g) lookahead production with ⟨cause, failed, -⟩ | ⟨r, -, made, -⟩
  · rcases @Carries.reduct g {} read b.frames carries c production entry lookahead with
      ⟨_, reduced, -⟩ | ⟨_, reduced, -⟩
    · cases failed.symm.trans reduced
    · cases failed.symm.trans reduced
  · exact ⟨r, made⟩

theorem Carries.exists_acts {a : Arena Lexeme Expr} {b : Branch Lexeme Expr} {read : List Lexeme}
    {c : Terminal} (carries : Carries read b.frames) (shown : h.Shown a false b)
    (entry : production ∈ (table g).reduces (Frame.top b.frames) c.index) (lookahead : Lexeme) :
    ∃ rule values expr tokens, production = rule.index ∧ Acts g a h lookahead rule values expr ∧
      expr.ComposedOf tokens := by
  obtain ⟨r, made⟩ := carries.exists_reduction shown entry lookahead
  obtain ⟨rule, taken, below, -, tokens, rfl, split, -, -, takes, -⟩ := carries.takes entry
  obtain ⟨expr, acts, composed⟩ := takes.exists_value
  obtain ⟨entry, listed, arity⟩ := takes.exists_arity g
  rw [List.length_map, List.length_reverse] at arity
  have held := shown.holds
  rw [split] at held
  have top : (taken ++ below).take entry.arity = taken := arity ▸ List.take_left ..
  have enough : entry.arity ≤ (taken ++ below).length := by simp [arity]
  obtain ⟨base, -, popped⟩ := held.pop_eq_ok enough
  rw [top] at popped
  refine ⟨rule, _, expr, tokens, rfl, ⟨⟨entry, base, listed, popped⟩, acts, takes.operands, r, made, ?_⟩,
    composed⟩
  rcases h.reduction_cases held (table g) reducer rule.index lookahead with
    ⟨_, -, failed⟩ | ⟨entry', state, base', known, -, -, -, reduced⟩
  · cases failed.symm.trans made
  · cases made.symm.trans reduced
    obtain rfl := Option.some.inj (listed.symm.trans known)
    rw [held.rtake_contents, top]
    exact reducer_of_value? acts lookahead

theorem exists_carries_of_reduces (reached : Engine.Reached (parser g codes) past e)
    (reduces : e.Reduces (parser g codes) token h production x) :
    ∃ (b : Branch Lexeme Expr) (read : List Lexeme) (c : Terminal), h.Shown x.arena false b ∧
      Carries read b.frames ∧ production ∈ (table g).reduces (Frame.top b.frames) c.index := by
  obtain ⟨s, found, shows⟩ := reached.shows
  have composed := composed_of_reached found
  obtain ⟨-, b, shown, ⟨⟨read, carries, -⟩, entry⟩ | ⟨terminal, inside, ⟨read, carries, -⟩, entry⟩⟩ :=
    shows.reduces (contract_composed g codes past token) found.idle composed.1
      (fun b member => (composed.2 b member).append token) reduces
  · rw [rules_eq (g := g) rfl] at entry
    exact ⟨b, read, _, shown, carries, entry⟩
  · obtain ⟨c, -, rfl⟩ := (mem_insertable_iff g).mp inside
    exact ⟨b, read, c, shown, carries, entry⟩

theorem exists_composed_of_node? (reached : Engine.Reached (parser g codes) past e) {id : NodeId}
    {node : Node Lexeme Expr} {expr : Expr} (filled : e.arena.node? id = some node)
    (carried : node.value = some (.reduced expr)) : ∃ tokens, expr.ComposedOf tokens := by
  obtain ⟨s, found, shows⟩ := reached.shows
  have composed := composed_of_reached found
  obtain ⟨head, listed, member⟩ := reached.mem_chain_of_node? filled
  have content := Arena.mem_contents_of_mem_chain member filled carried
  rcases List.mem_append.mp listed with live | accepted
  · obtain ⟨b, live, shown⟩ := exists_of_forall₂_left shows.live live
    obtain ⟨read, carries, -⟩ := composed.1 b live
    rw [shown.holds.contents, List.map_reverse, List.mem_reverse] at content
    exact carries.exists_composed content
  · obtain ⟨b, accepted, shown⟩ := exists_of_forall₂_left shows.accepted accepted
    obtain ⟨-, -, -, result, read, -, -, frames, whole, -⟩ := composed.2 b accepted
    rw [shown.holds.contents, frames] at content
    cases List.mem_singleton.mp content
    exact ⟨read, whole⟩

theorem exists_acts_of_reduces (reached : Engine.Reached (parser g codes) past e)
    (reduces : e.Reduces (parser g codes) token h production x) :
    ∃ rule values expr f, production = rule.index ∧ Acts g x.arena h token rule values expr ∧
      expr.Agrees f := by
  obtain ⟨b, read, c, shown, carries, entry⟩ := exists_carries_of_reduces reached reduces
  obtain ⟨rule, values, expr, tokens, named, acts, composed⟩ := carries.exists_acts shown entry token
  obtain ⟨f, agrees⟩ := composed.exists_agrees
  exact ⟨rule, values, expr, f, named, acts, agrees⟩

/-- Between two calls every expression in the arena agrees with a formula, and also wherever a call
comes to a reduction. The reduction is by the action of its production, which finds the values that it
reads and no bare token for an operand, and makes of them an expression that agrees with a formula. -/
theorem expressions_agree (reached : Engine.Reached (parser g codes) past e) :
    Agreeing e.arena ∧
    ∀ token h production x, e.Reduces (parser g codes) token h production x →
      Agreeing x.arena ∧
      ∃ rule values expr f, production = rule.index ∧ Acts g x.arena h token rule values expr ∧
        expr.Agrees f := by
  have idle : Agreeing e.arena := by
    intro id node expr filled carried
    obtain ⟨tokens, composed⟩ := exists_composed_of_node? reached filled carried
    exact composed.exists_agrees
  refine ⟨idle, fun token h production x reduces => ⟨?_, exists_acts_of_reduces reached reduces⟩⟩
  obtain ⟨s, -, shows⟩ := reached.shows
  have both : x.arena.Tidy ∧ Agreeing x.arena := by
    refine reduces.throughout (I := fun a => a.Tidy ∧ Agreeing a) ?_ ⟨shows.sound.toTidy, idle⟩ ?_
    · rintro a state token below ⟨tidy, agreeing⟩
      refine ⟨tidy.push, agreeing.push tidy ?_ state below⟩
      rintro _ ⟨⟩
    · rintro h production x reduces r made ⟨tidy, agreeing⟩
      obtain ⟨rule, values, expr, f, rfl, acts, agrees⟩ := exists_acts_of_reduces reached reduces
      obtain ⟨r', yields, rfl⟩ := acts.yields
      cases yields.symm.trans made
      refine ⟨tidy.push, agreeing.push tidy ?_ r.state (some r.base)⟩
      rintro _ ⟨⟩
      exact ⟨f, agrees⟩
  exact both.2

theorem expressions_agree_repaired : ∃ (e : Engine Lexeme Expr) (f : Formula),
    Engine.Reached (parser .precedence) [one, { terminal := .plus }, stop] e ∧
      e.result 0 = .ok ⟨"(1+?)", none, none⟩ ∧ Expr.Agrees ⟨"(1+?)", none, none⟩ f ∧
        (f.HasUnknown ∨ f.Overflows) := by
  obtain ⟨e, node, run, result, filled, carried⟩ : ∃ e node,
      Engine.parse 9 (parser .precedence) [one, { terminal := .plus }, stop] .start = .ok e ∧
        e.result 0 = .ok ⟨"(1+?)", none, none⟩ ∧ e.arena.node? 7 = some node ∧
        node.value = some (.reduced ⟨"(1+?)", none, none⟩) := ⟨_, _, rfl, rfl, rfl, rfl⟩
  have reached := Engine.Reached.start.parse run
  obtain ⟨f, agrees⟩ := (expressions_agree reached).1 7 node _ filled carried
  exact ⟨e, f, reached, result, agrees, agrees.absent.mp rfl⟩

end Runs

end GeneralizedLR.Arithmetic
