import GeneralizedLR.Engine.Step

/-!
Repairing a syntax error. Every stranded head drops the token, unless the stream ends there, and
inserts each terminal that its stack admits, after the reductions that the terminal calls for. The
heads with an insertion are live again and see the same token.
-/

set_option autoImplicit false
set_option relaxedAutoImplicit false

namespace GeneralizedLR.Engine

variable {K V : Type} [Token K]

def deleteBefore (token : K) (e : Engine K V) (head : Head) : Engine K V :=
  let serial := e.serial + 1
  let error : ErrorRecord := ⟨some .unexpected, Token.span token, some (Token.literal token)⟩
  { e with
    serial
    shifted := ((head.fork serial).raise).addError error :: e.shifted
    stats := { e.stats with deletions := e.stats.deletions + 1 }
    journal := .deleted token serial :: e.journal }

/-- Fork a head that inserts `terminal` before the token and goes to `target`. -/
def insertTo (p : Parser K V) (token : K) (terminal : Nat) (head : Head) (state : Nat)
    (e : Engine K V) (target : Nat) : Engine K V :=
  let serial := e.serial + 1
  let description := p.table.describe terminal
  let (shifted, arena) :=
    (head.fork serial).shift e.arena (Token.correction token terminal description) target
  let error : ErrorRecord := ⟨some .missing, Token.span token, some description⟩
  { e with
    arena, serial
    waiting := shifted.raise.addError error :: e.waiting
    stats := { e.stats with insertions := e.stats.insertions + 1 }
    journal := .inserted description state target serial :: e.journal }

/-- Fork a head that reduces `production` ahead of an insertion; it waits behind `waiting`, unless
the production ends the parse. -/
def prepareBy (p : Parser K V) (token : K) (head : Head) :
    Engine K V × List Head → Nat → Except (Halt K V) (Engine K V × List Head)
  | (e, queue), production =>
    let serial := e.serial + 1
    match head.reduction e.arena p.table p.reducer production token with
    | .error cause => .error (.fault cause { e with serial })
    | .ok r =>
      let (reduced, arena) := (head.fork serial).replace e.arena r
      let e := { e with
        arena, serial
        stats := { e.stats with closures := e.stats.closures + 1 } }
      .ok (e, if reduced.accepted then queue else queue ++ [reduced])

/-- Insert `terminal` at one head, and do the reductions that it calls for there. -/
def insertAt (p : Parser K V) (token : K) (terminal : Nat) :
    Engine K V × List Head → Head → Except (Halt K V) (Engine K V × List Head)
  | (e, queue), head =>
    match e.arena.state head.top with
    | .error cause => .error (.fault cause e)
    | .ok state =>
      let e := (p.table.shifts state terminal).foldl (insertTo p token terminal head state) e
      (p.table.reduces state terminal).foldlM (prepareBy p token head) (e, queue)

/-- Insert `terminal` at the waiting heads, then at those that they were reduced to, until none is
left. -/
def insertAll (p : Parser K V) (token : K) (terminal : Nat) :
    Nat → Engine K V × List Head → Except (Halt K V) (Engine K V)
  | 0, (e, queue) => if queue.isEmpty then .ok e else .error .exhausted
  | fuel + 1, (e, queue) =>
    if queue.isEmpty then .ok e
    else do
      let next ← queue.foldlM (insertAt p token terminal) (e, [])
      insertAll p token terminal fuel next

/-- All repairs of one stranded head: the deletion first, then the insertions by terminal. -/
def repair (fuel : Nat) (p : Parser K V) (token : K) (e : Engine K V) (head : Head) :
    Except (Halt K V) (Engine K V) :=
  let e := if Token.isEnd token then e else e.deleteBefore token head
  p.table.insertable.foldlM (fun e terminal => insertAll p token terminal fuel (e, [head])) e

/-- Repair all stranded heads; the heads with an insertion are merged and live again. -/
def recover (merge : Arena K V → List Head → Merged) (fuel : Nat) (p : Parser K V) (token : K)
    (e : Engine K V) : Except (Halt K V) (Engine K V) := do
  let stranded := e.stranded.reverse
  let e := e.record (.recovering stranded.length (Token.literal token) (Token.span token))
  let e ← stranded.foldlM (repair fuel p token) { e with stranded := [] }
  let inserted := merge e.arena e.waiting.reverse
  return ({ e with heads := inserted.heads, waiting := [] }).recordMerges inserted.pairs

end GeneralizedLR.Engine
