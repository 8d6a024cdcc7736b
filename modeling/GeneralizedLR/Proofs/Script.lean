import GeneralizedLR.Arithmetic.Evaluate
import GeneralizedLR.Proofs.Engine.Run

/-!
Edit scripts and derivation trees. Every head reads an edited input: it kept, dropped and inserted
tokens, and its stack carries the values of derivation trees whose leaves are the tokens that were
kept or inserted. Its record of errors tells every edit, and its level counts them.
-/

set_option autoImplicit false
set_option relaxedAutoImplicit false

namespace GeneralizedLR

section Edits

variable {K : Type}

/-- What may happen to the input: a token is kept or dropped, or a terminal is inserted before it. -/
inductive Edit (K : Type) where
  | keep (token : K)
  | delete (token : K)
  | insert (terminal : Nat) (token : K)

variable [Token K]

def Edit.produced (t : Table) : Edit K → Option K
  | .keep token => some token
  | .delete _ => none
  | .insert terminal token => some (Token.correction token terminal (t.describe terminal))

def Edit.record (t : Table) : Edit K → Option ErrorRecord
  | .keep _ => none
  | .delete token => some ⟨some .unexpected, Token.span token, some (Token.literal token)⟩
  | .insert terminal token => some ⟨some .missing, Token.span token, some (t.describe terminal)⟩

def Edit.isRepair : Edit K → Bool
  | .keep _ => false
  | _ => true

/-- The edits of the tokens in order, each one kept or dropped behind the insertions before it. With a
token at hand, that one has only its insertions yet. The end of the stream is neither dropped nor
inserted. -/
inductive Edit.Script (t : Table) : List K → Option K → List (Edit K) → Prop
  | start : Edit.Script t [] none []
  | face {past : List K} {token : K} {edits : List (Edit K)} : Edit.Script t past none edits →
      Edit.Script t past (some token) edits
  | insert {past : List K} {token : K} {edits : List (Edit K)} {terminal : Nat} :
      Edit.Script t past (some token) edits → terminal ≠ t.endOfStream →
        terminal < t.terminalCount →
          Edit.Script t past (some token) (edits ++ [.insert terminal token])
  | keep {past : List K} {token : K} {edits : List (Edit K)} :
      Edit.Script t past (some token) edits →
        Edit.Script t (past ++ [token]) none (edits ++ [.keep token])
  | delete {past : List K} {token : K} {edits : List (Edit K)} :
      Edit.Script t past (some token) edits → Token.isEnd token = false →
        Edit.Script t (past ++ [token]) none (edits ++ [.delete token])

end Edits

section Trees

variable {K V : Type}

/-- A derivation tree; every node keeps its production and the lookahead that it was built before. -/
inductive Tree (K : Type) where
  | leaf (token : K)
  | node (production : Nat) (lookahead : K) (children : List (Tree K))

mutual

def Tree.leaves : Tree K → List K
  | .leaf token => [token]
  | .node _ _ children => Tree.allLeaves children

def Tree.allLeaves : List (Tree K) → List K
  | [] => []
  | tree :: rest => tree.leaves ++ Tree.allLeaves rest

end

mutual

/-- What a tree means: a token, or the value that the semantic actions yield from the bottom up. -/
def Tree.content (reducer : Reducer K V) : Tree K → Content K V
  | .leaf token => .lexeme token
  | .node production lookahead children =>
    .reduced (reducer production (Tree.contents reducer children) lookahead)

def Tree.contents (reducer : Reducer K V) : List (Tree K) → List (Content K V)
  | [] => []
  | tree :: rest => tree.content reducer :: Tree.contents reducer rest

end

theorem Tree.allLeaves_append (trees rest : List (Tree K)) :
    Tree.allLeaves (trees ++ rest) = Tree.allLeaves trees ++ Tree.allLeaves rest := by
  induction trees with
  | nil => rfl
  | cons tree trees ih => simp [Tree.allLeaves, ih]

theorem Tree.contents_eq_map (reducer : Reducer K V) (trees : List (Tree K)) :
    Tree.contents reducer trees = trees.map (Tree.content reducer) := by
  induction trees with
  | nil => rfl
  | cons tree trees ih => simp [Tree.contents, ih]

/-- Every node has a production of the table, as many children as it takes values, and a lookahead
among the tokens. -/
inductive Tree.Derives (t : Table) (tokens : List K) : Tree K → Prop
  | leaf (token : K) : Tree.Derives t tokens (.leaf token)
  | node {production : Nat} {lookahead : K} {children : List (Tree K)} {rule : Production} :
      t.production? production = some rule → children.length = rule.arity → lookahead ∈ tokens →
        (∀ child ∈ children, Tree.Derives t tokens child) →
          Tree.Derives t tokens (.node production lookahead children)

theorem Tree.Derives.mono {t : Table} {tokens more : List K} {tree : Tree K}
    (derives : tree.Derives t tokens) (subset : tokens ⊆ more) : tree.Derives t more := by
  induction derives with
  | leaf token => exact .leaf token
  | node listed arity seen _ ih => exact .node listed arity (subset seen) ih

end Trees

section Accounts

variable {K V : Type} [Token K]

/-- An edit script accounts for a stack and the record of its repairs. -/
structure Edit.Accounts (p : Parser K V) (seen : List K) (edits : List (Edit K))
    (contents : List (Content K V)) (errors : List ErrorRecord) (level : Nat) : Prop where
  trees : ∃ trees : List (Tree K), (∀ tree ∈ trees, tree.Derives p.table seen) ∧
    contents = trees.map (Tree.content p.reducer) ∧
      Tree.allLeaves trees = edits.filterMap (Edit.produced p.table)
  errors : errors = edits.filterMap (Edit.record p.table)
  level : level = edits.countP Edit.isRepair

namespace Edit.Accounts

variable {p : Parser K V} {seen : List K} {edits : List (Edit K)} {contents : List (Content K V)}
  {errors : List ErrorRecord} {level : Nat}

theorem mono (accounts : Accounts p seen edits contents errors level) {more : List K}
    (subset : seen ⊆ more) : Accounts p more edits contents errors level := by
  obtain ⟨trees, derives, values, leaves⟩ := accounts.trees
  exact { accounts with
    trees := ⟨trees, fun tree member => (derives tree member).mono subset, values, leaves⟩ }

theorem edit (accounts : Accounts p seen edits contents errors level) (edit : Edit K) :
    Accounts p seen (edits ++ [edit])
      (contents ++ ((edit.produced p.table).map Content.lexeme).toList)
      (errors ++ (edit.record p.table).toList) (level + if edit.isRepair then 1 else 0) := by
  obtain ⟨trees, derives, values, leaves⟩ := accounts.trees
  refine ⟨⟨trees ++ ((edit.produced p.table).map Tree.leaf).toList, fun tree member => ?_, ?_, ?_⟩,
    ?_, ?_⟩
  · rcases List.mem_append.mp member with member | member
    · exact derives tree member
    · simp only [Option.mem_toList, Option.map_eq_some_iff] at member
      obtain ⟨token, -, rfl⟩ := member
      exact .leaf token
  · cases produced : edit.produced p.table <;> simp [values, Tree.content]
  · rw [Tree.allLeaves_append, leaves, List.filterMap_append]
    cases produced : edit.produced p.table <;> simp [Tree.allLeaves, Tree.leaves, produced]
  · rw [accounts.errors, List.filterMap_append]
    cases recorded : edit.record p.table <;> simp [recorded]
  · rw [accounts.level, List.countP_append, List.countP_singleton]

theorem reduce (accounts : Accounts p seen edits contents errors level) {production : Nat}
    {rule : Production} (listed : p.table.production? production = some rule) {lookahead : K}
    (known : lookahead ∈ seen) {below taken : List (Content K V)} (split : contents = below ++ taken)
    (arity : taken.length = rule.arity) :
    Accounts p seen edits (below ++ [.reduced (p.reducer production taken lookahead)]) errors
      level := by
  obtain ⟨trees, derives, values, leaves⟩ := accounts.trees
  obtain ⟨front, children, rfl, rfl, rfl⟩ := List.map_eq_append_iff.mp (values.symm.trans split)
  refine { accounts with
    trees := ⟨front ++ [.node production lookahead children], fun tree member => ?_, ?_, ?_⟩ }
  · rcases List.mem_append.mp member with member | member
    · exact derives tree (List.mem_append_left _ member)
    · obtain rfl := List.mem_singleton.mp member
      exact .node listed (by simpa using arity) known fun child listed =>
        derives child (List.mem_append_right _ listed)
  · simp [Tree.content, Tree.contents_eq_map]
  · rw [← leaves, Tree.allLeaves_append, Tree.allLeaves_append]
    simp [Tree.allLeaves, Tree.leaves]

end Edit.Accounts

abbrev Branch.Accounts (p : Parser K V) (seen : List K) (edits : List (Edit K)) (b : Branch K V) :
    Prop :=
  Edit.Accounts p seen edits (b.frames.reverse.map (·.content)) b.errors b.level

omit [Token K] in
private theorem Frame.map_content_split (frames : List (Frame K V)) (count : Nat) :
    frames.reverse.map (·.content) =
      (frames.drop count).reverse.map (·.content) ++
        (frames.take count).reverse.map (·.content) := by
  rw [← List.map_append, ← List.reverse_append, List.take_append_drop]

theorem Branch.Accounts.reduct {p : Parser K V} {seen : List K} {edits : List (Edit K)}
    {b : Branch K V} (accounts : b.Accounts p seen edits) {lookahead : K} (known : lookahead ∈ seen)
    {production : Nat} {fate : Fate} {frames : List (Frame K V)}
    (reduced : p.reduct lookahead b.frames production = .ok (fate, frames)) (serial : Nat) :
    Branch.Accounts p seen edits { b with frames, serial } := by
  obtain ⟨rule, state, listed, arity, -, eq⟩ := Parser.reduct_eq_ok.mp reduced
  cases eq
  have taken := accounts.reduce listed known (Frame.map_content_split b.frames rule.arity)
    (by simpa using arity)
  simpa [Branch.Accounts] using taken

private def Branch.Scripted (p : Parser K V) (past : List K) (facing : Option K) (b : Branch K V) :
    Prop :=
  ∃ edits, Edit.Script p.table past facing edits ∧ b.Accounts p (past ++ facing.toList) edits

private theorem Parser.contract_scripted (p : Parser K V) (past : List K) (token : K) :
    Branching.Contract p token (Branch.Scripted p past (some token))
      (fun _ => Branch.Scripted p past (some token)) (Branch.Scripted p past (some token))
      (Branch.Scripted p (past ++ [token]) none)
      (fun b => ∃ before token' future, past ++ [token] = before ++ token' :: future ∧
        b.Scripted p before (some token')) where
  shift := by
    rintro b serial ⟨edits, script, accounts⟩ target -
    refine ⟨_, script.keep, ?_⟩
    simpa [Branch.Accounts, Edit.produced, Edit.record, Edit.isRepair] using
      accounts.edit (.keep token)
  reduce := by
    rintro b serial frames ⟨edits, script, accounts⟩ production - reduced
    exact ⟨edits, script, accounts.reduct (by simp) reduced serial⟩
  accept := by
    rintro b serial frames ⟨edits, script, accounts⟩ production - reduced
    exact ⟨past, token, [], rfl, edits, script, accounts.reduct (by simp) reduced serial⟩
  delete := by
    rintro b serial ⟨edits, script, accounts⟩ goes
    refine ⟨_, script.delete goes, ?_⟩
    simpa [Branch.Accounts, Branch.repaired, Branching.unexpected, Edit.produced, Edit.record,
      Edit.isRepair] using accounts.edit (.delete token)
  queue := fun _ scripted _ _ => scripted
  prepare := by
    rintro terminal - b serial frames ⟨edits, script, accounts⟩ production - reduced
    exact ⟨edits, script, accounts.reduct (by simp) reduced serial⟩
  insert := by
    rintro terminal insertable b serial ⟨edits, script, accounts⟩ target -
    obtain ⟨known, inner⟩ := List.mem_filter.mp insertable
    refine ⟨_, script.insert (by simpa using inner) (List.mem_range.mp known), ?_⟩
    simpa [Branch.Accounts, Branch.repaired, Branching.missing, Edit.produced, Edit.record,
      Edit.isRepair] using accounts.edit (.insert terminal token)

theorem Branching.Reached.scripted {p : Parser K V} {past : List K} {s : Branching K V}
    (reached : Branching.Reached p past s) :
    (∀ b ∈ s.live, b.Scripted p past none) ∧
      ∀ b ∈ s.accepted, ∃ before token future, past = before ++ token :: future ∧
        b.Scripted p before (some token) := by
  refine reached.invariant (fun past => Branch.Scripted p past none)
    (fun past b => ∃ before token future, past = before ++ token :: future ∧
      b.Scripted p before (some token)) ?_ ?_ p.contract_scripted ?_
  · exact ⟨[], .start, ⟨⟨[], by simp, rfl, rfl⟩, rfl, rfl⟩⟩
  · rintro past token b ⟨edits, script, accounts⟩
    exact ⟨edits, script.face, accounts.mono (by simp)⟩
  · rintro past token b ⟨before, token', future, rfl, scripted⟩
    exact ⟨before, token', future ++ [token], by simp, scripted⟩

/-- An edit script accounts for the stack that a head has in an arena. -/
abbrev Head.Accounts (p : Parser K V) (a : Arena K V) (seen : List K) (edits : List (Edit K))
    (h : Head) : Prop :=
  Edit.Accounts p seen edits (a.contents h.top) h.errors h.level

private theorem Head.Shown.accounts {p : Parser K V} {a : Arena K V} {accepted : Bool}
    {h : Head} {b : Branch K V} (shown : h.Shown a accepted b) {seen : List K}
    {edits : List (Edit K)} (accounts : b.Accounts p seen edits) :
    h.Accounts p a seen edits := by
  rw [Head.Accounts, shown.holds.contents, shown.errors, shown.level]
  exact accounts

/-- Every head is an honest edit of the input: a live one of all tokens so far, an accepted one of the
tokens before the one that it was accepted on, with insertions only before that one. -/
theorem Engine.Reached.honest {p : Parser K V} {past : List K} {e : Engine K V}
    (reached : Engine.Reached p past e) :
    (∀ head ∈ e.heads, ∃ edits, Edit.Script p.table past none edits ∧
      head.Accounts p e.arena past edits) ∧
    ∀ head ∈ e.accepted, ∃ before token future edits, past = before ++ token :: future ∧
      Edit.Script p.table before (some token) edits ∧
        head.Accounts p e.arena (before ++ [token]) edits := by
  obtain ⟨s, found, shows⟩ := reached.shows
  obtain ⟨lives, accepts⟩ := found.scripted
  refine ⟨fun head listed => ?_, fun head listed => ?_⟩
  · obtain ⟨b, member, shown⟩ := exists_of_forall₂_left shows.live listed
    obtain ⟨edits, script, accounts⟩ := lives b member
    exact ⟨edits, script, shown.accounts (by simpa using accounts)⟩
  · obtain ⟨b, member, shown⟩ := exists_of_forall₂_left shows.accepted listed
    obtain ⟨before, token, future, split, edits, script, accounts⟩ := accepts b member
    exact ⟨before, token, future, edits, split, script, shown.accounts accounts⟩

end Accounts

def Arithmetic.openOne : List Arithmetic.Lexeme :=
  [{ terminal := .leftParen }, { terminal := .number, payload := .number 1 },
   { terminal := .endOfInput }]

/-- A parenthesis that is not closed is read with one repair: the other one is inserted. -/
theorem Engine.Reached.honest_openOne : ∃ e head,
    Engine.Reached (Arithmetic.parser .precedence) Arithmetic.openOne e ∧ e.accepted = [head] ∧
      ∃ before token future edits, Arithmetic.openOne = before ++ token :: future ∧
        Edit.Script (Arithmetic.table .precedence) before (some token) edits ∧
        head.Accounts (Arithmetic.parser .precedence) e.arena (before ++ [token]) edits ∧
        ∃ terminal stands, edits.filter Edit.isRepair = [.insert terminal stands] ∧
          (Arithmetic.table .precedence).describe terminal = "')'" := by
  obtain ⟨e, run, repairs⟩ : ∃ e, Engine.parse 9 (Arithmetic.parser .precedence) Arithmetic.openOne
      .start = .ok e ∧ e.accepted.map (fun head => (head.errors, head.level)) =
        [([⟨some .missing, none, some "')'"⟩], 1)] := ⟨_, rfl, rfl⟩
  have reached := Engine.Reached.start.parse run
  obtain ⟨head, accepted, same⟩ := List.map_eq_singleton_iff.mp repairs
  obtain ⟨errors, level⟩ := Prod.mk.inj same
  have listed : head ∈ e.accepted := by simp [accepted]
  obtain ⟨before, token, future, edits, split, script, accounts⟩ := reached.honest.2 head listed
  refine ⟨e, head, reached, accepted, before, token, future, edits, split, script, accounts, ?_⟩
  have count : (edits.filter Edit.isRepair).length = 1 := by
    rw [← List.countP_eq_length_filter, ← accounts.level, level]
  obtain ⟨edit, only⟩ := List.length_eq_one_iff.mp count
  have records : [⟨some .missing, none, some "')'"⟩] =
      [edit].filterMap (Edit.record (Arithmetic.table .precedence)) := by
    rw [← only, List.filterMap_filter, ← errors, accounts.errors]
    refine List.filterMap_congr fun other _ => ?_
    cases other <;> rfl
  cases edit with
  | keep token => cases records
  | delete token => simp [Edit.record] at records
  | insert terminal stands =>
    have text : some "')'" = some ((Arithmetic.table .precedence).describe terminal) :=
      congrArg (fun records => records.head?.bind ErrorRecord.argument) records
    exact ⟨terminal, stands, only, (Option.some.inj text).symm⟩

end GeneralizedLR
