import Mathlib.Algebra.Order.Ring.Int
import Monkey.Proofs.Nodes
import Monkey.Proofs.Soundness

/-! What a clean run is worth. Calls, opening parentheses and nodes have prices that are free but for
one condition: a group, which leaves no node, costs nothing. Then the calls that are made and the
parentheses that are read cost together what the nodes of the tree do, whatever the prices, and each
choice of prices is a count. -/

namespace Monkey

open Monkey.Parser

/-! ### Nodes below nodes -/

namespace Node

/-- The nodes directly below a node, in order. -/
@[simp] def children : Node → List Node
  | expression (.identifier n) => [name n]
  | expression (.integer _ _) => []
  | expression (.boolean _ _) => []
  | expression (.unary _ _ e) => [expression e]
  | expression (.binary _ _ l r) => [expression l, expression r]
  | expression (.ifElse _ c b a) => expression c :: block b :: a.toList.map block
  | expression (.function _ ps b) => block b :: ps.map name
  | expression (.call _ f es) => expression f :: es.map expression
  | block b => b.statements.map statement
  | statement (.letStmt _ n e) => [name n, expression e]
  | statement (.returnStmt _ e) => [expression e]
  | statement (.exprStmt _ e) => [expression e]
  | name _ => []

theorem mem_children_iff {m n : Node} : n ∈ m.children ↔ m.Above n := by
  constructor
  · intro h
    match m with
    | expression (.identifier _) | expression (.unary _ _ _) | expression (.binary _ _ _ _)
    | statement (.letStmt _ _ _) | statement (.returnStmt _ _) | statement (.exprStmt _ _) =>
      simp only [children, List.mem_cons, List.not_mem_nil, or_false] at h
      rcases h with rfl | rfl <;> constructor
    | expression (.ifElse _ _ _ a) =>
      simp only [children, List.mem_cons, List.mem_map, Option.mem_toList] at h
      obtain rfl | rfl | ⟨b, rfl, rfl⟩ := h <;> constructor
    | expression (.function _ _ _) =>
      simp only [children, List.mem_cons, List.mem_map] at h
      obtain rfl | ⟨n, hn, rfl⟩ := h
      · exact .body
      · exact .parameter hn
    | expression (.call _ _ _) =>
      simp only [children, List.mem_cons, List.mem_map] at h
      obtain rfl | ⟨e, he, rfl⟩ := h
      · exact .callee
      · exact .argument he
    | block ⟨_, _⟩ =>
      obtain ⟨s, hs, rfl⟩ := List.mem_map.1 h
      exact .inBlock hs
  · rintro ⟨⟩ <;> simp_all [children]

theorem sizeOf_lt_of_above {m n : Node} (h : m.Above n) : sizeOf n < sizeOf m := by
  cases h with
  | parameter h | argument h | inBlock h =>
    have := List.sizeOf_lt_of_mem h
    simp
    omega
  | _ => simp; try omega

/-- The nodes of a tree, at any depth, from its root on. -/
def nodes (m : Node) : List Node := m :: m.children.attach.flatMap fun n => n.1.nodes
termination_by sizeOf m
decreasing_by exact sizeOf_lt_of_above (mem_children_iff.1 n.2)

theorem nodes_eq (m : Node) : m.nodes = m :: m.children.flatMap nodes := by
  rw [nodes]
  simp [List.flatMap_subtype]

theorem mem_nodes_self (m : Node) : m ∈ m.nodes := by
  rw [nodes_eq]
  exact List.mem_cons_self

theorem mem_nodes_of_above {k m n : Node} (hk : k ∈ m.nodes) (h : k.Above n) : n ∈ m.nodes := by
  induction m using nodes.induct with
  | case1 m ih =>
    rw [nodes_eq, List.mem_cons, List.mem_flatMap] at hk ⊢
    right
    rcases hk with rfl | ⟨c, hc, hk⟩
    · exact ⟨n, mem_children_iff.2 h, mem_nodes_self n⟩
    · exact ⟨c, hc, ih ⟨c, hc⟩ hk⟩

theorem Of.of_mem_nodes {p : Program} {m n : Node} (h : m.Of p) (hn : n ∈ m.nodes) : n.Of p := by
  induction m using nodes.induct with
  | case1 m ih =>
    rw [nodes_eq, List.mem_cons, List.mem_flatMap] at hn
    rcases hn with rfl | ⟨c, hc, hn⟩
    · exact h
    · exact ih ⟨c, hc⟩ (h.child (mem_children_iff.1 hc)) hn

end Node

/-- The nodes of a program, at any depth. -/
def Program.nodes (p : Program) : List Node := p.statements.flatMap fun s => (Node.statement s).nodes

theorem Program.mem_nodes_iff {p : Program} {n : Node} : n ∈ p.nodes ↔ n.Of p := by
  constructor
  · intro h
    obtain ⟨s, hs, hn⟩ := List.mem_flatMap.1 h
    exact (Node.Of.statement hs).of_mem_nodes hn
  · intro h
    induction h with
    | statement hs => exact List.mem_flatMap.2 ⟨_, hs, Node.mem_nodes_self _⟩
    | child _ habove ih =>
      obtain ⟨s, hs, hm⟩ := List.mem_flatMap.1 ih
      exact List.mem_flatMap.2 ⟨s, hs, Node.mem_nodes_of_above hm habove⟩

/-! ### Calls and prices -/

mutual

/-- The rules of a call and of those inside it, in the order they are entered. -/
def Call.rules : Call → List Rule
  | ⟨rule, _, _, _, calls⟩ => rule :: Call.rulesAll calls

def Call.rulesAll : List Call → List Rule
  | [] => []
  | c :: cs => c.rules ++ Call.rulesAll cs

end

theorem Call.rulesAll_append (cs ds : List Call) :
    Call.rulesAll (cs ++ ds) = Call.rulesAll cs ++ Call.rulesAll ds := by
  induction cs with
  | nil => rfl
  | cons c cs ih => rw [List.cons_append, Call.rulesAll, ih, Call.rulesAll, List.append_assoc]

namespace Node

/-- The rules that are applied to read a node, besides those for the nodes below it. The expression
of a statement, an operand behind an operator, a condition and each argument are read as expressions. -/
@[simp] def rules : Node → List Rule
  | expression (.identifier _) => [.identifier]
  | expression (.integer _ _) => [.integer]
  | expression (.boolean _ _) => [.boolean]
  | expression (.unary _ _ _) => [.unary, .expression]
  | expression (.binary _ _ _ _) => [.binary, .expression]
  | expression (.ifElse _ _ _ _) => [.ifElse, .expression]
  | expression (.function _ _ _) => [.function]
  | expression (.call _ _ es) => .call :: List.replicate es.length .expression
  | block _ => [.block]
  | statement (.letStmt _ _ _) => [.statement, .letStmt, .expression]
  | statement (.returnStmt _ _) => [.statement, .returnStmt, .expression]
  | statement (.exprStmt _ _) => [.statement, .exprStmt, .expression]
  | name _ => []

/-- The number of opening parentheses that belong to a node itself. -/
@[simp] def parens : Node → Nat
  | expression (.ifElse ..) | expression (.function ..) | expression (.call ..) => 1
  | _ => 0

end Node

/-- Prices of calls and of opening parentheses. The call for a group, the one for the expression in it
and its parenthesis come to nothing together. -/
structure Prices where
  call : Rule → Int
  paren : Int
  group : call .group + call .expression + paren = 0

namespace Prices

variable (x : Prices)

def calls (cs : List Call) : Int := ((Call.rulesAll cs).map x.call).sum

def tokens (ts : List Token) : Int := x.paren * ts.countP (·.kind = .leftParen)

/-- What a node itself is worth. -/
def node (n : Node) : Int := (n.rules.map x.call).sum + x.paren * n.parens

def nodes (ns : List Node) : Int := (ns.map x.node).sum

/-- What a node is worth with all nodes below it. -/
def tree (n : Node) : Int := x.nodes n.nodes

theorem calls_append (cs ds : List Call) : x.calls (cs ++ ds) = x.calls cs + x.calls ds := by
  rw [calls, Call.rulesAll_append, List.map_append, List.sum_append]
  rfl

theorem calls_rule (r : Rule) (ts us : List Token) (ok : Bool) (cs : List Call) :
    x.calls [⟨r, ts, us, ok, cs⟩] = x.call r + x.calls cs := by
  simp [calls, Call.rulesAll, Call.rules]

theorem tokens_of_ne {ts : List Token} (h : (ts.headD .endOfInput).kind ≠ .leftParen) :
    x.tokens ts = x.tokens ts.tail := by
  cases ts with
  | nil => rfl
  | cons t ts =>
    rw [tokens, List.countP_cons_of_neg (by simpa using h)]
    rfl

theorem tokens_of_eq {ts : List Token} (h : (ts.headD .endOfInput).kind = .leftParen) :
    x.tokens ts = x.paren + x.tokens ts.tail := by
  cases ts with
  | nil => cases h
  | cons t ts =>
    rw [tokens, List.countP_cons_of_pos (by simpa using h), Int.natCast_succ, Int.mul_add,
      Int.mul_one, Int.add_comm]
    rfl

theorem nodes_flatMap {α : Type} (f : α → List Node) (as : List α) :
    x.nodes (as.flatMap f) = (as.map fun a => x.nodes (f a)).sum := by
  induction as with
  | nil => rfl
  | cons a as ih =>
    rw [List.flatMap_cons, List.map_cons, List.sum_cons, ← ih, nodes, List.map_append,
      List.sum_append]
    rfl

theorem tree_eq (n : Node) : x.tree n = x.node n + (n.children.map x.tree).sum := by
  rw [tree, Node.nodes_eq, nodes, List.map_cons, List.sum_cons]
  exact congrArg (x.node n + ·) (x.nodes_flatMap Node.nodes n.children)

/-- What an expression is worth where it is read as one. -/
def whole (e : Expr) : Int := x.call .expression + x.tree (.expression e)

/-! What trees are worth, form by form. -/

theorem tree_name (n : Identifier) : x.tree (.name n) = 0 := by
  rw [tree_eq]
  simp [node]

theorem tree_identifier (n : Identifier) :
    x.tree (.expression (.identifier n)) = x.call .identifier := by
  rw [tree_eq]
  simp [node, tree_name]

theorem tree_integer (t : Token) (v : Int64) :
    x.tree (.expression (.integer t v)) = x.call .integer := by
  rw [tree_eq]
  simp [node]

theorem tree_boolean (t : Token) (v : Bool) :
    x.tree (.expression (.boolean t v)) = x.call .boolean := by
  rw [tree_eq]
  simp [node]

theorem tree_letStmt (t : Token) (n : Identifier) (e : Expr) :
    x.tree (.statement (.letStmt t n e)) = x.call .statement + (x.call .letStmt + x.whole e) := by
  rw [tree_eq]
  simp [node, tree_name, whole, Int.add_assoc]

theorem tree_returnStmt (t : Token) (e : Expr) :
    x.tree (.statement (.returnStmt t e)) =
      x.call .statement + (x.call .returnStmt + x.whole e) := by
  rw [tree_eq]
  simp [node, whole, Int.add_assoc]

theorem tree_exprStmt (t : Token) (e : Expr) :
    x.tree (.statement (.exprStmt t e)) = x.call .statement + (x.call .exprStmt + x.whole e) := by
  rw [tree_eq]
  simp [node, whole, Int.add_assoc]

theorem tree_block (b : Block) :
    x.tree (.block b) = x.call .block + (b.statements.map fun s => x.tree (.statement s)).sum := by
  rw [tree_eq]
  simp [node, Function.comp_def]

theorem tree_unary (t : Token) (op : UnaryOp) (e : Expr) :
    x.tree (.expression (.unary t op e)) = x.call .unary + x.whole e := by
  rw [tree_eq]
  simp [node, whole, Int.add_assoc]

theorem tree_binary (t : Token) (op : BinaryOp) (l r : Expr) :
    x.tree (.expression (.binary t op l r)) =
      x.tree (.expression l) + (x.call .binary + x.whole r) := by
  rw [tree_eq]
  simp [node, whole]
  omega

theorem tree_ifElse (t : Token) (c : Expr) (b : Block) (a : Option Block) :
    x.tree (.expression (.ifElse t c b a)) = x.call .ifElse + (x.paren + (x.whole c +
      (x.tree (.block b) + (a.toList.map fun b => x.tree (.block b)).sum))) := by
  rw [tree_eq]
  simp [node, whole, Function.comp_def]
  omega

theorem tree_function (t : Token) (ps : List Identifier) (b : Block) :
    x.tree (.expression (.function t ps b)) =
      x.call .function + (x.paren + x.tree (.block b)) := by
  have hps : (ps.map fun n => x.tree (.name n)).sum = 0 := by
    induction ps with
    | nil => rfl
    | cons n ps ih => rw [List.map_cons, List.sum_cons, ih, tree_name, Int.add_zero]
  rw [tree_eq]
  simp [node, Function.comp_def, hps, Int.add_assoc]

theorem tree_call (t : Token) (f : Expr) (es : List Expr) :
    x.tree (.expression (.call t f es)) =
      x.tree (.expression f) + (x.call .call + (x.paren + (es.map x.whole).sum)) := by
  have hes : (es.map x.whole).sum =
      es.length * x.call .expression + (es.map fun e => x.tree (.expression e)).sum := by
    induction es with
    | nil => simp
    | cons e es ih =>
      simp only [List.map_cons, List.sum_cons, ih, List.length_cons, whole]
      grind
  rw [tree_eq]
  simp [node, Function.comp_def, hes]
  omega

/-- From the tokens `ts` up to `us`, with these calls, things are read that are worth `v`. -/
def Costs (ts us : List Token) (cs : List Call) (v : Int) : Prop :=
  x.calls cs + x.tokens ts = v + x.tokens us

/-- Clean runs cost what the expressions are worth that they give. -/
def Pays (expr : Precedence → Parser Expr) : Prop :=
  ∀ {p : Precedence} {ts us : List Token} {e : Expr} {cs : List Call},
    (expr p).Runs ts e us cs → x.Costs ts us.tail cs (x.whole e)

namespace Costs

variable {x} {ts us vs : List Token} {cs ds : List Call} {v w : Int}

theorem nil (ts : List Token) : x.Costs ts ts [] 0 := rfl

theorem trans (h : x.Costs ts us cs v) (h' : x.Costs us vs ds w) :
    x.Costs ts vs (cs ++ ds) (v + w) := by
  unfold Costs at *
  rw [x.calls_append]
  omega

/-- In front of what is read stands a token that is no opening parenthesis. -/
theorem behind (h : x.Costs ts.tail us cs v) (hk : (ts.headD .endOfInput).kind ≠ .leftParen) :
    x.Costs ts us cs v := by
  unfold Costs at *
  rwa [x.tokens_of_ne hk]

theorem before (h : x.Costs ts us cs v) (hk : (us.headD .endOfInput).kind ≠ .leftParen) :
    x.Costs ts us.tail cs v := by
  unfold Costs at *
  rwa [← x.tokens_of_ne hk]

theorem behind_paren (h : x.Costs ts.tail us cs v)
    (hk : (ts.headD .endOfInput).kind = .leftParen) : x.Costs ts us cs (x.paren + v) := by
  unfold Costs at *
  rw [x.tokens_of_eq hk]
  omega

theorem rule {start stop : List Token} {ok : Bool} (h : x.Costs ts us cs v) (r : Rule) :
    x.Costs ts us [⟨r, start, stop, ok, cs⟩] (x.call r + v) := by
  unfold Costs at *
  rw [x.calls_rule]
  omega

end Costs

end Prices

namespace Grammar

section Rules

variable {x : Prices} {expr : Precedence → Parser Expr} {ts us : List Token} {cs : List Call}

open Prices (Pays)

/-! ### Statements -/

theorem ending_costs (hx : x.Pays expr) {f : Expr → Statement} {s : Statement}
    (h : (do let value ← expr .lowest; accept .semicolon; return f value : Parser Statement).Runs
      ts s us cs) : ∃ e, s = f e ∧ x.Costs ts us.tail cs (x.whole e) := by
  obtain ⟨e, vs, cs, _, he, h', rfl⟩ := runs_bind_iff.1 h
  rw [runs_accept_bind, runs_pure_iff] at h'
  obtain ⟨rfl, rfl, rfl⟩ := h'
  refine ⟨e, rfl, ?_⟩
  rw [List.append_nil]
  split
  · next hk => exact (hx he).before (by rw [hk]; decide)
  · exact hx he

theorem statement_costs (hx : x.Pays expr) {s : Statement} (h : (statement expr).Runs ts s us cs) :
    x.Costs ts us.tail cs (x.tree (.statement s)) := by
  obtain ⟨ds, hbody, rfl⟩ := runs_rule_iff.1 h
  rw [runs_current_bind] at hbody
  split at hbody
  · next hk =>
    obtain ⟨ds, hlet, rfl⟩ := runs_rule_iff.1 hbody
    simp only [letStatement, runs_current_bind, runs_expect_bind, runs_advance_bind] at hlet
    obtain ⟨hname, heq, hlet⟩ := hlet
    obtain ⟨e, rfl, he⟩ := ending_costs hx hlet
    rw [Prices.tree_letStmt]
    exact ((((he.behind (by rw [heq]; decide)).behind (by rw [hname]; decide)).behind
      (by rw [hk]; decide)).rule .letStmt).rule .statement
  · next hk =>
    obtain ⟨ds, hreturn, rfl⟩ := runs_rule_iff.1 hbody
    simp only [returnStatement, runs_current_bind, runs_advance_bind] at hreturn
    obtain ⟨e, rfl, he⟩ := ending_costs hx hreturn
    rw [Prices.tree_returnStmt]
    exact ((he.behind (by rw [hk]; decide)).rule .returnStmt).rule .statement
  · obtain ⟨ds, hexpr, rfl⟩ := runs_rule_iff.1 hbody
    simp only [exprStatement, runs_current_bind] at hexpr
    obtain ⟨e, rfl, he⟩ := ending_costs hx hexpr
    rw [Prices.tree_exprStmt]
    exact (he.rule .exprStmt).rule .statement

theorem statements_cost (hx : x.Pays expr) {stop : Token → Bool} {ss : List Statement}
    (h : (itemsUntil stop (statement expr)).Runs ts ss us cs) :
    x.Costs ts us cs (ss.map fun s => x.tree (.statement s)).sum ∧
      ∀ t ∈ us.head?, stop t = true := by
  refine h.items_induction (motive := fun ts ss us cs =>
    x.Costs ts us cs (ss.map fun s => x.tree (.statement s)).sum ∧ ∀ t ∈ us.head?, stop t = true)
    (fun ts hstop => ⟨.nil ts, hstop⟩) ?_
  intro t ts s us cs ss vs ds _ hs ih
  rw [List.map_cons, List.sum_cons]
  exact ⟨(statement_costs hx hs).trans ih.1, ih.2⟩

theorem block_costs (hx : x.Pays expr) {b : Block} (hk : (ts.headD .endOfInput).kind = .leftBrace)
    (h : (block expr).Runs ts b us cs) : x.Costs ts us.tail cs (x.tree (.block b)) := by
  obtain ⟨ds, hbody, rfl⟩ := runs_rule_iff.1 h
  rw [runs_current_bind, runs_advance_bind] at hbody
  obtain ⟨ss, hitems, rfl⟩ := runs_map_iff.1 hbody
  obtain ⟨hcosts, hstop⟩ := statements_cost hx hitems
  -- A block ends at its brace, at a mark or with the input, and none of them is a parenthesis.
  have hend : (us.headD .endOfInput).kind ≠ .leftParen := by
    cases us with
    | nil => decide
    | cons t us =>
      intro hparen
      have h := hstop t rfl
      rw [List.headD_cons] at hparen
      rw [endsBlock, hparen] at h
      cases h
  rw [Prices.tree_block]
  exact ((hcosts.before hend).behind (by rw [hk]; decide)).rule .block

/-! ### Operands -/

theorem parameters_cost {names : List Token}
    (h : (parenthesized (expect .identifier)).Runs ts names us cs) :
    (us.headD .endOfInput).kind = .rightParen ∧ x.Costs ts.tail us cs 0 := by
  have hinv := parenthesized_invariant h (I := fun _ us cs => x.Costs ts.tail us.tail cs 0) ?_ ?_
  · obtain ⟨hk, hread⟩ := hinv
    refine ⟨hk, ?_⟩
    rcases hread with ⟨-, rfl, rfl⟩ | ⟨vs, rfl, hcosts⟩
    · exact .nil ts.tail
    · exact hcosts
  · intro name us cs hname
    obtain ⟨hk, -, rfl, rfl⟩ := runs_expect_iff.1 hname
    exact (Prices.Costs.nil _).before (by rw [hk]; decide)
  · intro names us cs name vs ds hcosts hcomma hname
    obtain ⟨hk, -, rfl, rfl⟩ := runs_expect_iff.1 hname
    exact ((hcosts.before (by rw [hcomma]; decide)).before (by rw [hk]; decide)).trans (.nil _)

theorem arguments_cost (hx : x.Pays expr) {es : List Expr}
    (h : (parenthesized (do advance; expr .lowest)).Runs ts es us cs) :
    (us.headD .endOfInput).kind = .rightParen ∧ x.Costs ts.tail us cs (es.map x.whole).sum := by
  have hinv := parenthesized_invariant h
    (I := fun es us cs => x.Costs ts.tail us.tail cs (es.map x.whole).sum) ?_ ?_
  · obtain ⟨hk, hread⟩ := hinv
    refine ⟨hk, ?_⟩
    rcases hread with ⟨rfl, rfl, rfl⟩ | ⟨vs, rfl, hcosts⟩
    · exact .nil ts.tail
    · exact hcosts
  · intro e us cs he
    rw [runs_advance_bind] at he
    simpa using hx he
  · intro es us cs e vs ds hcosts hcomma he
    rw [runs_advance_bind] at he
    have hmore := (hcosts.before (by rw [hcomma]; decide)).trans (hx he)
    simpa using hmore

theorem alternative_costs (hx : x.Pays expr) {a : Option Block}
    (h : (alternative expr).Runs ts a us cs) :
    x.Costs ts.tail us.tail cs (a.toList.map fun b => x.tree (.block b)).sum := by
  rw [alternative, runs_following_bind] at h
  split at h
  · next hk =>
    rw [runs_advance_bind, runs_expect_bind] at h
    obtain ⟨hbrace, h⟩ := h
    obtain ⟨b, hb, rfl⟩ := runs_map_iff.1 h
    simpa using (block_costs hx hbrace hb).behind (by rw [hk]; decide)
  · obtain ⟨rfl, rfl, rfl⟩ := runs_pure_iff.1 h
    exact .nil _

theorem conditional_costs (hx : x.Pays expr) {t : Token} {e : Expr}
    (hk : (ts.headD .endOfInput).kind = .kwIf)
    (h : (rule .ifElse (conditional expr t)).Runs ts e us cs) :
    x.Costs ts us.tail cs (x.tree (.expression e)) := by
  obtain ⟨cs, hbody, rfl⟩ := runs_rule_iff.1 h
  rw [conditional, runs_expect_bind, runs_advance_bind] at hbody
  obtain ⟨hl, hbody⟩ := hbody
  obtain ⟨c, vs, cs, ds, hc, hrest, rfl⟩ := runs_bind_iff.1 hbody
  simp only [runs_expect_bind] at hrest
  obtain ⟨hr, hbrace, hrest⟩ := hrest
  obtain ⟨b, ws, ds, es, hb, hlast, rfl⟩ := runs_bind_iff.1 hrest
  obtain ⟨a, ha, rfl⟩ := runs_map_iff.1 hlast
  have hblocks := (block_costs hx hbrace hb).trans (alternative_costs hx ha)
  have hcosts := (hx hc).trans (hblocks.behind (by rw [hr]; decide))
  rw [Prices.tree_ifElse]
  exact ((hcosts.behind_paren hl).behind (by rw [hk]; decide)).rule .ifElse

theorem function_costs (hx : x.Pays expr) {t : Token} {e : Expr}
    (hk : (ts.headD .endOfInput).kind = .kwFn)
    (h : (rule .function (function expr t)).Runs ts e us cs) :
    x.Costs ts us.tail cs (x.tree (.expression e)) := by
  obtain ⟨cs, hbody, rfl⟩ := runs_rule_iff.1 h
  rw [function, runs_expect_bind] at hbody
  obtain ⟨hl, hbody⟩ := hbody
  obtain ⟨names, vs, cs, ds, hnames, hrest, rfl⟩ := runs_bind_iff.1 hbody
  rw [runs_expect_bind] at hrest
  obtain ⟨hbrace, hrest⟩ := hrest
  obtain ⟨b, hb, rfl⟩ := runs_map_iff.1 hrest
  obtain ⟨hr, hparameters⟩ := parameters_cost hnames
  have hcosts := hparameters.trans ((block_costs hx hbrace hb).behind (by rw [hr]; decide))
  rw [Int.zero_add] at hcosts
  rw [Prices.tree_function]
  exact ((hcosts.behind_paren hl).behind (by rw [hk]; decide)).rule .function

theorem unary_costs (hx : x.Pays expr) {t : Token} {op : UnaryOp} {e : Expr}
    (hk : (ts.headD .endOfInput).kind = op.kind)
    (h : (rule .unary (unary expr t op)).Runs ts e us cs) :
    x.Costs ts us.tail cs (x.tree (.expression e)) := by
  obtain ⟨cs, hbody, rfl⟩ := runs_rule_iff.1 h
  rw [unary, runs_advance_bind] at hbody
  obtain ⟨e, he, rfl⟩ := runs_map_iff.1 hbody
  rw [Prices.tree_unary]
  exact ((hx he).behind (by rw [hk]; cases op <;> decide)).rule .unary

/-- What a group is read with comes to nothing, and the expression in it is left. -/
theorem group_costs (hx : x.Pays expr) {e : Expr}
    (hk : (ts.headD .endOfInput).kind = .leftParen)
    (h : (rule .group (group expr)).Runs ts e us cs) :
    x.Costs ts us.tail cs (x.tree (.expression e)) := by
  obtain ⟨cs, hbody, rfl⟩ := runs_rule_iff.1 h
  rw [group, runs_advance_bind] at hbody
  obtain ⟨e, vs, cs, _, he, hclose, rfl⟩ := runs_bind_iff.1 hbody
  obtain ⟨hr, hpure⟩ := runs_expect_bind.1 hclose
  obtain ⟨rfl, rfl, rfl⟩ := runs_pure_iff.1 hpure
  have hcosts : x.Costs ts vs.tail.tail [⟨.group, ts, vs.tail, true, cs⟩]
      (x.call .group + (x.paren + x.whole e)) :=
    (((hx he).before (by rw [hr]; decide)).behind_paren hk).rule .group
  have hvalue : x.call .group + (x.paren + x.whole e) = x.tree (.expression e) := by
    have hgroup := x.group
    rw [Prices.whole]
    omega
  rwa [hvalue, ← cs.append_nil] at hcosts

/-- An operand of one token makes one call and reads no parenthesis. -/
theorem token_costs {r : Rule} {e : Expr} (hk : (ts.headD .endOfInput).kind ≠ .leftParen)
    (he : x.tree (.expression e) = x.call r) :
    x.Costs ts ts.tail [⟨r, ts, ts, true, []⟩] (x.tree (.expression e)) := by
  rw [he, ← Int.add_zero (x.call r)]
  exact ((Prices.Costs.nil ts.tail).behind hk).rule r

theorem operand_costs (hx : x.Pays expr) {e : Expr} (h : (operand expr).Runs ts e us cs) :
    x.Costs ts us.tail cs (x.tree (.expression e)) := by
  rw [operand, runs_current_bind] at h
  split at h
  · next hk =>
    obtain ⟨ds, hbody, rfl⟩ := runs_rule_iff.1 h
    obtain ⟨rfl, rfl, rfl⟩ := runs_pure_iff.1 hbody
    exact token_costs (by rw [hk]; decide) (x.tree_identifier _)
  · next hk =>
    obtain ⟨ds, hbody, rfl⟩ := runs_rule_iff.1 h
    rw [integer] at hbody
    split at hbody
    · obtain ⟨rfl, rfl, rfl⟩ := runs_pure_iff.1 hbody
      exact token_costs (by rw [hk]; decide) (x.tree_integer _ _)
    · exact absurd hbody not_runs_fail
  · next hk =>
    obtain ⟨ds, hbody, rfl⟩ := runs_rule_iff.1 h
    obtain ⟨rfl, rfl, rfl⟩ := runs_pure_iff.1 hbody
    exact token_costs (by rw [hk]; decide) (x.tree_boolean _ _)
  · next hk =>
    obtain ⟨ds, hbody, rfl⟩ := runs_rule_iff.1 h
    obtain ⟨rfl, rfl, rfl⟩ := runs_pure_iff.1 hbody
    exact token_costs (by rw [hk]; decide) (x.tree_boolean _ _)
  · next hk =>
    have hop : (ts.headD .endOfInput).kind = UnaryOp.kind .minus := hk
    exact unary_costs hx hop h
  · next hk =>
    have hop : (ts.headD .endOfInput).kind = UnaryOp.kind .bang := hk
    exact unary_costs hx hop h
  · next hk => exact group_costs hx hk h
  · next hk => exact conditional_costs hx hk h
  · next hk => exact function_costs hx hk h
  · exact absurd h not_runs_fail

/-! ### Operators -/

/-- An operator adds to what its left operand or callee is worth. -/
theorem suffix_costs (hx : x.Pays expr) {left e : Expr}
    (hready : Precedence.lowest < (ts.headD .endOfInput).kind.precedence)
    (h : (suffix expr left).Runs ts e us cs) :
    ∃ v, x.tree (.expression e) = x.tree (.expression left) + v ∧ x.Costs ts us.tail cs v := by
  rw [suffix, runs_current_bind] at h
  split at h
  · next op hop =>
    have hk := (BinaryOp.ofKind?_eq_some_iff.1 hop).symm
    obtain ⟨cs, hbody, rfl⟩ := runs_rule_iff.1 h
    rw [binary, runs_advance_bind] at hbody
    obtain ⟨r, hr, rfl⟩ := runs_map_iff.1 hbody
    exact ⟨_, x.tree_binary _ _ _ _,
      ((hx hr).behind (by rw [hk]; cases op <;> decide)).rule .binary⟩
  · next hop =>
    have hk := Token.kind_of_continues (Token.continues_iff.2 ?_) hop
    · obtain ⟨cs, hbody, rfl⟩ := runs_rule_iff.1 h
      obtain ⟨es, harguments, rfl⟩ := runs_map_iff.1 hbody
      obtain ⟨hr, hcosts⟩ := arguments_cost hx harguments
      exact ⟨_, x.tree_call _ _ _,
        ((hcosts.before (by rw [hr]; decide)).behind_paren hk).rule .call⟩
    · rw [Precedence.lt_iff_rank_lt] at hready
      exact hready

theorem chain_costs (hx : x.Pays expr) {p : Precedence} {e : Expr}
    (h : (chain expr p).Runs ts e us cs) : x.Costs ts us.tail cs (x.tree (.expression e)) := by
  obtain ⟨left, vs, cs, ds, hleft, hloop, rfl⟩ := runs_bind_iff.1 h
  -- The loop has paid for the expression read so far, up to the token that it looks at next.
  refine (hloop.extend_invariant (I := fun e vs cs =>
    x.Costs ts vs.tail cs (x.tree (.expression e))) (operand_costs hx hleft) ?_).1
  intro left vs u e us cs ds hcosts hhead hready hstep
  obtain ⟨r, hr⟩ := List.head?_eq_some_iff.1 hhead
  have hlowest : Precedence.lowest < (vs.tail.headD .endOfInput).kind.precedence := by
    rw [hr, List.headD_cons, Precedence.lt_iff_rank_lt]
    rw [decide_eq_true_eq, Precedence.lt_iff_rank_lt] at hready
    exact Nat.lt_of_le_of_lt (Nat.zero_le _) hready
  obtain ⟨v, htree, hmore⟩ := suffix_costs hx hlowest hstep
  rw [htree]
  exact hcosts.trans hmore

end Rules

variable (x : Prices)

theorem expression_pays (n : Nat) : x.Pays (expression n) := by
  induction n with
  | zero => exact fun h => absurd h not_runs_fail
  | succ n ih =>
    intro p ts us e cs h
    obtain ⟨ds, hbody, rfl⟩ := runs_rule_iff.1 h
    exact (chain_costs ih hbody).rule .expression

/-- The calls of a program read without dropping a statement, and the parentheses among its tokens,
cost what its nodes are worth. -/
theorem program_costs {ts : List Token} (hu : Unmarked ts) (hd : (program ts).diagnostics = []) :
    x.calls (program ts).calls + x.tokens ts = x.nodes (program ts).value.nodes := by
  have hrun : (itemsUntil (·.kind = .endOfInput) (statement (expression maxNesting))).Runs ts
      (program ts).value.statements (program ts).ahead (program ts).calls :=
    runs_iff.2 ⟨rfl, rfl, hd, rfl⟩
  have hcosts := (statements_cost (expression_pays x maxNesting) hrun).1
  have hnone : x.tokens [] = 0 := Int.mul_zero _
  rw [program_ahead hu, Prices.Costs, hnone, Int.add_zero] at hcosts
  rw [Program.nodes, Prices.nodes_flatMap]
  exact hcosts

end Grammar

end Monkey
