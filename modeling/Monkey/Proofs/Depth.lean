import Monkey.Proofs.Agreement
import Monkey.Proofs.Chain

/-! How deep the trees are. Each expression that is open takes at most three nodes of a path: its own,
that of a block in it and that of a statement there. Left operands and callees are read in a loop and
open nothing, so only the steps into them have no bound. -/

namespace Monkey

/-! ### Depth -/

mutual

/-- The number of expressions, blocks and statements on the deepest path through an expression, where
a step into a left operand or a callee counts for `k`. With 1 for `k` this is the depth of the tree. -/
def Expr.depth (k : Nat) : Expr → Nat
  | .identifier _ => 1
  | .integer _ _ => 1
  | .boolean _ _ => 1
  | .unary _ _ e => e.depth k + 1
  | .binary _ _ l r => max (l.depth k + k) (r.depth k + 1)
  | .ifElse _ c b a => max (c.depth k) (max (b.depth k) (Block.depthElse k a)) + 1
  | .function _ _ b => b.depth k + 1
  | .call _ f es => max (f.depth k + k) (Expr.depthAll k es + 1)
termination_by structural e => e

def Expr.depthAll (k : Nat) : List Expr → Nat
  | [] => 0
  | e :: es => max (e.depth k) (Expr.depthAll k es)
termination_by structural es => es

def Block.depth (k : Nat) : Block → Nat
  | ⟨_, ss⟩ => Statement.depthAll k ss + 1
termination_by structural b => b

def Block.depthElse (k : Nat) : Option Block → Nat
  | none => 0
  | some b => b.depth k
termination_by structural b => b

def Statement.depth (k : Nat) : Statement → Nat
  | .letStmt _ _ e => e.depth k + 1
  | .returnStmt _ e => e.depth k + 1
  | .exprStmt _ e => e.depth k + 1
termination_by structural s => s

def Statement.depthAll (k : Nat) : List Statement → Nat
  | [] => 0
  | s :: ss => max (s.depth k) (Statement.depthAll k ss)
termination_by structural ss => ss

end

theorem Expr.depthAll_le {k m : Nat} {es : List Expr} (h : ∀ e ∈ es, e.depth k ≤ m) :
    Expr.depthAll k es ≤ m := by
  induction es with
  | nil => exact Nat.zero_le m
  | cons e es ih =>
    rw [List.forall_mem_cons] at h
    exact Nat.max_le.2 ⟨h.1, ih h.2⟩

theorem Statement.depthAll_le {k m : Nat} {ss : List Statement} (h : ∀ s ∈ ss, s.depth k ≤ m) :
    Statement.depthAll k ss ≤ m := by
  induction ss with
  | nil => exact Nat.zero_le m
  | cons s ss ih =>
    rw [List.forall_mem_cons] at h
    exact Nat.max_le.2 ⟨h.1, ih h.2⟩

theorem Block.depthElse_le {k m : Nat} {a : Option Block} (h : ∀ b ∈ a, b.depth k ≤ m) :
    Block.depthElse k a ≤ m := by
  cases a with
  | none => exact Nat.zero_le m
  | some b => exact h b rfl

theorem Expr.depth_pos (k : Nat) (e : Expr) : 0 < e.depth k := by
  cases e with
  | binary t op l r => exact Nat.lt_of_lt_of_le (Nat.succ_pos _) (Nat.le_max_right _ _)
  | call t f es => exact Nat.lt_of_lt_of_le (Nat.succ_pos _) (Nat.le_max_right _ _)
  | _ => exact Nat.succ_pos _

/-! ### The bound -/

namespace Grammar

open Monkey.Parser

section Rules

variable {expr : Precedence → Parser Expr} {m : Nat}
  (hx : ∀ p, (expr p).Ensures fun _ e => e.depth 0 < m)

include hx

theorem statement_depth : (statement expr).Ensures fun _ s => s.depth 0 ≤ m := by
  refine .rule _ (.after fun _ _ => ?_)
  split
  · refine .rule _ (.after fun _ _ => .after fun _ _ => .after fun _ _ => .after fun _ _ => ?_)
    exact .bind (hx .lowest) fun _ e he => .after fun _ _ => .pure fun _ => he
  · refine .rule _ (.after fun _ _ => .after fun _ _ => ?_)
    exact .bind (hx .lowest) fun _ e he => .after fun _ _ => .pure fun _ => he
  · refine .rule _ (.after fun _ _ => ?_)
    exact .bind (hx .lowest) fun _ e he => .after fun _ _ => .pure fun _ => he

theorem block_depth : (block expr).Ensures fun _ b => b.depth 0 ≤ m + 1 := by
  refine .rule _ (.after fun _ _ => .after fun _ _ => ?_)
  refine .bind (.itemsUntil _ (statement_depth hx)) fun _ ss hss => .pure fun _ => ?_
  exact Nat.succ_le_succ (Statement.depthAll_le hss)

theorem conditional_depth (t : Token) :
    (conditional expr t).Ensures fun _ e => e.depth 0 < m + 3 := by
  have halternative : (alternative expr).Ensures fun _ a => ∀ b ∈ a, b.depth 0 ≤ m + 1 := by
    refine .after fun _ _ => ?_
    split
    · refine .after fun _ _ => .after fun _ _ => .bind (block_depth hx) fun _ b hb => ?_
      exact .pure fun _ _ hmem => Option.mem_some_iff.1 hmem ▸ hb
    · exact .pure fun _ _ hmem => nomatch hmem
  refine .after fun _ _ => .after fun _ _ => .bind (hx .lowest) fun _ c hc => ?_
  refine .after fun _ _ => .after fun _ _ => .bind (block_depth hx) fun _ b hb => ?_
  refine .bind halternative fun _ a ha => .pure fun _ => ?_
  have helse := Block.depthElse_le ha
  rw [Expr.depth]
  omega

theorem function_depth (t : Token) : (function expr t).Ensures fun _ e => e.depth 0 < m + 3 := by
  refine .after fun _ _ => .after fun _ _ => .after fun _ _ => ?_
  refine .bind (block_depth hx) fun _ b hb => .pure fun _ => ?_
  rw [Expr.depth]
  omega

theorem operand_depth : (operand expr).Ensures fun _ e => e.depth 0 < m + 3 := by
  have hunary (t : Token) (op : UnaryOp) :
      (unary expr t op).Ensures fun _ e => e.depth 0 < m + 3 := by
    refine .after fun _ _ => .bind (hx .unary) fun _ e he => .pure fun _ => ?_
    rw [Expr.depth]
    omega
  refine .after fun _ t => ?_
  split
  · exact .rule _ (.pure fun _ => Nat.succ_lt_succ (Nat.succ_pos _))
  · refine .rule _ ?_
    unfold integer
    split
    · exact .pure fun _ => Nat.succ_lt_succ (Nat.succ_pos _)
    · exact .fail _
  · exact .rule _ (.pure fun _ => Nat.succ_lt_succ (Nat.succ_pos _))
  · exact .rule _ (.pure fun _ => Nat.succ_lt_succ (Nat.succ_pos _))
  · exact .rule _ (hunary t .minus)
  · exact .rule _ (hunary t .bang)
  · refine .rule _ (.after fun _ _ => .bind (hx .lowest) fun _ e he => .after fun _ _ => ?_)
    exact .pure fun _ => Nat.lt_add_right 3 he
  · exact .rule _ (conditional_depth hx t)
  · exact .rule _ (function_depth hx t)
  · exact .fail _

/-- What stands to the left of an operator may be as deep as the whole. -/
theorem suffix_depth {left : Expr} (hl : left.depth 0 < m + 3) :
    (suffix expr left).Ensures fun _ e => e.depth 0 < m + 3 := by
  have hargument : (do advance; expr .lowest : Parser Expr).Ensures fun _ e => e.depth 0 ≤ m :=
    .after fun _ _ => (hx .lowest).imp fun _ e he => Nat.le_of_lt he
  refine .after fun _ _ => ?_
  split
  · refine .rule _ (.after fun _ _ => .bind (hx _) fun _ r hr => .pure fun _ => ?_)
    rw [Expr.depth]
    omega
  · refine .rule _ (.bind (parenthesized_ensures hargument) fun _ es hes => .pure fun _ => ?_)
    have hall := Expr.depthAll_le hes
    rw [Expr.depth]
    omega

theorem chain_depth (p : Precedence) : (chain expr p).Ensures fun _ e => e.depth 0 < m + 3 :=
  .bind (operand_depth hx) fun _ _ hleft =>
    .extend hleft fun _ he => (suffix_depth hx he).imp fun _ _ he' _ => he'

end Rules

theorem expression_depth (n : Nat) (p : Precedence) :
    (expression n p).Ensures fun _ e => e.depth 0 < 3 * n := by
  induction n generalizing p with
  | zero => exact .fail _
  | succ n ih => exact .rule _ (chain_depth ih p)

end Grammar

/-- The trees of a program are nested no deeper than expressions may be open, three nodes for each,
if steps into left operands and callees are not counted. -/
theorem parse_depth_le (source : String) :
    ∀ s ∈ (parse source).value.statements, s.depth 0 ≤ 3 * Grammar.maxNesting := by
  have hitems := Parser.Ensures.itemsUntil (·.kind = .endOfInput)
    (Grammar.statement_depth (Grammar.expression_depth Grammar.maxNesting))
  exact hitems (Lexer.ofString source).tokens _ (Token.stream_lexed source.toList) rfl

/-- Functions directly inside one another take three nodes each. -/
theorem parse_depth_le_functions :
    ∃ s ∈ (parse (String.join (List.replicate 8 "fn()\x7b"))).value.statements,
      s.depth 0 = 3 * 8 ∧ s.depth 0 ≤ 3 * Grammar.maxNesting := by
  have hdeep : ∃ s ∈ (parse (String.join (List.replicate 8 "fn()\x7b"))).value.statements,
      s.depth 0 = 3 * 8 := by decide +kernel
  obtain ⟨s, hs, hdepth⟩ := hdeep
  exact ⟨s, hs, hdepth, parse_depth_le _ s hs⟩

/-! ### Chains -/

/-- Links that are all the same are divided at the last of them. -/
theorem Chain.tree_replicate (x : Term) (l : Link) (n : Nat) :
    Chain.tree ⟨x, List.replicate (n + 1) l⟩ = .binary l.op.token l.op
      (Chain.tree ⟨x, List.replicate n l⟩) (Chain.tree ⟨l.term, []⟩) := by
  have hloosest : ∀ m ∈ List.replicate n l, l.op.layer ≤ m.op.layer := by
    intro m hm
    have hsame : m = l := List.eq_of_mem_replicate hm
    exact Nat.le_of_eq (congrArg (·.op.layer) hsame.symm)
  exact Chain.tree_division x
    ⟨List.replicate n l, l, [], List.replicate_succ', hloosest, List.forall_mem_nil _⟩

/-- A chain of one operator leans to the left, with a node for each link. -/
theorem Chain.lt_depth_tree (x : Term) (l : Link) (n : Nat) :
    n < (Chain.tree ⟨x, List.replicate n l⟩).depth 1 := by
  induction n with
  | zero => exact Expr.depth_pos 1 _
  | succ n ih =>
    rw [Chain.tree_replicate, Expr.depth]
    exact Nat.lt_of_lt_of_le (Nat.succ_lt_succ ih) (Nat.le_max_left _ _)

/-- No depth is enough for the trees of all sources. -/
theorem depth_unbounded :
    ¬ ∃ D, ∀ source, ∀ s ∈ (parse source).value.statements, s.depth 1 ≤ D := by
  rintro ⟨D, hD⟩
  let x : Term := ⟨[], .boolean true, Nat.zero_le _⟩
  let c : Chain := ⟨x, List.replicate D ⟨.plus, x⟩⟩
  obtain ⟨-, t, -, hvalue⟩ := c.program_eq
  have hle : (Statement.exprStmt t c.tree).depth 1 ≤ D := by
    refine hD c.text _ ?_
    rw [parse, c.tokens_text, hvalue]
    exact List.mem_singleton_self _
  have hlt : D < c.tree.depth 1 := Chain.lt_depth_tree x ⟨.plus, x⟩ D
  rw [Statement.depth] at hle
  omega

end Monkey
