import Monkey.Proofs.Brackets
import Monkey.Proofs.Prices

/-! A trace counts the tree. In the trace of a clean parse each node has left the lines of its own
calls, once each, and what there is beside them are groups: as many as there are opening parentheses
that belong to no node, and an expression in each. -/

namespace Monkey

open Monkey.Parser Monkey.Machine

/-! ### Lines -/

/-- The number of lines of a text that begin a call of this name, however far they are indented. -/
def begins (name text : String) : Nat :=
  (text.toList.splitOn '\n').countP fun l => l.dropWhile (· = '\t') = ("BEGIN " ++ name).toList

theorem Rule.name_inj {r r' : Rule} : r.name = r'.name ↔ r = r' := by
  constructor
  · cases r <;> cases r' <;> simp [name]
  · rintro rfl
    rfl

theorem Bracket.dropWhile_line (depth : Nat) {word : String} {c : Char} {cs : List Char}
    (hword : word.toList = c :: cs) (hc : c ≠ '\t') (name : String) :
    (line depth word name).dropWhile (· = '\t') = word.toList ++ name.toList := by
  rw [line, List.append_assoc, List.dropWhile_append_of_pos (by simp), hword]
  simp [hc]

/-- Whether a line of a call begins one by a rule does not depend on how far it is indented. -/
theorem begins_line (depth : Nat) (r r' : Rule) :
    ((Bracket.line depth "BEGIN " r'.name).dropWhile (· = '\t') = ("BEGIN " ++ r.name).toList ↔
      r' = r) ∧
    (Bracket.line depth "END " r'.name).dropWhile (· = '\t') ≠ ("BEGIN " ++ r.name).toList := by
  have hbegin : "BEGIN ".toList = 'B' :: ['E', 'G', 'I', 'N', ' '] := by decide
  have hend : "END ".toList = 'E' :: ['N', 'D', ' '] := by decide
  rw [Bracket.dropWhile_line depth hbegin (by decide), Bracket.dropWhile_line depth hend (by decide),
    String.toList_append]
  constructor
  · rw [List.append_cancel_left_eq, String.toList_inj, Rule.name_inj]
  · simp [hbegin, hend]

namespace Call

mutual

theorem begins_lines (r : Rule) (depth : Nat) (c : Call) :
    (c.bracket.lines depth).countP
        (fun l => l.dropWhile (· = '\t') = ("BEGIN " ++ r.name).toList) = c.rules.count r := by
  obtain ⟨rule, start, stop, complete, calls⟩ := c
  have hinside := begins_linesAll r (depth + 1) calls
  obtain ⟨hbegin, hend⟩ := begins_line depth r rule
  simp only [bracket, Bracket.lines, rules, List.countP_cons, List.countP_append, hinside,
    List.countP_nil, hbegin, hend, List.count_cons]
  simp

theorem begins_linesAll (r : Rule) (depth : Nat) (cs : List Call) :
    (Bracket.linesAll depth (brackets cs)).countP
        (fun l => l.dropWhile (· = '\t') = ("BEGIN " ++ r.name).toList) =
      (rulesAll cs).count r := by
  cases cs with
  | nil => rfl
  | cons c cs =>
    rw [brackets, Bracket.linesAll, List.countP_append, begins_lines r depth c,
      begins_linesAll r depth cs, rulesAll, List.count_append]

end

end Call

/-- The lines of a trace that begin calls by a rule are as many as these calls. -/
theorem begins_traceText (r : Rule) (cs : List Call) :
    begins r.name (traceText cs) = (Call.rulesAll cs).count r := by
  rw [begins, traceText_eq_text, Bracket.splitOn_text (Call.newline_not_mem_linesAll 0 cs),
    List.countP_append, Call.begins_linesAll]
  simp

/-! ### Counting nodes -/

namespace Node

/-- The rule that nodes of this form, and no others, are read by. -/
def rule? : Node → Option Rule
  | expression (.identifier _) => some .identifier
  | expression (.integer _ _) => some .integer
  | expression (.boolean _ _) => some .boolean
  | expression (.unary _ _ _) => some .unary
  | expression (.binary _ _ _ _) => some .binary
  | expression (.ifElse _ _ _ _) => some .ifElse
  | expression (.function _ _ _) => some .function
  | expression (.call _ _ _) => some .call
  | block _ => some .block
  | statement (.letStmt _ _ _) => some .letStmt
  | statement (.returnStmt _ _) => some .returnStmt
  | statement (.exprStmt _ _) => some .exprStmt
  | name _ => none

def isStatement : Node → Bool
  | statement _ => true
  | _ => false

/-- The number of arguments of a call. -/
def arguments : Node → Nat
  | expression (.call _ _ es) => es.length
  | _ => 0

/-- The number of nodes that are read by this rule. -/
def countOf (r : Rule) (ns : List Node) : Nat := ns.countP fun n => n.rule? = some r

theorem countOf_cons (r : Rule) (n : Node) (ns : List Node) :
    countOf r (n :: ns) = countOf r ns + if n.rule? = some r then 1 else 0 := by
  rw [countOf, List.countP_cons]
  simp only [decide_eq_true_eq]
  rfl

end Node

namespace Prices

theorem nodes_cons (x : Prices) (n : Node) (ns : List Node) :
    x.nodes (n :: ns) = x.node n + x.nodes ns := by
  rw [nodes, List.map_cons, List.sum_cons]
  rfl

/-- One for each call by a rule that has nothing to do with groups. -/
def single (r : Rule) (hg : r ≠ .group) (he : r ≠ .expression) : Prices where
  call r' := if r' = r then 1 else 0
  paren := 0
  group := by simp [hg.symm, he.symm]

/-- One for each group, which an opening parenthesis pays for. -/
def groups : Prices where
  call r := if r = .group then 1 else 0
  paren := -1
  group := rfl

/-- One for each expression that is read as one, without those in groups. -/
def expressions : Prices where
  call r := (if r = .expression then 1 else 0) - if r = .group then 1 else 0
  paren := 0
  group := rfl

theorem sum_indicator {α : Type} (p : α → Prop) [DecidablePred p] (as : List α) :
    (as.map fun a => if p a then (1 : Int) else 0).sum = as.countP fun a => p a := by
  induction as with
  | nil => rfl
  | cons a as ih =>
    rw [List.map_cons, List.sum_cons, ih, List.countP_cons]
    by_cases h : p a <;> simp [h, Int.add_comm]

theorem calls_single {r : Rule} (hg : r ≠ .group) (he : r ≠ .expression) (cs : List Call) :
    (single r hg he).calls cs = (Call.rulesAll cs).count r := sum_indicator (· = r) _

theorem calls_groups (cs : List Call) : groups.calls cs = (Call.rulesAll cs).count .group :=
  sum_indicator (· = Rule.group) _

theorem tokens_groups (ts : List Token) :
    groups.tokens ts = -(ts.countP (·.kind = .leftParen) : Nat) := Int.neg_one_mul _

theorem calls_expressions (cs : List Call) : expressions.calls cs =
    (Call.rulesAll cs).count .expression - (Call.rulesAll cs).count .group := by
  rw [calls]
  induction Call.rulesAll cs with
  | nil => rfl
  | cons r rs ih =>
    rw [List.map_cons, List.sum_cons, ih, List.count_cons, List.count_cons]
    cases r <;> simp [expressions] <;> omega

theorem nodes_eq_countP {x : Prices} {p : Node → Prop} [DecidablePred p]
    (h : ∀ n, x.node n = if p n then 1 else 0) (ns : List Node) :
    x.nodes ns = ns.countP fun n => p n := by
  rw [nodes, List.map_congr_left fun n _ => h n, sum_indicator]

theorem node_single {r : Rule} (hg : r ≠ .group) (he : r ≠ .expression) (hs : r ≠ .statement)
    (n : Node) : (single r hg he).node n = if n.rule? = some r then 1 else 0 := by
  obtain ⟨e⟩ | b | ⟨s⟩ | n := n
  · cases e <;> simp [node, single, Node.rule?, he.symm]
  · simp [node, single, Node.rule?]
  · cases s <;> simp [node, single, Node.rule?, he.symm, hs.symm]
  · simp [node, single, Node.rule?]

theorem node_statement (n : Node) :
    (single .statement nofun nofun).node n = if n.isStatement then 1 else 0 := by
  obtain ⟨e⟩ | b | ⟨s⟩ | n := n
  · cases e <;> simp [node, single, Node.isStatement]
  · simp [node, single, Node.isStatement]
  · cases s <;> simp [node, single, Node.isStatement]
  · simp [node, single, Node.isStatement]

theorem nodes_groups (ns : List Node) : groups.nodes ns =
    -(Node.countOf .call ns + Node.countOf .ifElse ns + Node.countOf .function ns : Nat) := by
  induction ns with
  | nil => rfl
  | cons n ns ih =>
    rw [nodes_cons, ih]
    simp only [Node.countOf_cons]
    obtain ⟨e⟩ | b | ⟨s⟩ | n := n
    · cases e <;> simp [node, groups, Node.rule?] <;> omega
    · simp [node, groups, Node.rule?]
    · cases s <;> simp [node, groups, Node.rule?]
    · simp [node, groups, Node.rule?]

theorem nodes_expressions (ns : List Node) : expressions.nodes ns =
    (ns.countP Node.isStatement + Node.countOf .unary ns + Node.countOf .binary ns +
      Node.countOf .ifElse ns + (ns.map Node.arguments).sum : Nat) := by
  induction ns with
  | nil => rfl
  | cons n ns ih =>
    rw [nodes_cons, ih]
    simp only [Node.countOf_cons, List.countP_cons, List.map_cons, List.sum_cons]
    obtain ⟨e⟩ | b | ⟨s⟩ | n := n
    · cases e <;> simp [node, expressions, Node.rule?, Node.isStatement, Node.arguments] <;> omega
    · simp [node, expressions, Node.rule?, Node.isStatement, Node.arguments]
    · cases s <;> simp [node, expressions, Node.rule?, Node.isStatement, Node.arguments] <;> omega
    · simp [node, expressions, Node.rule?, Node.isStatement, Node.arguments]

end Prices

/-- Once a source is read without a diagnostic, its trace counts the nodes of its program. Calls by a
rule of one form of nodes are as many as these, and calls for statements as many as all statements.
The opening parentheses are those of groups, calls, conditionals and functions. Expressions are read
in statements, behind operators, as conditions and arguments, and in groups. -/
theorem trace_counts {source : String} (hn : '\x00' ∉ source.toList)
    (hd : (parse source).diagnostics = []) :
    let text := traceText (parse source).calls
    let nodes := (parse source).value.nodes
    ReadsTo source (some (.empty none)) (parse source).value [] (some ⟨text.toUTF8, none⟩) ∧
    (∀ n, n ∈ nodes ↔ n.Of (parse source).value) ∧
    (∀ r : Rule, r ≠ .statement → r ≠ .expression → r ≠ .group →
      begins r.name text = Node.countOf r nodes) ∧
    begins "parse_statement" text = nodes.countP Node.isStatement ∧
    begins "parse_grouped_expression" text + Node.countOf .call nodes + Node.countOf .ifElse nodes +
      Node.countOf .function nodes = (lex source).countP (·.kind = .leftParen) ∧
    begins "parse_expression" text = nodes.countP Node.isStatement + Node.countOf .unary nodes +
      Node.countOf .binary nodes + Node.countOf .ifElse nodes + (nodes.map Node.arguments).sum +
      begins "parse_grouped_expression" text := by
  intro text nodes
  have hcosts (x : Prices) : x.calls (parse source).calls + x.tokens (lex source) = x.nodes nodes := by
    rw [lex_eq_tokens hn]
    exact Grammar.program_costs x (Token.stream_unmarked hn) hd
  have hsink := readsTo source (some (.empty none))
  simp only [Option.map_some, Sink.empty_write, hd] at hsink
  have hbegins (r : Rule) : begins r.name text = (Call.rulesAll (parse source).calls).count r :=
    begins_traceText r _
  have hsingle (r : Rule) (hg : r ≠ .group) (he : r ≠ .expression) :
      (Prices.single r hg he).nodes nodes = begins r.name text := by
    have htokens : (Prices.single r hg he).tokens (lex source) = 0 := Int.zero_mul _
    rw [← hcosts, hbegins, Prices.calls_single, htokens, Int.add_zero]
  have hgroup : begins "parse_grouped_expression" text = _ := hbegins .group
  have hexpression : begins "parse_expression" text = _ := hbegins .expression
  refine ⟨hsink, fun n => Program.mem_nodes_iff, fun r hs he hg => ?_, ?_, ?_, ?_⟩
  · have h := Prices.nodes_eq_countP (Prices.node_single hg he hs) nodes
    rw [hsingle] at h
    exact Int.ofNat.inj h
  · have h := Prices.nodes_eq_countP Prices.node_statement nodes
    simp only [hsingle, Bool.decide_eq_true] at h
    exact Int.ofNat.inj h
  · have h := hcosts .groups
    rw [Prices.nodes_groups, Prices.calls_groups, Prices.tokens_groups] at h
    omega
  · have h := hcosts .expressions
    have htokens : Prices.expressions.tokens (lex source) = 0 := Int.zero_mul _
    rw [Prices.nodes_expressions, Prices.calls_expressions, htokens] at h
    omega

theorem trace_counts_groups :
    let source := "let f = fn(x, y) \x7b return -(x + 1) * y; \x7d; if (f(1, (2))) \x7b !true \x7d else \x7b f"
    let text := traceText (parse source).calls
    '\x00' ∉ source.toList ∧ (parse source).diagnostics = [] ∧
      begins "parse_call_expression" text = 1 ∧ begins "parse_statement" text = 5 ∧
      begins "parse_grouped_expression" text + 1 + 1 + 1 = 5 ∧
      begins "parse_expression" text = 5 + 2 + 2 + 1 + 2 + 2 := by
  intro source text
  have hn : '\x00' ∉ source.toList := by decide
  have hd : (parse source).diagnostics = [] := by decide +kernel
  obtain ⟨-, -, hof, hstatements, hgroups, hexpressions⟩ := trace_counts hn hd
  have hcall := hof .call nofun nofun nofun
  have hnodes : let nodes := (parse source).value.nodes
      Node.countOf .call nodes = 1 ∧ Node.countOf .ifElse nodes = 1 ∧
      Node.countOf .function nodes = 1 ∧ Node.countOf .unary nodes = 2 ∧
      Node.countOf .binary nodes = 2 ∧ nodes.countP Node.isStatement = 5 ∧
      (nodes.map Node.arguments).sum = 2 := by decide +kernel
  have hparens : (lex source).countP (·.kind = .leftParen) = 5 := by decide +kernel
  obtain ⟨hc, hi, hf, hu, hb, hs, ha⟩ := hnodes
  rw [hc] at hcall
  rw [hs] at hstatements
  rw [hc, hi, hf, hparens] at hgroups
  rw [hs, hu, hb, hi, ha] at hexpressions
  refine ⟨hn, hd, hcall, hstatements, hgroups, ?_⟩
  rw [hexpressions]
  omega

end Monkey
