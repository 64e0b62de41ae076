import Monkey.Token.Basic

/-! The calls that a parse is made of. A call names the rule of the grammar that was
applied and holds the calls made inside it, so the calls of a parse form a forest; it
also keeps the tokens that were ahead when the rule was entered and when it was left,
and whether the rule was completed. The text of a trace shows the rules alone: a line
at each entry and exit, indented by the number of calls still open around it. -/

namespace Monkey

/-- A rule of the grammar that appears in traces. -/
inductive Rule where
  | statement
  | letStmt
  | returnStmt
  | exprStmt
  | block
  | expression
  | identifier
  | integer
  | boolean
  | unary
  | binary
  | group
  | ifElse
  | function
  | call
deriving DecidableEq, Repr

/-- The name of a rule in the text of a trace. -/
def Rule.name : Rule → String
  | statement => "parse_statement"
  | letStmt => "parse_let_statement"
  | returnStmt => "parse_return_statement"
  | exprStmt => "parse_expression_statement"
  | block => "parse_block_statement"
  | expression => "parse_expression"
  | identifier => "parse_identifier"
  | integer => "parse_integer_literal"
  | boolean => "parse_boolean"
  | unary => "parse_prefix_expression"
  | binary => "parse_infix_expression"
  | group => "parse_grouped_expression"
  | ifElse => "parse_if_expression"
  | function => "parse_function_literal"
  | call => "parse_call_expression"

/-- One application of a rule. `start` and `stop` are the tokens ahead, the current one
first, at its entry and at its exit. -/
structure Call where
  rule : Rule
  start : List Token
  stop : List Token
  complete : Bool
  calls : List Call

mutual

/-- The lines of a call that is made inside `depth` others. -/
def Call.lines (depth : Nat) : Call → List String
  | ⟨rule, _, _, _, calls⟩ =>
    ("".pushn '\t' depth ++ "BEGIN " ++ rule.name) ::
      (Call.linesAll (depth + 1) calls ++ ["".pushn '\t' depth ++ "END " ++ rule.name])

def Call.linesAll (depth : Nat) : List Call → List String
  | [] => []
  | c :: cs => c.lines depth ++ Call.linesAll depth cs

end

theorem toList_pushn (s : String) (c : Char) (n : Nat) :
    (s.pushn c n).toList = s.toList ++ List.replicate n c := by
  rw [String.pushn_eq_repeat_push]
  induction n with
  | zero => simp [Nat.repeat]
  | succ n ih => simp [Nat.repeat, ih, List.replicate_succ']

/-- The text of a trace, each line with its newline. -/
def traceText (calls : List Call) : String :=
  String.join ((Call.linesAll 0 calls).map (· ++ "\n"))

theorem Call.linesAll_append (depth : Nat) (cs ds : List Call) :
    Call.linesAll depth (cs ++ ds) = Call.linesAll depth cs ++ Call.linesAll depth ds := by
  induction cs with
  | nil => rfl
  | cons c cs ih => simp only [List.cons_append, Call.linesAll, ih, List.append_assoc]

end Monkey
