import Monkey.Trace

/-! Measures of the calls that a parse is made of: how many calls at any depth have a
property, and how many expressions are open at once. -/

namespace Monkey

mutual

/-- The number of calls with the property `p` inside a call, itself included. -/
def Call.count (p : Call → Bool) : Call → Nat
  | ⟨rule, start, stop, complete, calls⟩ =>
    Call.countAll p calls + if p ⟨rule, start, stop, complete, calls⟩ then 1 else 0

def Call.countAll (p : Call → Bool) : List Call → Nat
  | [] => 0
  | c :: cs => c.count p + Call.countAll p cs

end

mutual

/-- The largest number of expressions that are open at once inside a call, itself included. -/
def Call.nesting : Call → Nat
  | ⟨rule, _, _, _, calls⟩ => Call.nestingAll calls + if rule = .expression then 1 else 0

def Call.nestingAll : List Call → Nat
  | [] => 0
  | c :: cs => max c.nesting (Call.nestingAll cs)

end

namespace Call

@[simp] theorem countAll_append (p : Call → Bool) (cs ds : List Call) :
    countAll p (cs ++ ds) = countAll p cs + countAll p ds := by
  induction cs with
  | nil => simp [countAll]
  | cons c cs ih => simp only [List.cons_append, countAll, ih, Nat.add_assoc]

@[simp] theorem nestingAll_append (cs ds : List Call) :
    nestingAll (cs ++ ds) = max (nestingAll cs) (nestingAll ds) := by
  induction cs with
  | nil => simp [nestingAll]
  | cons c cs ih => simp only [List.cons_append, nestingAll, ih, Nat.max_assoc]

theorem nestingAll_expression (ts us : List Token) (ok : Bool) (cs : List Call) :
    nestingAll [⟨.expression, ts, us, ok, cs⟩] = nestingAll cs + 1 := by
  simp [nestingAll, nesting]

theorem nestingAll_rule {r : Rule} (hr : r ≠ .expression) (ts us : List Token) (ok : Bool)
    (cs : List Call) : nestingAll [⟨r, ts, us, ok, cs⟩] = nestingAll cs := by
  simp [nestingAll, nesting, hr]

/-- Whether a call is a block that ended with the input and not at a brace. -/
def leavesOpen (c : Call) : Bool := c.rule = .block && c.stop.isEmpty

end Call

/-- The number of blocks that were still open at the end of the input. -/
def openBlocks (cs : List Call) : Nat := Call.countAll Call.leavesOpen cs

@[simp] theorem openBlocks_nil : openBlocks [] = 0 := rfl

@[simp] theorem openBlocks_append (cs ds : List Call) :
    openBlocks (cs ++ ds) = openBlocks cs + openBlocks ds := Call.countAll_append _ cs ds

theorem openBlocks_block (ts us : List Token) (ok : Bool) (cs : List Call) :
    openBlocks [⟨.block, ts, us, ok, cs⟩] = openBlocks cs + if us = [] then 1 else 0 := by
  simp [openBlocks, Call.countAll, Call.count, Call.leavesOpen]

theorem openBlocks_rule {r : Rule} (hr : r ≠ .block) (ts us : List Token) (ok : Bool)
    (cs : List Call) : openBlocks [⟨r, ts, us, ok, cs⟩] = openBlocks cs := by
  simp [openBlocks, Call.countAll, Call.count, Call.leavesOpen, hr]

end Monkey
