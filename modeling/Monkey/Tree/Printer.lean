import Monkey.Tree.Basic

/-! The canonical text of a tree. Every operator application is parenthesised, so the
text shows how the source was grouped; an integer or a boolean is printed by its
token's literal and a name by its value. Statements of a block or a program follow
one another without a separator. -/

namespace Monkey

def UnaryOp.symbol (op : UnaryOp) : String := op.kind.name

def BinaryOp.symbol (op : BinaryOp) : String := op.kind.name

mutual

def Expr.render : Expr → String
  | .identifier name => name.value
  | .integer token _ => token.literal
  | .boolean token _ => token.literal
  | .unary _ op operand => "(" ++ op.symbol ++ operand.render ++ ")"
  | .binary _ op left right => "(" ++ left.render ++ " " ++ op.symbol ++ " " ++ right.render ++ ")"
  | .ifElse _ condition consequence alternative =>
    "if" ++ condition.render ++ " " ++ consequence.render ++ Block.renderElse alternative
  | .function token parameters body =>
    token.literal ++ "(" ++ ", ".intercalate (parameters.map Identifier.value) ++ ") " ++ body.render
  | .call _ callee arguments => callee.render ++ "(" ++ ", ".intercalate (Expr.renderAll arguments) ++ ")"

def Expr.renderAll : List Expr → List String
  | [] => []
  | e :: es => e.render :: Expr.renderAll es

def Block.render : Block → String
  | ⟨_, statements⟩ => Statement.renderAll statements

/-- The alternative of a conditional with its keyword, nothing when there is none. -/
def Block.renderElse : Option Block → String
  | none => ""
  | some block => "else " ++ block.render

def Statement.render : Statement → String
  | .letStmt token name value => token.literal ++ " " ++ name.value ++ " = " ++ value.render ++ ";"
  | .returnStmt token value => token.literal ++ " " ++ value.render ++ ";"
  | .exprStmt _ expression => expression.render

/-- Statements one after another. -/
def Statement.renderAll : List Statement → String
  | [] => ""
  | s :: ss => s.render ++ Statement.renderAll ss

end

def Program.render (p : Program) : String := Statement.renderAll p.statements

theorem Expr.renderAll_eq_map (es : List Expr) : Expr.renderAll es = es.map Expr.render := by
  induction es with
  | nil => rfl
  | cons e es ih => rw [Expr.renderAll, ih, List.map_cons]

theorem Statement.renderAll_append (ss us : List Statement) :
    Statement.renderAll (ss ++ us) = Statement.renderAll ss ++ Statement.renderAll us := by
  induction ss with
  | nil => simp [Statement.renderAll]
  | cons s ss ih => simp only [List.cons_append, Statement.renderAll, ih, String.append_assoc]

theorem Statement.renderAll_eq_join (ss : List Statement) :
    Statement.renderAll ss = String.join (ss.map Statement.render) := by
  induction ss with
  | nil => rfl
  | cons s ss ih => rw [Statement.renderAll, ih, List.map_cons, String.join_cons]

end Monkey
