import Monkey.Token.Basic

/-! How tightly operators bind. An expression read at one precedence takes in every
operator of a higher one; a token that is no operator has the lowest. -/

namespace Monkey

inductive Precedence where
  | lowest
  | equals
  | comparison
  | sum
  | product
  | unary
  | call
deriving DecidableEq, Repr

namespace Precedence

/-- The place of a precedence in the order, from the loosest. -/
def rank : Precedence → Nat
  | lowest => 0
  | equals => 1
  | comparison => 2
  | sum => 3
  | product => 4
  | unary => 5
  | call => 6

instance : LT Precedence where
  lt p q := p.rank < q.rank

instance (p q : Precedence) : Decidable (p < q) := inferInstanceAs (Decidable (p.rank < q.rank))

instance : Ord Precedence where
  compare p q := compare p.rank q.rank

theorem lt_iff_rank_lt {p q : Precedence} : p < q ↔ p.rank < q.rank := Iff.rfl

end Precedence

/-- The precedence of a token that follows an operand. -/
def Kind.precedence : Kind → Precedence
  | equal | notEqual => .equals
  | less | greater => .comparison
  | plus | minus => .sum
  | star | slash => .product
  | leftParen => .call
  | _ => .lowest

end Monkey
