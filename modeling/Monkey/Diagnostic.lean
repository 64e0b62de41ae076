import Monkey.Token.Basic

/-! Why a statement could not be read. A statement is dropped for exactly one cause. -/

namespace Monkey

/-- The cause for which a statement is dropped. -/
inductive Diagnostic where
  /-- A token of one kind has to follow, and one of another kind does. -/
  | unexpected (want got : Kind)
  /-- No expression starts with a token of this kind. -/
  | noOperand (got : Kind)
  /-- The value of an integer literal exceeds 64 bits. -/
  | integerTooLarge (literal : String)
  | nestingTooDeep (limit : Nat)
deriving DecidableEq, Repr

def Diagnostic.message : Diagnostic → String
  | unexpected want got => "expected next token to be " ++ want.name ++ ", got " ++ got.name ++ " instead"
  | noOperand got => "no prefix parse function for " ++ got.name ++ " found"
  | integerTooLarge literal => "could not parse " ++ literal ++ " as integer"
  | nestingTooDeep limit => "expression nested deeper than " ++ Nat.repr limit ++ " levels"

end Monkey
