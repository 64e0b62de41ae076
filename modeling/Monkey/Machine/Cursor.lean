import Monkey.Token.Lexer

/-! Reading a text character by character. A cursor holds the whole text and moves through it in
one direction; it keeps the current character, and a null character stands for the one behind the
end. Words and numbers are read up to the first character that is not of theirs, which stays the
current one; every other token is stepped over. A loop that never comes to its end has no result. -/

namespace Monkey.Machine

/-- A place in a text that is being read. -/
structure Cursor where
  text : Array Char
  /-- The place of the current character; the length of the text behind its end. -/
  place : Nat
  /-- The place that is read next. -/
  next : Nat
  current : Char
deriving DecidableEq

namespace Cursor

/-- Moves onto the next character. At the end of the text the cursor stays put. -/
def read (c : Cursor) : Cursor :=
  match c.text[c.next]? with
  | some d => { c with place := c.next, next := c.next + 1, current := d }
  | none => { c with place := c.text.size, next := c.text.size, current := '\x00' }

def ofString (source : String) : Cursor := read ⟨source.toList.toArray, 0, 0, '\x00'⟩

/-- The character that is read next. -/
def peek (c : Cursor) : Char := c.text[c.next]?.getD '\x00'

theorem read_of_le {c : Cursor} (h : c.text.size ≤ c.next) :
    c.read = ⟨c.text, c.text.size, c.text.size, '\x00'⟩ := by
  simp [read, Array.getElem?_eq_none h]

theorem read_of_lt {c : Cursor} (h : c.next < c.text.size) :
    c.read = ⟨c.text, c.next, c.next + 1, c.text[c.next]⟩ := by
  simp [read, Array.getElem?_eq_getElem h]

/-- Moves on for as long as the current character is accepted. Where moving on changes nothing,
it would be accepted for ever. -/
def skipWhile (accept : Char → Bool) (c : Cursor) : Option Cursor :=
  if accept c.current then
    if c.read = c then none else skipWhile accept c.read
  else some c
termination_by 2 * (c.text.size - c.next) + if c.read = c then 0 else 1
decreasing_by
  rename_i hmoved
  by_cases hlt : c.next < c.text.size
  · rw [if_neg hmoved, read_of_lt hlt]
    split <;> simp only <;> omega
  -- Behind the end one step may still change the place, and the next one changes nothing.
  · rw [if_neg hmoved, read_of_le (by omega), if_pos (read_of_le (Nat.le_refl _))]
    simp only
    omega

/-- What stands from the current character up to the first that is not accepted. -/
def readWhile (accept : Char → Bool) (c : Cursor) : Option (String × Cursor) := do
  let c' ← skipWhile accept c
  return (String.ofList (c.text.extract c.place c'.place).toList, c')

/-- The token at the current character, and the cursor behind it. -/
def lexeme (c : Cursor) : Option (Token × Cursor) :=
  if c.current = '=' ∧ c.peek = '=' then
    some (⟨.equal, "=="⟩, c.read.read)
  else if c.current = '!' ∧ c.peek = '=' then
    some (⟨.notEqual, "!="⟩, c.read.read)
  else if isLetter c.current then do
    let (word, c) ← c.readWhile isLetter
    return (.ofWord word, c)
  else if c.current.isDigit then do
    let (digits, c) ← c.readWhile Char.isDigit
    return (⟨.integer, digits⟩, c)
  else
    some (.ofChar c.current, c.read)

/-- The next token, behind all blanks. -/
def token (c : Cursor) : Option (Token × Cursor) := do
  let c ← c.skipWhile Char.isWhitespace
  c.lexeme

/-- The next `n` tokens, and the cursor behind them. -/
def take : Nat → Cursor → Option (List Token × Cursor)
  | 0, c => some ([], c)
  | n + 1, c => do
    let (t, c) ← c.token
    let (ts, c) ← take n c
    return (t :: ts, c)

end Cursor

/-! ### Uses -/

/-- What is done with the tokens of a text: they are drawn one at a time, and those drawn decide
how it goes on. -/
inductive Use (α : Type) : Type where
  | done (a : α)
  | draw (next : Token → Use α)

namespace Use

variable {α : Type}

/-- What an iterator gives: a token, unless it is an end-of-input mark. -/
def item : Use (Option Token) := draw fun t => done (if t.kind = .endOfInput then none else some t)

/-- What comes of a use with the tokens behind a cursor. -/
def run : Use α → Cursor → Option α
  | done a, _ => some a
  | draw next, c => do
    let (t, c) ← c.token
    (next t).run c

end Use

/-- No use of one cursor comes to anything else than the same use of the other, and none fails
to come to an end. -/
def Cursor.Alike (c d : Cursor) : Prop :=
  ∀ (α : Type) (u : Use α), ∃ a, u.run c = some a ∧ u.run d = some a

end Monkey.Machine
