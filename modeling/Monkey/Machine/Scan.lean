import Monkey.Machine.Cursor

/-! Reading a token step by step. A call for a token skips blanks; then it reads a run of letters or
of digits, or it knows the token and steps over its last character. A step reads one character at
most, and there is no step that accesses the text out of range: where one would, the scan is
stuck. -/

namespace Monkey.Machine

namespace Cursor

/-- Moves onto the next character, which has to be one of the text unless none is left. -/
def read? (c : Cursor) : Option Cursor :=
  if c.text.size ≤ c.next then
    some { c with place := c.text.size, next := c.text.size, current := '\x00' }
  else do
    let d ← c.text[c.next]?
    return { c with place := c.next, next := c.next + 1, current := d }

/-- The text from one place up to another, which have to be in order and in the text. -/
def slice? (c : Cursor) (start stop : Nat) : Option String :=
  if start ≤ stop ∧ stop ≤ c.text.size then
    some (String.ofList (c.text.extract start stop).toList)
  else none

end Cursor

/-- The runs of characters that are tokens. -/
inductive RunForm where
  | word
  | number

def RunForm.accepts : RunForm → Char → Bool
  | word => isLetter
  | number => Char.isDigit

def RunForm.token : RunForm → String → Token
  | word, text => .ofWord text
  | number, text => ⟨.integer, text⟩

/-- How far a call for a token has come. -/
inductive Stage where
  | blanks
  /-- A run is being read, which begins at this place. -/
  | run (form : RunForm) (start : Nat)
  /-- The token is known; its last character is the current one. -/
  | last (t : Token)

/-- A call for a token that is being answered. -/
structure Scan where
  stage : Stage
  cursor : Cursor

namespace Scan

/-- What a step leads to. -/
inductive Next where
  | more (x : Scan)
  | given (t : Token) (c : Cursor)

def Next.cursor : Next → Cursor
  | more x => x.cursor
  | given _ c => c

/-- A call that has just been made. -/
def ofCursor (c : Cursor) : Scan := ⟨.blanks, c⟩

/-- The next step, unless it would access the text out of range. -/
def step : Scan → Option Next
  | ⟨.blanks, c⟩ =>
    if c.current.isWhitespace then do
      return .more ⟨.blanks, ← c.read?⟩
    else if c.current = '=' ∧ c.peek = '=' then do
      return .more ⟨.last ⟨.equal, "=="⟩, ← c.read?⟩
    else if c.current = '!' ∧ c.peek = '=' then do
      return .more ⟨.last ⟨.notEqual, "!="⟩, ← c.read?⟩
    else if isLetter c.current then
      some (.more ⟨.run .word c.place, c⟩)
    else if c.current.isDigit then
      some (.more ⟨.run .number c.place, c⟩)
    else
      some (.more ⟨.last (.ofChar c.current), c⟩)
  | ⟨.run form start, c⟩ =>
    if form.accepts c.current then do
      return .more ⟨.run form start, ← c.read?⟩
    else do
      return .given (form.token (← c.slice? start c.place)) c
  | ⟨.last t, c⟩ => do
    return .given t (← c.read?)

/-- After some steps the call gives this token, and leaves this cursor. -/
inductive Gives : Scan → Token → Cursor → Prop where
  | last {x : Scan} {t : Token} {c : Cursor} : x.step = some (.given t c) → Gives x t c
  | more {x y : Scan} {t : Token} {c : Cursor} : x.step = some (.more y) → Gives y t c → Gives x t c

/-- The moments from this one on, in whatever calls are made behind one another. -/
inductive Leads (x : Scan) : Scan → Prop where
  | refl : Leads x x
  | more {y z : Scan} : Leads x y → y.step = some (.more z) → Leads x z
  | again {y : Scan} {t : Token} {c : Cursor} :
    Leads x y → y.step = some (.given t c) → Leads x (ofCursor c)

/-- The moments of reading a source, from the first call on. -/
def Reached (source : String) (x : Scan) : Prop := (ofCursor (.ofString source)).Leads x

end Scan

/-! ### Calls -/

/-- The two ways to ask for what comes next: for a token, or for an item, which is missing where
the token is an end-of-input mark. -/
inductive Pull where
  | token
  | item

def Pull.answer : Pull → Token → Option Token
  | token, t => some t
  | item, t => if t.kind = .endOfInput then none else some t

/-- The answers to calls that are made one after another, and the cursor behind them. -/
def Cursor.pull : List Pull → Cursor → Option (List (Option Token) × Cursor)
  | [], c => some ([], c)
  | p :: ps, c => do
    let (t, c) ← c.token
    let (answers, c) ← pull ps c
    return (p.answer t :: answers, c)

end Monkey.Machine
