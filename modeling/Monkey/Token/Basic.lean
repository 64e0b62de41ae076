/-! Tokens of the Monkey language: a kind, and the text it was read from. The kind of
a word is decided by a fixed table of seven keywords, the kind of a single character
by a table of fourteen symbols. -/

namespace Monkey

/-- The category of a token. -/
inductive Kind where
  | illegal
  | endOfInput
  | identifier
  | integer
  | assign
  | plus
  | minus
  | bang
  | star
  | slash
  | less
  | greater
  | equal
  | notEqual
  | comma
  | semicolon
  | leftParen
  | rightParen
  | leftBrace
  | rightBrace
  | kwFn
  | kwLet
  | kwIf
  | kwElse
  | kwReturn
  | kwTrue
  | kwFalse
deriving DecidableEq, Repr

namespace Kind

/-- The name under which a kind appears in listings and messages. -/
def name : Kind → String
  | illegal => "ILLEGAL"
  | endOfInput => "EOF"
  | identifier => "IDENTIFIER"
  | integer => "INT"
  | assign => "="
  | plus => "+"
  | minus => "-"
  | bang => "!"
  | star => "*"
  | slash => "/"
  | less => "<"
  | greater => ">"
  | equal => "=="
  | notEqual => "!="
  | comma => ","
  | semicolon => ";"
  | leftParen => "("
  | rightParen => ")"
  | leftBrace => "\x7b"
  | rightBrace => "\x7d"
  | kwFn => "FUNCTION"
  | kwLet => "LET"
  | kwIf => "if"
  | kwElse => "else"
  | kwReturn => "return"
  | kwTrue => "true"
  | kwFalse => "false"

/-- The kind of a word. Keywords are matched exactly, with regard to case. -/
def ofWord : String → Kind
  | "fn" => kwFn
  | "let" => kwLet
  | "if" => kwIf
  | "else" => kwElse
  | "return" => kwReturn
  | "true" => kwTrue
  | "false" => kwFalse
  | _ => identifier

/-- The kind of a character that is a token on its own. -/
def ofSymbol : Char → Kind
  | '=' => assign
  | '+' => plus
  | '-' => minus
  | '!' => bang
  | '*' => star
  | '/' => slash
  | '<' => less
  | '>' => greater
  | ',' => comma
  | ';' => semicolon
  | '(' => leftParen
  | ')' => rightParen
  | '\x7b' => leftBrace
  | '\x7d' => rightBrace
  | _ => illegal

end Kind

/-- A lexical unit: its kind and the exact text it was read from. -/
structure Token where
  kind : Kind
  literal : String
deriving DecidableEq, Repr

namespace Token

/-- The mark at the end of the input; it has no text. -/
def endOfInput : Token := ⟨.endOfInput, ""⟩

/-- A run of letters, as a keyword or an identifier. -/
def ofWord (word : String) : Token := ⟨.ofWord word, word⟩

/-- A single character. The null character ends the input wherever it stands. -/
def ofChar (c : Char) : Token :=
  if c = '\x00' then endOfInput else ⟨.ofSymbol c, c.toString⟩

/-- The value of a run of ASCII digits, unless it exceeds the largest 64-bit signed integer. -/
def integerValue? (t : Token) : Option Int64 :=
  let n := Nat.ofDigitChars 10 t.literal.toList 0
  if n < 0x8000000000000000 then some (Int64.ofNat n) else none

/-- The line that lists a token. -/
def render (t : Token) : String := t.kind.name ++ " " ++ t.literal

end Token

end Monkey
