import Monkey.Token.Basic

/-! Reading tokens off a text. The text ahead is a list of characters and each token
is the longest that fits: a run of letters, a run of digits, one of the two
two-character operators, or else a single character. A token read leaves a strictly
shorter text, so the whole stream is finite. A null character yields an
end-of-input mark of its own and the text behind it is read on request. -/

namespace Monkey

/-- Letters are the ASCII letters and the underscore. -/
def isLetter (c : Char) : Bool := c.isAlpha || c == '_'

namespace Token

/-- The token at the head of the text `c :: cs`, and the text behind it. -/
def lexeme (c : Char) (cs : List Char) : Token × List Char :=
  if isLetter c then
    (ofWord (String.ofList (c :: cs.takeWhile isLetter)), cs.dropWhile isLetter)
  else if c.isDigit then
    (⟨.integer, String.ofList (c :: cs.takeWhile Char.isDigit)⟩, cs.dropWhile Char.isDigit)
  else
    match c, cs with
    | '=', '=' :: rest => (⟨.equal, "=="⟩, rest)
    | '!', '=' :: rest => (⟨.notEqual, "!="⟩, rest)
    | _, _ => (ofChar c, cs)

/-- Skips blanks and reads one token, or returns `none` when nothing but blanks is left. -/
def scan? (text : List Char) : Option (Token × List Char) :=
  match text.dropWhile Char.isWhitespace with
  | [] => none
  | c :: cs => some (lexeme c cs)

theorem lexeme_length (c : Char) (cs : List Char) : (lexeme c cs).2.length ≤ cs.length := by
  unfold lexeme
  split
  · exact (List.dropWhile_sublist isLetter).length_le
  · split
    · exact (List.dropWhile_sublist Char.isDigit).length_le
    · split <;> simp

theorem scan?_length {text : List Char} {t : Token} {rest : List Char}
    (h : scan? text = some (t, rest)) : rest.length < text.length := by
  unfold scan? at h
  have blanks := (List.dropWhile_sublist Char.isWhitespace (l := text)).length_le
  split at h
  · contradiction
  · next c cs hd =>
    have hl := lexeme_length c cs
    rw [hd, List.length_cons] at blanks
    rw [Option.some.inj h] at hl
    simp only at hl
    omega

/-- All tokens of a text in order, the marks of null characters included. The real end
of the text has no mark. -/
def stream (text : List Char) : List Token :=
  match _ : scan? text with
  | none => []
  | some (t, rest) => t :: stream rest
termination_by text.length
decreasing_by exact scan?_length ‹_›

theorem stream_of_none {text : List Char} (h : scan? text = none) : stream text = [] := by
  rw [stream]
  split
  · rfl
  · simp_all

theorem stream_nil : stream [] = [] := stream_of_none rfl

theorem stream_of_some {text rest : List Char} {t : Token} (h : scan? text = some (t, rest)) :
    stream text = t :: stream rest := by
  rw [stream]
  split <;> simp_all

end Token

/-- A text being read token by token. -/
structure Lexer where
  ahead : List Char

namespace Lexer

def ofString (source : String) : Lexer := ⟨source.toList⟩

/-- The next token. At the end of the text that is the end-of-input mark, each time. -/
def next (l : Lexer) : Token × Lexer :=
  match Token.scan? l.ahead with
  | none => (.endOfInput, ⟨[]⟩)
  | some (t, rest) => (t, ⟨rest⟩)

/-- The next token unless it is an end-of-input mark, which is consumed. -/
def next? (l : Lexer) : Option Token × Lexer :=
  let (t, rest) := l.next
  (if t.kind = .endOfInput then none else some t, rest)

/-- The lexer after `n` tokens. -/
def skip : Nat → Lexer → Lexer
  | 0, l => l
  | n + 1, l => skip n l.next.2

/-- The tokens before the next end-of-input mark, and the lexer behind that mark. -/
def collect (l : Lexer) : List Token × Lexer :=
  match _ : Token.scan? l.ahead with
  | none => ([], ⟨[]⟩)
  | some (t, rest) =>
    if t.kind = .endOfInput then ([], ⟨rest⟩)
    else
      let (ts, l') := collect ⟨rest⟩
      (t :: ts, l')
termination_by l.ahead.length
decreasing_by exact Token.scan?_length ‹_›

theorem collect_of_none {text : List Char} (h : Token.scan? text = none) :
    collect ⟨text⟩ = ([], ⟨[]⟩) := by
  rw [collect]
  split
  · rfl
  · simp_all

theorem collect_of_mark {text rest : List Char} {t : Token} (h : Token.scan? text = some (t, rest))
    (ht : t.kind = .endOfInput) : collect ⟨text⟩ = ([], ⟨rest⟩) := by
  rw [collect]
  split
  · simp_all
  · next t' rest' h' =>
    obtain ⟨rfl, rfl⟩ : t' = t ∧ rest' = rest := by simpa using h'.symm.trans h
    exact if_pos ht

theorem collect_of_token {text rest : List Char} {t : Token}
    (h : Token.scan? text = some (t, rest)) (ht : t.kind ≠ .endOfInput) :
    collect ⟨text⟩ = (t :: (collect ⟨rest⟩).1, (collect ⟨rest⟩).2) := by
  rw [collect]
  split
  · simp_all
  · next t' rest' h' =>
    obtain ⟨rfl, rfl⟩ : t' = t ∧ rest' = rest := by simpa using h'.symm.trans h
    exact if_neg ht

/-- Every token ahead. -/
def tokens (l : Lexer) : List Token := Token.stream l.ahead

theorem next_fst (l : Lexer) : l.next.1 = l.tokens.headD .endOfInput := by
  unfold next tokens
  cases hs : Token.scan? l.ahead with
  | none =>
    rw [Token.stream_of_none hs]
    rfl
  | some r =>
    rw [Token.stream_of_some hs]
    rfl

theorem tokens_next (l : Lexer) : l.next.2.tokens = l.tokens.tail := by
  unfold next tokens
  cases hs : Token.scan? l.ahead with
  | none =>
    rw [Token.stream_of_none hs]
    exact Token.stream_nil
  | some r =>
    rw [Token.stream_of_some hs]
    rfl

end Lexer

/-- The tokens of a source up to its first end-of-input mark. -/
def lex (source : String) : List Token := (Lexer.ofString source).collect.1

end Monkey
