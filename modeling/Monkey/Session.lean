import Monkey.Reading
import Monkey.Text.Blank
import Monkey.Tree.Printer

/-! An interactive session: a prompt, a line, a reply, until a line says to leave or the
input ends. Each reply depends on its line alone. A session fails when a line is not
UTF-8 or when its output is not accepted, and has then written all that came before. -/

namespace Monkey

/-- Why a session breaks off. -/
inductive Failure where
  | sinkFull
  | invalidText
deriving DecidableEq, Repr

def Failure.message : Failure → String
  | sinkFull => "sink full"
  | invalidText => "stream did not contain valid UTF-8"

/-- The text that lists messages, one to a line. -/
def errorReport (messages : List String) : String :=
  "parser errors:\n" ++ String.join (messages.map fun m => "\t" ++ m ++ "\n")

/-- What is said to a source: its canonical text if all of it could be read, otherwise
the reasons why not. -/
def respond (source : String) : String :=
  let o := parse source
  if o.diagnostics.isEmpty then o.value.render ++ "\n"
  else errorReport (o.diagnostics.map Diagnostic.message)

/-- The reply to a line. -/
inductive Reply where
  | silence
  | farewell
  | text (response : String)

/-- Blanks around a line do not count, and neither does the case of the word `exit`. -/
def Reply.ofLine (line : String) : Reply :=
  match trim line.toList with
  | [] => silence
  | source =>
    if source.map Char.toLower = "exit".toList then farewell
    else text (respond (String.ofList source))

/-- Actions that write to a sink and may fail. -/
abbrev Output := EStateM Failure Sink

/-- Writes a text, and fails if not all of it is accepted. -/
def Output.write (text : String) : Output Unit := fun s =>
  match s.write text with
  | (s, true) => .ok () s
  | (s, false) => .error .sinkFull s

/-- The lines of an input, each with its newline; the last may lack one. -/
def linesOf : List UInt8 → List (List UInt8)
  | [] => []
  | b :: bs =>
    if b = 10 then [b] :: linesOf bs
    else
      match linesOf bs with
      | [] => [[b]]
      | l :: ls => (b :: l) :: ls

namespace Session

def prompt : String := ">> "

/-- Replies to a line, and tells whether the session goes on. -/
def replyTo (line : List UInt8) : Output Bool :=
  match String.fromUTF8? line.toByteArray with
  | none => throw .invalidText
  | some line =>
    match Reply.ofLine line with
    | .silence => return true
    | .farewell => return false
    | .text response => do
      Output.write response
      return true

/-- The session over the lines that are still to come. -/
def run : List (List UInt8) → Output Unit
  | [] => do
    Output.write prompt
    Output.write "\n"
  | line :: rest => do
    Output.write prompt
    if ← replyTo line then run rest

/-- The session over an input. -/
def overInput (input : ByteArray) : Output Unit := run (linesOf input.data.toList)

end Session

end Monkey
