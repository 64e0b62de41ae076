import Monkey.Session

/-! A session held over the bytes of an input. Each round writes the prompt and reads bytes up to
a newline, which may be missing at the end; it goes by the line that these bytes are, if they are
UTF-8. What is said is written piece by piece, and the session breaks off at the first piece that
is not accepted. -/

namespace Monkey.Machine

/-! ### Writing -/

/-- Writes pieces of text one after another. -/
def writeAll : List String → Output Unit
  | [] => pure ()
  | piece :: pieces => do
    Output.write piece
    writeAll pieces

/-- Writes error messages, one to a line. -/
def writeMessages : List String → Output Unit
  | [] => pure ()
  | message :: messages => do
    writeAll ["\t", message, "\n"]
    writeMessages messages

/-- Writes error messages under a heading. -/
def printErrors (messages : List String) : Output Unit := do
  Output.write "parser errors:\n"
  writeMessages messages

/-- Reads a source as one program and writes it in its canonical form, or what is wrong with it. -/
def answer (source : String) : Output Unit := do
  let (program, reading) := (Reading.ofLexer (Lexer.ofString source)).program
  let errors := reading.diagnostics.map Diagnostic.message
  if errors.isEmpty then
    writeAll (program.statements.map Statement.render ++ ["\n"])
  else
    printErrors errors

/-! ### Reading -/

/-- The bytes up to the next newline, which belongs to them, and the bytes behind them. -/
def readLine : List UInt8 → List UInt8 × List UInt8
  | [] => ([], [])
  | b :: bs => if b = 10 then ([b], bs) else (b :: (readLine bs).1, (readLine bs).2)

theorem readLine_append (input : List UInt8) : (readLine input).1 ++ (readLine input).2 = input := by
  induction input with
  | nil => rfl
  | cons b bs ih =>
    rw [readLine]
    split
    · rfl
    · exact congrArg (b :: ·) ih

theorem readLine_length {input : List UInt8} (h : (readLine input).1 ≠ []) :
    (readLine input).2.length < input.length := by
  have hlength := congrArg List.length (readLine_append input)
  have hpos := List.length_pos_iff.2 h
  rw [List.length_append] at hlength
  omega

/-! ### Rounds -/

/-- Holds a session over the bytes that have not been read yet. -/
def converse (input : List UInt8) : Output Unit := do
  Output.write Session.prompt
  if _h : (readLine input).1 = [] then
    Output.write "\n"
  else
    match String.fromUTF8? (readLine input).1.toByteArray with
    | none => throw .invalidText
    | some line =>
      let source := trim line.toList
      if source.isEmpty then
        converse (readLine input).2
      else if source.map Char.toLower = "exit".toList then
        return
      else
        answer (String.ofList source)
        converse (readLine input).2
termination_by input.length
decreasing_by
  · exact readLine_length _h
  · exact readLine_length _h

end Monkey.Machine
