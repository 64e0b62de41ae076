import Monkey.Command.Response

/-! The command line program. A session is held line by line over the terminal; every
other command writes its response and ends. -/

namespace Monkey.Main

def usage : String :=
  "usage: monke [repl]\n       monke run [--trace] FILE\n       monke tokens FILE\n       monke --version\n"

/-- Why the system could not read a file. -/
def readError : IO.Error → ReadError
  | .noFileOrDirectory .. => .missing
  | .inappropriateType _ code _ => if code = 21 then .isDirectory else .notDirectory
  | e => .other (toString e)

def readSource (file : String) : IO (Except ReadError String) := do
  try
    return textOf (← IO.FS.readBinFile file)
  catch e =>
    return .error (readError e)

def write (stream : IO.FS.Stream) (bytes : ByteArray) : IO Unit := do
  stream.write bytes
  stream.flush

/-- Reads up to the next newline, or to the end of the input. -/
partial def readLine (input : IO.FS.Stream) (line : ByteArray) : IO ByteArray := do
  let byte ← input.read 1
  if byte.isEmpty then return line
  let line := line ++ byte
  if byte.data = #[10] then return line
  readLine input line

/-- Holds a session and gives the exit code. -/
partial def converse (input output errors : IO.FS.Stream) : IO UInt32 := do
  write output Session.prompt.toUTF8
  let line ← readLine input .empty
  if line.isEmpty then
    write output "\n".toUTF8
    return 0
  match (Session.replyTo line.data.toList).run (.empty none) with
  | .ok goesOn s =>
    write output s.accepted
    if goesOn then converse input output errors else return 0
  | .error e s =>
    write output s.accepted
    write errors (Response.sessionError e).toUTF8
    return 1

def finish (output errors : IO.FS.Stream) (r : Response) : IO UInt32 := do
  write output r.output
  write errors r.errors
  return r.exit

def start (arguments : List String) : IO UInt32 := do
  let output ← IO.getStdout
  let errors ← IO.getStderr
  match Command.ofArguments? arguments with
  | none =>
    write errors usage.toUTF8
    return 2
  | some .version => finish output errors .version
  | some .session =>
    let user := userName (← IO.getEnv "USER") (← IO.getEnv "USERNAME")
    write output (Response.greeting user).toUTF8
    converse (← IO.getStdin) output errors
  | some (.run file traced) =>
    finish output errors (Response.ofRun file traced (← readSource file))
  | some (.tokens file) =>
    finish output errors (Response.ofTokens file (← readSource file))

end Monkey.Main

def main (arguments : List String) : IO UInt32 := Monkey.Main.start arguments
