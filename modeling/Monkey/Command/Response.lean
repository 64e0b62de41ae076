import Monkey.Command.Arguments
import Monkey.Command.Directory
import Monkey.Session

/-! What a command writes and the exit code it ends with: 0 if all went well, 1 if a
file could not be read, a source has errors or a session broke off. A source with
errors prints nothing but its errors. -/

namespace Monkey

structure Response where
  exit : UInt32
  output : ByteArray
  errors : ByteArray

namespace Response

def success (output : String) : Response := ⟨0, output.toUTF8, .empty⟩

def failure (errors : String) : Response := ⟨1, .empty, errors.toUTF8⟩

def version : Response := success "monke 0.1.0\n"

def readFailure (file : String) (e : ReadError) : Response :=
  failure ("Error reading file '" ++ file ++ "': " ++ e.message ++ "\n")

/-- The canonical text of a source, a statement to a line; the trace goes to the errors. -/
def ofSource (traced : Bool) (source : String) : Response :=
  let o := parse source
  let trace := if traced then traceText o.calls else ""
  if o.diagnostics.isEmpty then
    { success (String.join (o.value.statements.map fun s => s.render ++ "\n")) with
      errors := trace.toUTF8 }
  else
    failure (trace ++ errorReport (o.diagnostics.map Diagnostic.message))

/-- The response to a file that was to be run. -/
def ofRun (file : String) (traced : Bool) : Except ReadError String → Response
  | .ok source => ofSource traced source
  | .error e => readFailure file e

/-- The tokens of a file, one to a line. -/
def ofTokens (file : String) : Except ReadError String → Response
  | .ok source => success (String.join ((lex source).map fun t => t.render ++ "\n"))
  | .error e => readFailure file e

def greeting (user : String) : String :=
  "Hello " ++ user ++ "! This is the Monkey programming language.\n" ++
    "Type in commands, or \x60exit\x60 to leave.\n"

/-- What is said when a session breaks off. -/
def sessionError (e : Failure) : String := "Error: " ++ e.message ++ "\n"

/-- A session over a whole input, after the greeting. -/
def ofSession (user : String) (input : ByteArray) : Response :=
  match (Session.overInput input).run ⟨(greeting user).toUTF8, none⟩ with
  | .ok () s => ⟨0, s.accepted, .empty⟩
  | .error e s => ⟨1, s.accepted, (sessionError e).toUTF8⟩

end Response

/-- Whom to greet: the first name that is set. -/
def userName (user username : Option String) : String := (user <|> username).getD "there"

/-- Carries out a command over a directory of files and a whole input. -/
def Command.respond (directory : Directory) (input : ByteArray) (user : String) : Command → Response
  | version => .version
  | session => .ofSession user input
  | run file traced => .ofRun file traced (directory.read file)
  | tokens file => .ofTokens file (directory.read file)

end Monkey
