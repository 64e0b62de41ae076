/-! The command line. A command is a session, the canonical text of a file, the tokens of
a file, or the version. Arguments that start with a dash are flags, up to an argument
`--`; a lone dash is not a flag. -/

namespace Monkey

inductive Command where
  | version
  | session
  | run (file : String) (traced : Bool)
  | tokens (file : String)
deriving DecidableEq, Repr

namespace Command

def isFlag (argument : String) : Bool := argument.startsWith "-" && argument ≠ "-"

/-- The flags and the other arguments, each in order. -/
def splitFlags : List String → List String × List String
  | [] => ([], [])
  | a :: rest =>
    if a = "--" then ([], rest)
    else
      let (flags, others) := splitFlags rest
      if isFlag a then (a :: flags, others) else (flags, a :: others)

/-- The command that the arguments after the program's name ask for, or `none` when they
make no sense. A request for the version counts whatever stands behind it. -/
def ofArguments? : List String → Option Command
  | [] => some session
  | "repl" :: rest => if splitFlags rest = ([], []) then some session else none
  | "run" :: rest =>
    match splitFlags rest with
    | ([], [file]) => some (run file false)
    | (["--trace"], [file]) => some (run file true)
    | _ => none
  | "tokens" :: rest =>
    match splitFlags rest with
    | ([], [file]) => some (tokens file)
    | _ => none
  | first :: rest =>
    if first = "--version" || first.startsWith "-V" then some version
    else if first = "--" && rest.isEmpty then some session
    else none

end Command

end Monkey
