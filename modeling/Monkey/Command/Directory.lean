/-! Files by name. A path is walked component by component, from the directory that
holds the files: an empty component or a dot stays where it is, two dots go to the
directory above, of which nothing else is known, and a regular file has nothing inside
it. The directories inside are those on the way to a file. -/

namespace Monkey

/-- Why a file cannot be read as text. -/
inductive ReadError where
  | missing
  | isDirectory
  | notDirectory
  | invalidText
  | other (description : String)
deriving DecidableEq, Repr

def ReadError.message : ReadError → String
  | missing => "No such file or directory (os error 2)"
  | isDirectory => "Is a directory (os error 21)"
  | notDirectory => "Not a directory (os error 20)"
  | invalidText => "stream did not contain valid UTF-8"
  | other description => description

/-- Bytes as text, if they are UTF-8. -/
def textOf (bytes : ByteArray) : Except ReadError String :=
  match String.fromUTF8? bytes with
  | some text => .ok text
  | none => .error .invalidText

/-- Files with the components of their names. -/
structure Directory where
  files : List (List String × ByteArray)

namespace Directory

/-- Whether a component of a path stays where it is. -/
def stays (component : String) : Bool := component = "" || component = "."

def ofFiles (files : List (String × ByteArray)) : Directory :=
  ⟨files.map fun (name, bytes) => ((name.splitOn "/").filter (!stays ·), bytes)⟩

/-- What a path leads to. -/
inductive Place where
  | inside (components : List String)
  | outside
  | file (bytes : ByteArray)

/-- Goes from a place to one of its components. -/
def step (d : Directory) (place : Place) (component : String) : Except ReadError Place :=
  match place with
  | .file _ => .error .notDirectory
  | .outside => if stays component || component = ".." then .ok .outside else .error .missing
  | .inside here =>
    if stays component then .ok (.inside here)
    else if component = ".." then
      .ok (if here.isEmpty then .outside else .inside here.dropLast)
    else
      match d.files.lookup (here ++ [component]) with
      | some bytes => .ok (.file bytes)
      | none =>
        if d.files.any fun f => (here ++ [component]).isPrefixOf f.1 then
          .ok (.inside (here ++ [component]))
        else .error .missing

/-- The text of the file at a path. An absolute path starts above the directory. -/
def read (d : Directory) (path : String) : Except ReadError String :=
  if path = "" then .error .missing
  else do
    let start := if path.startsWith "/" then Place.outside else .inside []
    match ← (path.splitOn "/").foldlM d.step start with
    | .file bytes => textOf bytes
    | _ => .error .isDirectory

end Directory

end Monkey
