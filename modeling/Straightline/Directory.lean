/-
  Directories.

  A directory is given by the files in it and below it, each with its path.
  Names are resolved the way a file system does it: from left to right, with
  `.` for the same directory and `..` for the one above.  Nothing is known about
  the world outside but that its directories have no files of interest.

  * `Directory.resolve` finds what a name leads to;
  * `Directory.files` is the directory as a file system.
-/
import Straightline.Files

namespace Straightline

/-- The slash. -/
def slash : UInt8 := 47

/-- A path from one directory down to a file or a directory. -/
abbrev Path := List Text

/-- A directory. -/
structure Directory where
  /-- The files by their paths; of several with one path the last counts. -/
  entries : List (Path × Text)

/-- What a name leads to. -/
inductive Location where
  /-- the directory with this path, or one below it -/
  | inside (path : Path)
  /-- a directory that is not below the given one -/
  | outside
  | file (text : Text)
  deriving DecidableEq

namespace Directory

/-- The path of a name that is given from the directory itself. -/
def pathOf (name : Text) : Path :=
  (cutAt slash name).filter fun part => !part.isEmpty && part != utf8 "."

/-- A directory with some named texts in it. -/
def ofList (files : List (Text × Text)) : Directory :=
  ⟨files.map fun f => (pathOf f.1, f.2)⟩

/-- The file with a path. -/
def file? (d : Directory) (path : Path) : Option Text :=
  d.entries.reverse.lookup path

/-- Is there a directory with this path? -/
def hasDirectory (d : Directory) (path : Path) : Bool :=
  path.isEmpty || d.entries.any fun e => path.isPrefixOf e.1 && e.1 != path

/-- The longest part of a name. -/
def partLimit : Nat := 255

/-- The longest name. -/
def nameLimit : Nat := 4095

/-- Take one step from a directory: to itself, upwards, or to an entry of it. -/
def step (d : Directory) (name : Text) (here : Location) (part : Text) :
    Except FileProblem Location :=
  match here with
  | .file _ => .error (.notDirectory name)
  | .outside =>
    if part.isEmpty || part == utf8 "." || part == utf8 ".." then .ok .outside
    else if partLimit < part.length then .error (.nameTooLong name)
    else .error (.missing name)
  | .inside path =>
    if part.isEmpty || part == utf8 "." then .ok here
    else if part == utf8 ".." then .ok (if path.isEmpty then .outside else .inside path.dropLast)
    else if partLimit < part.length then .error (.nameTooLong name)
    else
      match d.file? (path ++ [part]) with
      | some text => .ok (.file text)
      | none =>
        if d.hasDirectory (path ++ [part]) then .ok (.inside (path ++ [part]))
        else .error (.missing name)

/-- Where the resolution of a name starts: a slash in front leads outside. -/
def start (name : Text) : Location :=
  if name.head? = some slash then .outside else .inside []

/-- What a name leads to. -/
def resolve (d : Directory) (name : Text) : Except FileProblem Location :=
  if name.contains 0 then .error (.invalidName name)
  else if name.isEmpty then .error (.missing name)
  else if nameLimit < name.length then .error (.nameTooLong name)
  else (cutAt slash name).foldlM (d.step name) (start name)

/-- The directory as a file system. -/
def files (d : Directory) : FileSystem := fun name => do
  match ← d.resolve name with
  | .file text => return text
  | _ => throw (.isDirectory name)

end Directory

end Straightline
