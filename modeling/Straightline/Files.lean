/-
  Programs in files.

  * `FileSystem` is what is known about files: the contents of each, or why it
    cannot be read;
  * `parseFile` and `allocateFile` read a file first.
-/
import Straightline.Pipeline

namespace Straightline

/-- Why a file could not be read. -/
inductive FileProblem where
  | missing (name : Text)
  | isDirectory (name : Text)
  /-- a file stands where the name needs a directory -/
  | notDirectory (name : Text)
  | nameTooLong (name : Text)
  /-- the name has a zero byte in it -/
  | invalidName (name : Text)
  /-- anything else that a system may report -/
  | unreadable (name : Text) (reason : Text)
  deriving DecidableEq

/-- What a file problem says. -/
def FileProblem.message : FileProblem → Text
  | missing name => utf8 "open " ++ name ++ utf8 ": no such file or directory"
  | isDirectory name => utf8 "read " ++ name ++ utf8 ": is a directory"
  | notDirectory name => utf8 "open " ++ name ++ utf8 ": not a directory"
  | nameTooLong name => utf8 "open " ++ name ++ utf8 ": file name too long"
  | invalidName name => utf8 "open " ++ name ++ utf8 ": invalid argument"
  | unreadable name reason => utf8 "open " ++ name ++ utf8 ": " ++ reason

/-- The contents of files by name. -/
abbrev FileSystem := Text → Except FileProblem Text

/-- An error in a file, or in reading it. -/
inductive FileError (ε : Type) where
  | read (e : FileProblem)
  | inText (e : ε)

/-- What a file error says, given what an error of the text says. -/
def FileError.message {ε : Type} (ofText : ε → Text) : FileError ε → Text
  | read e => utf8 "read file: " ++ e.message
  | inText e => ofText e

/-- A file that was read as a program: the source and its tree. -/
def parseFile (files : FileSystem) (name : Text) :
    Except (FileError ParseError) (Source × Tree.File) := do
  let text ← (files name).mapError .read
  let src := Source.ofText name text
  let file ← src.parse.mapError .inText
  return (src, file)

/-- Allocate registers for every block of a file. -/
def allocateFile (cfg : TextConfig) (files : FileSystem) (name : Text) :
    Except (FileError AllocateTextError) Text := do
  let text ← (files name).mapError .read
  (allocateText cfg name text).result.mapError .inText

end Straightline
