/-
  Help texts.

  Help lists commands and flags, a line each, and the value that a flag has
  unless it is empty.

  * `helpText` is the help for a command, or for the program if none was given.
-/
import Straightline.CommandLine.Options

namespace Straightline.CommandLine

/-- The name of the program. -/
def programName : String := "regcolor"

/-- What the program is. -/
def programDescription : String :=
  "regcolor is a graph coloring register allocator for straight-line three-address code"

/-- A line of a list: a name, padded, and a description. -/
def entryLine (name : String) (description : Text) : Text :=
  utf8 "    " ++ padded 20 (utf8 name) ++ utf8 " - " ++ description ++ [newline]

/-- The line of a command. -/
def commandLine (c : Command) : Text :=
  entryLine c.name (utf8 c.description)

/-- The line of a flag, with the value it has. -/
def flagLine (o : Options) (f : Flag) : Text :=
  let shown := f.shown o
  let suffix := if shown.isEmpty then [] else utf8 " (default " ++ shown ++ utf8 ")"
  entryLine f.label (utf8 f.description ++ suffix)

/-- A headed list, set off by an empty line; nothing if the list is empty. -/
def headedList (title : String) (lines : List Text) : Text :=
  if lines.isEmpty then [] else newline :: utf8 title ++ [newline] ++ lines.flatten

/-- The help for a command, or for the program. -/
def helpText (command : Option Command) (o : Options) : Text :=
  match command with
  | none =>
    utf8 s!"{programName} [flags] - {programDescription}\n" ++
      headedList "Subcommands" (Command.all.map commandLine) ++
      headedList "Flags" (programFlags.map (flagLine o))
  | some c =>
    utf8 s!"{c.name} [flags_and_args] - {c.description}\n" ++
      headedList "Flags" (c.flags.map (flagLine o)) ++
      headedList s!"Flags of parent command {programName}" (programFlags.map (flagLine o))

end Straightline.CommandLine
