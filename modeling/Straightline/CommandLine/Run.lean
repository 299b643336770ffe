/-
  Running the command line.

  Arguments are read from left to right: flags with their values, then a
  command, then file names; behind `--` everything is a file name.  Without a
  command there are no file names, and so no `--` either.  A command works
  through its files in order, and what it printed before an error stays printed.

  * `readArgs` turns arguments into an `Invocation`, or into help;
  * `run` carries it out on a file system and reports the exit code, the output
    and the error message.
-/
import Straightline.CommandLine.Help
import Straightline.Files

namespace Straightline.CommandLine

/-- What the arguments ask for. -/
structure Invocation where
  command : Option Command
  options : Options
  files : List Text

/-- Why a command failed. -/
inductive CommandError where
  | flag (arg : Text) (problem : FlagProblem)
  | unexpectedArg (arg : Text)
  | registers (e : RegistersError)
  | read (name : Text) (e : FileProblem)
  | parse (name : Text) (e : LoadError)
  | graph (name : Text) (e : GraphsError)
  | alloc (name : Text) (e : FileError AllocateTextError)

/-- What a command error says. -/
def CommandError.message : CommandError → Text
  | flag arg problem => utf8 "parse flag: " ++ arg ++ utf8 ": " ++ problem.message
  | unexpectedArg arg => utf8 "no args expected, got " ++ arg
  | registers e => e.message
  | read name e => utf8 "read " ++ name ++ utf8 ": " ++ e.message
  | parse name e => utf8 "parse " ++ name ++ utf8 ": " ++ e.message
  | graph name e => utf8 "graph " ++ name ++ utf8 ": " ++ e.message
  | alloc name e => utf8 "alloc " ++ name ++ utf8 ": " ++ e.message AllocateTextError.message

/-! ## Arguments -/

/-- What reading the arguments ended with. -/
inductive Reading where
  | run (i : Invocation)
  /-- a request for help, with the options read so far -/
  | help (command : Option Command) (o : Options)
  /-- an error, in a command if one was given -/
  | failed (command : Option Command) (e : CommandError)

/-- The dash. -/
def dash : UInt8 := 45

/-- Is the argument a flag? A lone dash and two dashes are not. -/
def isFlag : Text → Bool
  | [_] => false
  | a => a.head? == some dash && a != [dash, dash]

/-- A flag argument without its one or two dashes. -/
def withoutDashes : Text → Text
  | a :: b :: rest => if b = dash then rest else if a = dash then b :: rest else a :: b :: rest
  | t => t

/-- A flag argument as a name and, behind `=` or a space, a value. -/
def splitFlag (arg : Text) : Text × Option Text :=
  let body := withoutDashes arg
  let name := body.takeWhile fun b => b != 61 && b != 32
  (name, (body.drop name.length).tail?)

/-- Take a file name, which the program without a command does not. -/
def withFile (i : Invocation) (arg : Text) : Except CommandError Invocation :=
  if i.command.isSome then .ok { i with files := i.files ++ [arg] } else .error (.unexpectedArg arg)

/-- Take the arguments behind a `--` as file names. -/
def withFiles (i : Invocation) (mark : Text) (rest : List Text) : Reading :=
  if i.command.isSome then .run { i with files := i.files ++ rest }
  else .failed i.command (.unexpectedArg mark)

/-- Read arguments from left to right. -/
def readArgs (i : Invocation) : List Text → Reading
  | [] => .run i
  | a :: rest =>
    let failed (problem : FlagProblem) : Reading := .failed i.command (.flag a problem)
    if a = [dash, dash] then withFiles i a rest
    else if isFlag a then
      let (name, given) := splitFlag a
      match flag? i.command name with
      | none => failed .unknown
      | some f =>
        match f.action, given with
        | .help, _ => .help i.command i.options
        | .switch set, _ =>
          match truth? (given.getD []) with
          | some b => readArgs { i with options := set b i.options } rest
          | none => failed .notBool
        | .value set, some v =>
          match set v i.options with
          | .ok o => readArgs { i with options := o } rest
          | .error problem => failed problem
        | .value set, none =>
          match rest with
          | [] => failed .valueRequired
          | v :: rest =>
            match set v i.options with
            | .ok o => readArgs { i with options := o } rest
            | .error problem => failed problem
    else
      match i.command, Command.ofName? a with
      | none, some c => readArgs { i with command := some c } rest
      | _, _ =>
        match withFile i a with
        | .ok i => readArgs i rest
        | .error e => .failed i.command e

/-! ## Commands -/

/-- The printed blocks of a text, with their live-out sets and an empty line
    between two. -/
def printBlocks (bs : List LoweredBlock) : Text :=
  [newline].intercalate (bs.map fun b => b.block.listing .empty true)

/-- What a command prints for one file. -/
def processFile (files : FileSystem) (o : Options) (regs : RegisterFile) (c : Command)
    (name : Text) : Except CommandError Text :=
  match c with
  | .parse => do
    let text ← (files name).mapError (.read name)
    let bs ← (load name text).mapError (.parse name)
    return printBlocks bs
  | .graph => do
    let text ← (files name).mapError (.read name)
    (graphs name text o.fp).mapError (.graph name)
  | .alloc => (allocateFile ⟨regs, o.fp, none, 0, o.listing⟩ files name).mapError (.alloc name)

/-- What a command prints for some files, up to the first error. -/
def processFiles (process : Text → Except CommandError Text) :
    List Text → Text × Option CommandError
  | [] => ([], none)
  | name :: names =>
    match process name with
    | .error e => ([], some e)
    | .ok out =>
      let (rest, e) := processFiles process names
      (out ++ rest, e)

/-- The registers that a command needs: only `alloc` needs any. -/
def registersFor (o : Options) : Command → Except CommandError RegisterFile
  | .alloc => o.registers.mapError .registers
  | _ => .ok []

/-- What a command prints, and why it failed if it did. -/
def runCommand (files : FileSystem) (c : Command) (o : Options) (names : List Text) :
    Text × Option CommandError :=
  match registersFor o c with
  | .error e => ([], some e)
  | .ok regs => processFiles (processFile files o regs c) names

/-! ## Running -/

/-- What a run of the program ends with. -/
structure Report where
  exitCode : UInt32
  output : Text
  /-- The error message, if there was an error. -/
  error : Option Text

/-- A failed run. The message of an error in a command starts with the
    command's name. A fault ends the run at once, without a message. -/
def Report.failure (output : Text) (command : Option Command) (e : CommandError) : Report :=
  let message := match command with
    | some c => utf8 s!"{c.name}: " ++ e.message
    | none => e.message
  match e with
  | .registers (.fault _) => ⟨2, output, none⟩
  | _ => ⟨1, output, some message⟩

/-- Carry out what the arguments ask for. -/
def Reading.report (files : FileSystem) : Reading → Report
  | .help c o => ⟨0, helpText c o, none⟩
  | .failed c e => .failure [] c e
  | .run i =>
    match i.command with
    | none => ⟨0, helpText none i.options, none⟩
    | some c =>
      match runCommand files c i.options i.files with
      | (output, none) => ⟨0, output, none⟩
      | (output, some e) => .failure output (some c) e

/-- Read the arguments of a run. -/
def readAll (args : List Text) : Reading :=
  readArgs ⟨none, {}, []⟩ args

/-- The files that a run will look at. -/
def Reading.files : Reading → List Text
  | .run i => i.files
  | _ => []

/-- Run the program. -/
def run (files : FileSystem) (args : List Text) : Report :=
  (readAll args).report files

end Straightline.CommandLine
