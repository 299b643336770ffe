/-
  The options of the command line.

  There are three commands, each with flags of its own; the flags of the
  program itself may be given to any of them.

  * `Options` holds the value of every flag;
  * `Flag` ties a flag's names and description to its option;
  * `Options.registers` is the register file that the options ask for.
-/
import Straightline.RegisterFile
import Straightline.Text.Numeral

namespace Straightline.CommandLine

/-- The value of every flag. -/
structure Options where
  verbosity : Text := []
  regs : Text := []
  k : Int := 4
  arch : Text := []
  fp : Text := utf8 "fp"
  listing : Bool := false

/-- Why a flag could not be read. -/
inductive FlagProblem where
  | unknown
  | valueRequired
  | numeral (e : NumeralError)
  | notBool

/-- What a flag problem says. -/
def FlagProblem.message : FlagProblem → Text
  | unknown => utf8 "no such flag"
  | valueRequired => utf8 "flag value is required"
  | numeral e => e.message
  | notBool => utf8 "not a bool value"

/-! ## Flags -/

/-- What a flag does. -/
inductive FlagAction where
  /-- print help and stop -/
  | help
  /-- set an option to a value, which may be the next argument -/
  | value (set : Text → Options → Except FlagProblem Options)
  /-- turn an option on or off; without a value, on -/
  | switch (set : Bool → Options → Options)

/-- A flag. -/
structure Flag where
  names : List String
  /-- The names as help shows them. -/
  label : String
  description : String
  action : FlagAction
  /-- The value that help shows, empty if there is none. -/
  shown : Options → Text

/-- ASCII letters in lower case. -/
def lowerText (t : Text) : Text :=
  t.map fun b => if 65 ≤ b && b ≤ 90 then b + 32 else b

/-- Read a truth value; an empty one is true. -/
def truth? (t : Text) : Option Bool :=
  let word := lowerText t
  if ["true", "t", "yes", "y", "1", ""].any (utf8 · == word) then some true
  else if ["false", "f", "no", "n", "0"].any (utf8 · == word) then some false
  else none

/-- A flag that holds a text. -/
def textFlag (names : List String) (description : String) (set : Text → Options → Options)
    (get : Options → Text) : Flag :=
  ⟨names, ",".intercalate names, description, .value fun t o => .ok (set t o), get⟩

/-- `--verbosity`, `-v` -/
def verbosityFlag : Flag :=
  textFlag ["verbosity", "v"]
    "logger verbosity topics (dump_graph, dump_live, simplify, select, alloc, analyze)"
    (fun t o => { o with verbosity := t }) (·.verbosity)

/-- `--help`, `-h` -/
def helpFlag : Flag :=
  ⟨["help", "h"], "help,h=[hidden]", "print command help end exit", .help, fun _ => []⟩

/-- `--fp` -/
def fpFlag : Flag :=
  textFlag ["fp"] "frame pointer temp, never colored" (fun t o => { o with fp := t }) (·.fp)

/-- `--regs` -/
def regsFlag : Flag :=
  textFlag ["regs"] "comma separated register file" (fun t o => { o with regs := t }) (·.regs)

/-- `--k` -/
def kFlag : Flag :=
  ⟨["k"], "k", "use k registers of the arch if --regs is not set",
    .value fun t o => match Numeral.read .plain t with
      | .ok n => .ok { o with k := n }
      | .error e => .error (.numeral e),
    fun o => decimal o.k⟩

/-- `--arch` -/
def archFlag : Flag :=
  textFlag ["arch"] "register names: generic r0..r<k-1> or arm64"
    (fun t o => { o with arch := t }) (·.arch)

/-- `--listing`, `-l` -/
def listingFlag : Flag :=
  ⟨["listing", "l"], "listing,l", "print blocks with registers instead of the assignment table",
    .switch fun b o => { o with listing := b },
    fun o => utf8 (if o.listing then "true" else "false")⟩

/-! ## Commands -/

/-- A command. -/
inductive Command where
  | parse
  | graph
  | alloc
  deriving DecidableEq

namespace Command

/-- The commands in the order in which help lists them. -/
def all : List Command := [parse, graph, alloc]

/-- The name of a command. -/
def name : Command → String
  | parse => "parse"
  | graph => "graph"
  | alloc => "alloc"

/-- What a command does, in a few words. -/
def description : Command → String
  | parse => "print blocks with computed live-out sets"
  | graph => "print interference graphs"
  | alloc => "allocate registers for every block"

/-- The flags of a command. -/
def flags : Command → List Flag
  | parse => []
  | graph => [fpFlag]
  | alloc => [regsFlag, kFlag, archFlag, fpFlag, listingFlag]

/-- The command with a name. -/
def ofName? (t : Text) : Option Command :=
  all.find? fun c => utf8 c.name == t

end Command

/-- The flags of the program itself. -/
def programFlags : List Flag := [verbosityFlag, helpFlag]

/-- The flag with a name, of a command or else of the program. -/
def flag? (command : Option Command) (name : Text) : Option Flag :=
  ((command.elim [] Command.flags) ++ programFlags).find? fun f => f.names.any (utf8 · == name)

/-! ## Registers -/

/-- Why the options give no register file. -/
inductive RegistersError where
  | regs (e : RegisterFileError)
  | arm64 (e : RegisterFileError)
  | unsupportedArch (name : Text)
  | noRegisters
  /-- there are more than can be numbered -/
  | fault (f : Fault)

/-- What a registers error says. -/
def RegistersError.message : RegistersError → Text
  | regs e => utf8 "regs: " ++ e.message
  | arm64 e => utf8 "arm64: " ++ e.message
  | unsupportedArch name => utf8 "unsupported arch: " ++ name
  | noRegisters => utf8 "no registers"
  | fault f => f.message

/-- The register file that the options ask for: the given names, else the first
    `k` of an architecture or of a numbered file. -/
def Options.registers (o : Options) : Except RegistersError RegisterFile :=
  if !o.regs.isEmpty then (RegisterFile.parse o.regs).mapError .regs
  else if o.k ≤ 0 then .error .noRegisters
  else if o.arch.isEmpty then (RegisterFile.numberedInt (utf8 "r") o.k).mapError .fault
  else if o.arch = utf8 "arm64" then (RegisterFile.arm64 o.k).mapError .arm64
  else .error (.unsupportedArch o.arch)

end Straightline.CommandLine
