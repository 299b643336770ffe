/-
  From program texts to output.

  * `load` reads and lowers a text and fills the live-out sets of its blocks;
  * `graphs` prints the interference graph of every block;
  * `allocateText` allocates registers for every block and prints the blocks or
    the assignments; `allocateTextAfter` does so with a spiller that was asked about
    other texts before.
-/
import Straightline.Allocation
import Straightline.Listing
import Straightline.Lowering
import Straightline.Syntax.Parse

namespace Straightline

/-- Why a text could not be loaded. -/
inductive LoadError where
  | parse (e : ParseError)
  | lower (e : LoweringError)
  | liveness (block : Text) (e : LivenessError)

/-- What a load error says. -/
def LoadError.message : LoadError → Text
  | parse e => utf8 "parse text: " ++ e.message
  | lower e => utf8 "analyze: " ++ e.message
  | liveness block e => utf8 "liveness " ++ block ++ utf8 ": " ++ e.message

/-- Read and lower a text. -/
def lowerText (name text : Text) : Except LoadError (List LoweredBlock) := do
  let src := Source.ofText name text
  let file ← src.parse.mapError .parse
  (src.lower file).mapError .lower

/-- Fill the live-out sets of a block. One with a control op is left as it is:
    the allocator will refuse it. -/
def fillLiveOut (b : LoweredBlock) : Except LoadError LoweredBlock :=
  if b.block.hasControl then .ok b
  else
    match b.block.fillLiveness b.liveness with
    | (block, .ok _) => .ok { b with block }
    | (_, .error e) => .error (.liveness b.block.name e)

/-- Read and lower a text and fill the live-out sets of its blocks. -/
def load (name text : Text) : Except LoadError (List LoweredBlock) := do
  (← lowerText name text).mapM fillLiveOut

/-! ## Graphs -/

/-- Why the graphs of a text could not be printed. -/
inductive GraphsError where
  | load (e : LoadError)
  | build (block : Text) (e : BuildError)

/-- What a graphs error says. -/
def GraphsError.message : GraphsError → Text
  | load e => e.message
  | build block e => utf8 "build " ++ block ++ utf8 ": " ++ e.message

/-- The printed interference graph of a block, the frame pointer given by name. -/
def graphOf (fp : Text) (b : LoweredBlock) : Except GraphsError Text :=
  match b.block.interference (b.block.lookup? fp) with
  | .ok g => .ok (b.block.graphText g.temps g.edges g.pressure)
  | .error e => .error (.build b.block.name e)

/-- The printed interference graphs of a text, an empty line between two. -/
def graphs (name text fp : Text) : Except GraphsError Text := do
  let bs ← (load name text).mapError .load
  return [newline].intercalate (← bs.mapM (graphOf fp))

/-! ## Allocation -/

/-- How a text is to be allocated. -/
structure TextConfig where
  regs : RegisterFile
  /-- The name of the frame pointer. -/
  fp : Text
  spiller : Option Spiller
  maxRounds : Int
  /-- Print blocks with registers rather than assignments. -/
  listing : Bool

/-- Why a text could not be allocated. -/
inductive AllocateTextError where
  | load (e : LoadError)
  | allocate (block : Text) (e : AllocationError)

/-- What an allocation error of a text says. -/
def AllocateTextError.message : AllocateTextError → Text
  | load e => e.message
  | allocate block e => utf8 "allocate " ++ block ++ utf8 ": " ++ e.message

/-- The settings for one block of a text. -/
def TextConfig.forBlock (cfg : TextConfig) (b : Block) : AllocatorConfig :=
  ⟨cfg.regs, b.lookup? cfg.fp, cfg.spiller, cfg.maxRounds⟩

/-- An allocated block, printed. -/
def TextConfig.render (cfg : TextConfig) (b : Block) (a : Allocation) : Text :=
  if cfg.listing then a.block.listing a.assignment false
  else b.headerLine ++ a.block.assignmentTable a.assignment

/-- How the allocation of a text went: the requests made to the spiller, the
    latest first, and the outcome. -/
structure TextRun (α : Type) where
  requests : List SpillRequest
  result : Except AllocateTextError α

/-- Allocate blocks in order, up to the first that fails, and print each. One
    spiller serves them all, after the given requests. -/
def allocateBlocks (cfg : TextConfig) :
    List SpillRequest → List LoweredBlock → TextRun (List Text)
  | requests, [] => ⟨requests, .ok []⟩
  | requests, b :: bs =>
    match allocateAfter (cfg.forBlock b.block) requests b.block with
    | ⟨requests, .error e⟩ => ⟨requests, .error (.allocate b.block.name e)⟩
    | ⟨requests, .ok a⟩ =>
      let rest := allocateBlocks cfg requests bs
      ⟨rest.requests, rest.result.map (cfg.render b.block a :: ·)⟩

/-- Allocate registers for every block of a text, and print the blocks with an
    empty line between two, after the given requests for other texts. -/
def allocateTextAfter (cfg : TextConfig) (requests : List SpillRequest) (name text : Text) :
    TextRun Text :=
  match load name text with
  | .error e => ⟨requests, .error (.load e)⟩
  | .ok bs =>
    let run := allocateBlocks cfg requests bs
    ⟨run.requests, run.result.map [newline].intercalate⟩

/-- Allocate registers for every block of a text. -/
def allocateText (cfg : TextConfig) (name text : Text) : TextRun Text :=
  allocateTextAfter cfg [] name text

end Straightline
