/-
  Register allocation for one block.

  A round builds the interference graph of the block and colors it.  If the
  block does not fit, a spiller may give another one for the next round.

  * `allocate` runs the rounds; without a spiller there is one;
  * `allocateAfter` does so with a spiller that was asked about other blocks before;
  * `Allocation` is what it ends with: the block that was colored in the last
    round, its assignment, and the number of rounds.
-/
import Straightline.Interference.Build
import Straightline.Coloring.Select

namespace Straightline

/-- A block that does not fit, and why. -/
structure SpillRequest where
  block : Block
  needed : SpillRequired

/-- What turns a block that does not fit into one for the next round. It may
    look at the requests made before, the latest first, and it may give up with
    a message. The block it gives back has live-out sets of its own. -/
abbrev Spiller := (earlier : List SpillRequest) → SpillRequest → Except Text Block

/-- Allocation settings. -/
structure AllocatorConfig where
  regs : RegisterFile
  /-- The frame pointer, which gets no register. -/
  fp : Option Temp
  spiller : Option Spiller
  /-- The most rounds there may be; the default number if it is not positive. -/
  maxRounds : Int

/-- The number of rounds if none is set. -/
def defaultMaxRounds : Nat := 4

/-- The most rounds there may be. -/
def AllocatorConfig.rounds (cfg : AllocatorConfig) : Nat :=
  if 0 < cfg.maxRounds then cfg.maxRounds.toNat else defaultMaxRounds

/-- A successful allocation. -/
structure Allocation where
  /-- The block that was colored: the given one, unless a spiller gave another one. -/
  block : Block
  assignment : Assignment
  /-- The interference graph, taken apart by coloring. -/
  graph : Graph
  rounds : Nat

/-- Why a block could not be allocated. -/
inductive AllocationError where
  | emptyRegisterFile
  | build (e : BuildError)
  | internal (e : InternalError)
  | spill (e : SpillRequired)
  /-- the spiller gave up in a round -/
  | spiller (round : Nat) (message : Text)
  deriving DecidableEq

/-- What an allocation error says. -/
def AllocationError.message : AllocationError → Text
  | emptyRegisterFile => utf8 "empty register file"
  | build e => utf8 "build graph: " ++ e.message
  | internal e => utf8 "color: " ++ e.message
  | spill e => e.message
  | spiller round message => utf8 s!"spill round {round}: " ++ message

/-- How an allocation went: the requests made to the spiller, the latest first,
    and the outcome. -/
structure AllocationRun where
  requests : List SpillRequest
  result : Except AllocationError Allocation

/-- One round: build the graph of a block and color it. -/
def allocateOnce (cfg : AllocatorConfig) (b : Block) (round : Nat) :
    Except AllocationError Allocation := do
  let g ← (b.interference cfg.fp).mapError .build
  match g.color cfg.regs with
  | (g', .ok asg) => return ⟨b, asg, g', round⟩
  | (_, .error (.internal e)) => throw (.internal e)
  | (_, .error (.spill e)) => throw (.spill { e with block := b.name })

/-- The rounds from `round` on, of which `left` more may follow, after the
    given requests. -/
def allocateFrom (cfg : AllocatorConfig) :
    (left round : Nat) → List SpillRequest → Block → AllocationRun
  | 0, round, requests, b => ⟨requests, allocateOnce cfg b round⟩
  | left + 1, round, requests, b =>
    match allocateOnce cfg b round, cfg.spiller with
    | .error (.spill e), some spiller =>
      match spiller requests ⟨b, e⟩ with
      | .error message => ⟨⟨b, e⟩ :: requests, .error (.spiller round message)⟩
      | .ok b' => allocateFrom cfg left (round + 1) (⟨b, e⟩ :: requests) b'
    | result, _ => ⟨requests, result⟩

/-- Allocate registers for a block, after the given requests for other blocks. -/
def allocateAfter (cfg : AllocatorConfig) (requests : List SpillRequest) (b : Block) :
    AllocationRun :=
  if cfg.regs.isEmpty then ⟨requests, .error .emptyRegisterFile⟩
  else allocateFrom cfg (cfg.rounds - 1) 1 requests b

/-- Allocate registers for a block. -/
def allocate (cfg : AllocatorConfig) (b : Block) : AllocationRun :=
  allocateAfter cfg [] b

end Straightline
