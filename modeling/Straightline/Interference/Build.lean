/-
  The interference graph of a block.

  The nodes are the temps that the instructions touch, except the frame
  pointer.  Each defined temp interferes with every other node that is live
  right after its definition.

  * `Block.interference` builds the graph, or says why there is none: the
    first instruction that ends a block, else the first that does not fit the
    op table.
-/
import Straightline.Block
import Straightline.Interference.Graph

namespace Straightline

/-- An instruction that ends a block where none may stand. -/
structure UsageError where
  block : Text
  index : Nat
  op : Op
  deriving DecidableEq

/-- What a usage error says. -/
def UsageError.message (e : UsageError) : Text :=
  utf8 "block " ++ e.block ++
    utf8 s!": instr {e.index}: {e.op.name}: control flow is not allowed in a basic block"

/-- Why a block has no interference graph. -/
inductive BuildError where
  | usage (e : UsageError)
  | malformed (block : Text) (e : BlockError)
  deriving DecidableEq

/-- What a build error says. -/
def BuildError.message : BuildError → Text
  | usage e => e.message
  | malformed block e => utf8 "block " ++ block ++ utf8 ": " ++ e.message

namespace Graph

/-- Add a temp of a checked block, which is never negative. -/
def withNode (g : Graph) (t : Temp) : Graph :=
  match g.addNode t with
  | .ok (g', _) => g'
  | .error _ => g

/-- Add an edge between nodes, which are known. -/
def withEdge (g : Graph) (a b : Temp) : Graph :=
  match g.addEdge a b with
  | .ok (g', _) => g'
  | .error _ => g

/-- Add the operands of an instruction, except the frame pointer. -/
def withOperands (fp : Option Temp) (g : Graph) (i : Instr) : Graph :=
  (i.operands.map (·.temp)).foldl (fun g t => if some t = fp then g else g.withNode t) g

/-- The nodes other than `d` and the frame pointer that are live after an
    instruction. -/
def liveNodes (g : Graph) (fp : Option Temp) (d : Temp) (i : Instr) : List Temp :=
  i.liveOut.keys.filter fun t => t != d && some t != fp && g.known t

/-- Add the edges of an instruction's definition, and raise the pressure to the
    number of nodes live with it. -/
def withDefinition (fp : Option Temp) (g : Graph) (i : Instr) : Graph :=
  match i.definition? with
  | none => g
  | some d =>
    if some d = fp then g
    else
      let live := g.liveNodes fp d i
      let g' := live.foldl (·.withEdge d ·) g
      { g' with pressure := max g'.pressure (live.length + 1) }

/-- The interference graph of instructions that fit the op table. -/
def ofCode (fp : Option Temp) (code : List Instr) : Graph :=
  code.foldl (withDefinition fp) (code.foldl (withOperands fp) empty)

end Graph

namespace Block

/-- The first instruction that ends a block. -/
def firstControl? (b : Block) : Option UsageError :=
  (b.code.zipIdx.find? fun (i, _) => i.op.control).map fun (i, index) => ⟨b.name, index, i.op⟩

/-- The interference graph of a block. The frame pointer is no node. -/
def interference (b : Block) (fp : Option Temp) : Except BuildError Graph :=
  match b.firstControl? with
  | some e => .error (.usage e)
  | none =>
    match b.check with
    | .error e => .error (.malformed b.name e)
    | .ok _ => .ok (.ofCode fp b.code)

end Block

end Straightline
