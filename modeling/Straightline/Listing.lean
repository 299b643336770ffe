/-
  Printed blocks, assignments and graphs.

  A printed block reads back as the same block if no temp is replaced by a
  register and the live sets are printed too.

  * `Block.listing` prints a block, with registers in place of the temps that
    have one, and on demand a live set after each instruction;
  * `Block.assignmentTable` prints a line per colored temp;
  * `Block.graphText` prints an interference graph.
-/
import Straightline.Block
import Straightline.TempMap
import Straightline.RegisterFile

namespace Straightline

namespace Block

variable (b : Block)

/-- A temp as it is printed: its register if it has one, else its name. -/
def operandText (asg : TempMap Register) (t : Temp) : Text :=
  (asg.get? t).getD (b.tempName t)

/-- The operand that is no temp, with a space before it. -/
def extraText (i : Instr) : Text :=
  match i.op.extra with
  | .nothing => []
  | .immediate => utf8 " " ++ decimal i.imm
  | .label => utf8 " " ++ i.label
  | .string => utf8 " " ++ quoted i.label

/-- The destination of an instruction, with its equals sign. -/
def targetText (asg : TempMap Register) (i : Instr) : Text :=
  match i.definition? with
  | some t => b.operandText asg t ++ utf8 " = "
  | none => []

/-- An instruction line: `[d =] op a* [extra]`. -/
def instrLine (asg : TempMap Register) (i : Instr) : Text :=
  indented (b.targetText asg i ++ utf8 i.op.name ++
    (i.reads.flatMap fun t => utf8 " " ++ b.operandText asg t) ++ extraText i ++ [newline])

/-- A live line: `live t*`. -/
def liveLine (live : DenseSet) : Text :=
  indented (utf8 "live" ++ (live.keys.flatMap fun t => utf8 " " ++ b.tempName t) ++ [newline])

/-- The line that opens a block. -/
def headerLine : Text :=
  utf8 "block " ++ b.name ++ [newline]

/-- An instruction line, and on demand the live line behind it. -/
def codeLines (asg : TempMap Register) (live : Bool) (i : Instr) : Text :=
  b.instrLine asg i ++ if live then b.liveLine i.liveOut else []

/-- A block with registers in place of the temps that have one, and on demand a
    live line after each instruction. -/
def listing (asg : TempMap Register) (live : Bool) : Text :=
  b.headerLine ++ b.code.flatMap (b.codeLines asg live)

/-- An instruction line; the op must be in the op table. -/
def instrListing (asg : TempMap Register) (i : Instr) : Except Fault Text := do
  let _ ← i.op.info
  return b.instrLine asg i

/-- A printed block; every op must be in the op table. -/
def tableListing (asg : TempMap Register) (live : Bool) : Except Fault Text := do
  b.code.forM fun i => do let _ ← i.op.info
  return b.listing asg live

/-- A line per colored temp, in the order of temps: its name and its register. -/
def assignmentTable (asg : TempMap Register) : Text :=
  (List.range b.numTemps).flatMap fun n : Nat =>
    match asg.get? n with
    | some r => indented (padded 8 (b.tempName n) ++ utf8 " " ++ r ++ [newline])
    | none => []

/-- An interference graph: a line of counts, the nodes, and a line per edge. -/
def graphText (nodes : List Temp) (edges : List (Temp × Temp)) (pressure : Int) : Text :=
  utf8 "graph " ++ b.name ++
    utf8 s!"  # nodes {nodes.length}  edges {edges.length}  pressure {pressure}\n" ++
    indented (utf8 "nodes" ++ (nodes.flatMap fun t => utf8 " " ++ b.tempName t) ++ [newline]) ++
    edges.flatMap fun e =>
      indented (b.tempName e.1 ++ utf8 " -- " ++ b.tempName e.2 ++ [newline])

end Block

end Straightline
