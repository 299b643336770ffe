/-
  Selection: putting a graph together again with registers.

  Nodes are colored in the reverse order of their removal, each with the first
  register that no colored neighbour has.

  * `Graph.select` colors a stack of nodes;
  * `Graph.verify` checks an assignment against every node and edge;
  * `Graph.color` simplifies, selects and verifies, as `Graph.colorWith` does with
    any queue.
-/
import Straightline.TempMap
import Straightline.Coloring.Simplify

namespace Straightline

/-- The register of every colored temp. -/
abbrev Assignment := TempMap Register

namespace Graph

/-- The colors that the neighbours of a temp have. -/
def usedColors (g : Graph) (colors : TempMap Nat) (t : Temp) : DenseSet :=
  ((g.neighbors t).keys.filterMap colors.get?).foldl DenseSet.put ∅

/-- Color one more node with the least color that its neighbours leave. -/
def colorNode (g : Graph) (k : Nat) (colors : TempMap Nat) (t : Temp) :
    Except InternalError (TempMap Nat) :=
  let used := g.usedColors colors t
  match used.firstUnset k with
  | some c => .ok (colors.insert t c)
  | none => .error (.noRegister t used.size k)

/-- The colors of a stack of nodes, the last one colored first. -/
def selectColors (g : Graph) (k : Nat) (stack : List Temp) : Except InternalError (TempMap Nat) :=
  stack.reverse.foldlM (g.colorNode k) .empty

/-- The registers of a stack of nodes, the last one colored first. -/
def select (g : Graph) (stack : List Temp) (regs : RegisterFile) :
    Except InternalError Assignment :=
  (g.selectColors regs.length stack).map (·.map fun c => regs.getD c [])

/-- The first node without a register. -/
def firstUncolored? (g : Graph) (asg : Assignment) : Option Temp :=
  g.temps.find? fun t => (asg.get? t).isNone

/-- The first edge whose ends have one register. -/
def firstClash? (g : Graph) (asg : Assignment) : Option (Temp × Temp) :=
  g.edges.find? fun e => asg.get? e.1 == asg.get? e.2

/-- Check that every node has a register and that no edge joins two nodes of
    one register. -/
def verify (g : Graph) (asg : Assignment) : Except InternalError Unit :=
  match g.firstUncolored? asg with
  | some t => .error (.uncolored t)
  | none =>
    match g.firstClash? asg with
    | some (a, b) => .error (.shared a ((asg.get? a).getD []) b)
    | none => .ok ()

/-- Color a graph by means of a queue. Its nodes are removed on the way. -/
def colorWith (queue : Queue) (g : Graph) (regs : RegisterFile) :
    Graph × Except ColoringError Assignment :=
  let (g', simplified) := g.simplifyWith queue regs.length
  (g', do
    let stack ← simplified
    let asg ← (g'.select stack regs).mapError .internal
    (g'.verify asg).mapError .internal
    return asg)

/-- Color a graph. Its nodes are removed on the way. -/
def color (g : Graph) (regs : RegisterFile) : Graph × Except ColoringError Assignment :=
  g.colorWith .skewHeap regs

end Graph

end Straightline
