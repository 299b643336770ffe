/-
  Interference graphs over temps.

  A graph lists its nodes in the order they were added.  A node that is removed
  stays in the list with its neighbours, so that coloring can look at all of
  them, while degrees count the present ones only.

  * `addNode`, `addEdge` and `remove` change a graph; each node's degree is
    kept up to date rather than counted;
  * `edges` lists every edge once, in ascending order;
  * `checkDegrees` counts the degrees anew.
-/
import Straightline.Instr

namespace Straightline

/-- A node with its neighbours. -/
structure Node where
  temp : Temp
  /-- Has the node not been removed? -/
  present : Bool
  /-- All neighbours, the removed ones too. -/
  neighbors : DenseSet
  /-- The number of present neighbours, as long as the node is present. -/
  degree : Nat
  deriving DecidableEq

/-- An interference graph. -/
structure Graph where
  /-- All nodes ever added, in the order of their addition. -/
  nodes : List Node
  edgeCount : Nat
  /-- The largest number of nodes live at once right after a definition. -/
  pressure : Int
  deriving DecidableEq

/-- A node whose degree is not the number of its present neighbours. -/
structure DegreeError where
  temp : Temp
  degree : Nat
  present : Nat
  deriving DecidableEq

namespace Graph

/-- The graph without nodes. -/
def empty : Graph := ⟨[], 0, 0⟩

/-! ## Looking -/

/-- The node of a temp. -/
def node? (g : Graph) (t : Temp) : Option Node :=
  g.nodes.find? (·.temp == t)

/-- The temps of all nodes ever added, in the order of their addition. -/
def temps (g : Graph) : List Temp :=
  g.nodes.map (·.temp)

/-- Was the temp ever added? -/
def known (g : Graph) (t : Temp) : Bool :=
  (g.node? t).isSome

/-- Is the temp a node that was not removed? -/
def hasNode (g : Graph) (t : Temp) : Bool :=
  (g.node? t).any (·.present)

/-- All neighbours of a temp, the removed ones too. -/
def neighbors (g : Graph) (t : Temp) : DenseSet :=
  match g.node? t with
  | some n => n.neighbors
  | none => ∅

/-- Are two temps adjacent? -/
def hasEdge (g : Graph) (a b : Temp) : Bool :=
  (g.neighbors a).contains b

/-- The degree of a temp, zero if it is no node. -/
def degree (g : Graph) (t : Temp) : Nat :=
  match g.node? t with
  | some n => n.degree
  | none => 0

/-- The number of nodes that were not removed. -/
def size (g : Graph) : Nat :=
  g.nodes.countP (·.present)

/-- The place of a temp in the order of addition, counted from one. -/
def rank (g : Graph) (t : Temp) : Nat :=
  if g.known t then g.temps.idxOf t + 1 else 0

/-- Is the first edge before or equal to the second? -/
def edgeLe (e f : Temp × Temp) : Bool :=
  e.1 < f.1 || (e.1 == f.1 && e.2 ≤ f.2)

/-- The edges from a node to temps above it. -/
def upwardEdges (n : Node) : List (Temp × Temp) :=
  (n.neighbors.keys.filter (n.temp < ·)).map fun t => (n.temp, t)

/-- Every edge once, the lower temp first, in ascending order. -/
def edges (g : Graph) : List (Temp × Temp) :=
  (g.nodes.flatMap upwardEdges).mergeSort edgeLe

/-- The number of present nodes in a set. -/
def presentIn (g : Graph) (s : DenseSet) : Nat :=
  s.keys.countP g.hasNode

/-- Count the degree of every present node anew. -/
def checkDegrees (g : Graph) : Except DegreeError Unit :=
  match g.nodes.find? fun n => n.present && g.presentIn n.neighbors != n.degree with
  | some n => .error ⟨n.temp, n.degree, g.presentIn n.neighbors⟩
  | none => .ok ()

/-! ## Changing -/

/-- The graph with the node of a temp changed. -/
def modifyNode (g : Graph) (t : Temp) (f : Node → Node) : Graph :=
  { g with nodes := g.nodes.map fun n => if n.temp = t then f n else n }

/-- The graph with one more node, unless it was added before; the answer says
    whether it is new. A node must not be negative. -/
def addNode (g : Graph) (t : Temp) : Except Fault (Graph × Bool) :=
  if t < 0 then .error (.negativeNode t)
  else if g.known t then .ok (g, false)
  else .ok ({ g with nodes := g.nodes ++ [⟨t, true, ∅, 0⟩] }, true)

/-- A node with one more neighbour, which counts towards the degree if it is
    present. -/
def linkTo (other : Temp) (present : Bool) (n : Node) : Node :=
  { n with
    neighbors := n.neighbors.put other.toNat
    degree := n.degree + present.toNat }

/-- The graph with one more edge, unless it is there or is a loop; the answer
    says whether it is new. Both ends must be known. -/
def addEdge (g : Graph) (a b : Temp) : Except Fault (Graph × Bool) :=
  if !g.known a || !g.known b then .error .unknownNode
  else if a = b ∨ g.hasEdge a b then .ok (g, false)
  else
    let linked := (g.modifyNode a (linkTo b (g.hasNode b))).modifyNode b (linkTo a (g.hasNode a))
    .ok ({ linked with edgeCount := g.edgeCount + 1 }, true)

/-- A node after one of its neighbours was removed: if it is present itself, it
    has a neighbour less. -/
def unlink (gone : DenseSet) (n : Node) : Node :=
  if n.present && gone.contains n.temp then { n with degree := n.degree - 1 } else n

/-- The graph without a node, which stays known. -/
def remove (g : Graph) (t : Temp) : Graph :=
  if g.hasNode t then
    let g' := g.modifyNode t fun n => { n with present := false }
    { g' with nodes := g'.nodes.map (unlink (g.neighbors t)) }
  else g

/-! ## Binary form -/

/-- The binary form: how many nodes, present nodes and edges there are, and the
    pressure. -/
def wire (g : Graph) : Text :=
  Wire.record [("nodes", g.nodes.length), ("present", g.size), ("edges", g.edgeCount),
    ("pressure", g.pressure)]

end Graph

end Straightline
