/-
  Simplification: taking a graph apart.

  Nodes of degree below `k` are removed one by one, always one of least degree
  and, of these, the one added first.  If only nodes of degree `k` and more are
  left, the graph is stuck.

  * `Graph.simplifyWith` gives the removed nodes in order, and the graph as it is
    afterwards, also if it got stuck; any queue will do for the worklist;
  * `Graph.simplify` does so with a skew heap.
-/
import Straightline.Coloring.SkewHeap
import Straightline.Coloring.Error

namespace Straightline

namespace Graph

/-- The worklist entry of a temp. -/
def candidate (g : Graph) (t : Temp) : Candidate :=
  ⟨t, g.degree t, g.rank t⟩

/-- A worklist with an entry for each of some temps that is present. -/
def pushPresent (queue : Queue) (g : Graph) (q : queue.Carrier) (ts : List Temp) : queue.Carrier :=
  (ts.filter g.hasNode).foldl (fun q t => queue.push q (g.candidate t)) q

/-- Is the entry still true of the graph? -/
def isFresh (g : Graph) (c : Candidate) : Bool :=
  g.hasNode c.temp && g.degree c.temp == c.degree

/-- The first entry of the worklist that is still true of the graph, and the
    worklist behind it. -/
def popFresh? (queue : Queue) (g : Graph) (q : queue.Carrier) : Option (Candidate × queue.Carrier) :=
  match h : queue.pop? q with
  | none => none
  | some (c, q') =>
    have := queue.length_pop h
    if g.isFresh c then some (c, q') else g.popFresh? queue q'
termination_by (queue.entries q).length

/-- The nodes that are present, in the order of their addition. -/
def presentTemps (g : Graph) : List Temp :=
  (g.nodes.filter (·.present)).map (·.temp)

/-- The first of some temps whose degree none of them exceeds. -/
def firstOfMaxDegree? (g : Graph) : List Temp → Option Temp
  | [] => none
  | t :: ts =>
    match g.firstOfMaxDegree? ts with
    | none => some t
    | some u => if g.degree t < g.degree u then some u else some t

/-- What a stuck graph asks for. -/
def spillRequired (g : Graph) (k : Int) : SpillRequired :=
  let stuck := g.presentTemps
  ⟨[], k, stuck, g.firstOfMaxDegree? stuck, g.pressure⟩

/-- Remove `left` nodes, of which the worklist holds the candidates. -/
def simplifyFrom (queue : Queue) (k : Int) : (left : Nat) → Graph → queue.Carrier →
    Graph × Except ColoringError (List Temp)
  | 0, g, _ => (g, .ok [])
  | left + 1, g, q =>
    match g.popFresh? queue q with
    | none => (g, .error (.internal (.worklistEmpty g.size)))
    | some (c, q') =>
      if k ≤ c.degree then (g, .error (.spill (g.spillRequired k)))
      else
        let g' := g.remove c.temp
        let (final, result) :=
          simplifyFrom queue k left g' (g'.pushPresent queue q' (g'.neighbors c.temp).keys)
        (final, result.map (c.temp :: ·))

/-- Take a graph apart by means of a queue: the nodes in the order of their removal. -/
def simplifyWith (queue : Queue) (g : Graph) (k : Int) : Graph × Except ColoringError (List Temp) :=
  simplifyFrom queue k g.size g (g.pushPresent queue queue.empty g.temps)

/-- Take a graph apart: the nodes in the order of their removal. -/
def simplify (g : Graph) (k : Int) : Graph × Except ColoringError (List Temp) :=
  g.simplifyWith .skewHeap k

end Graph

end Straightline
