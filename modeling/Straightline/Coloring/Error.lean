/-
  How coloring fails.

  * `SpillRequired`: every node left has too many neighbours;
  * `InternalError`: an invariant of the graph or the coloring is broken.
-/
import Straightline.Interference.Graph
import Straightline.RegisterFile

namespace Straightline

/-- No node of degree below `k` is left. -/
structure SpillRequired where
  /-- The block that does not fit, if it is known. -/
  block : Text
  k : Int
  /-- The nodes left, in the order of their addition. -/
  stuck : List Temp
  /-- The first node of largest degree among them. -/
  candidate : Option Temp
  pressure : Int
  deriving DecidableEq

/-- The number written for a temp, or −1 where there is none. -/
def Temp.number (t : Option Temp) : Int :=
  t.getD (-1)

/-- What a spill request says. -/
def SpillRequired.message (e : SpillRequired) : Text :=
  utf8 "block " ++ e.block ++
    utf8 s!": spill required: {e.stuck.length} nodes left with degree >= {e.k}" ++
    utf8 s!" (pressure {e.pressure}, candidate t{Temp.number e.candidate})"

/-- A broken invariant. -/
inductive InternalError where
  /-- nodes are left, but no candidate is -/
  | worklistEmpty (left : Nat)
  /-- the neighbours of a node have taken all registers -/
  | noRegister (temp : Temp) (used : Nat) (k : Nat)
  /-- a node has no register -/
  | uncolored (temp : Temp)
  /-- a node has the register of a neighbour -/
  | shared (temp : Temp) (register : Register) (neighbor : Temp)
  /-- a degree is not the number of present neighbours -/
  | degreeDrift (e : DegreeError)
  deriving DecidableEq

namespace InternalError

/-- The temp at which the invariant is broken. -/
def temp : InternalError → Option Temp
  | worklistEmpty _ => none
  | noRegister t _ _ => some t
  | uncolored t => some t
  | shared t _ _ => some t
  | degreeDrift e => some e.temp

/-- Which invariant is broken, and how. -/
def reason : InternalError → Text
  | worklistEmpty left => utf8 s!"worklist is empty with {left} nodes left"
  | noRegister _ used k => utf8 s!"no register left: {used} neighbours colored, k {k}"
  | uncolored _ => utf8 "node left uncolored"
  | shared _ r n => utf8 "shares register " ++ r ++ utf8 s!" with neighbour {n}"
  | degreeDrift e => utf8 s!"degree {e.degree}, present neighbours {e.present}"

/-- What an internal error says. -/
def message (e : InternalError) : Text :=
  utf8 s!"internal inconsistency: temp {Temp.number e.temp}: " ++ e.reason

end InternalError

/-- Why a graph has no coloring. -/
inductive ColoringError where
  | spill (e : SpillRequired)
  | internal (e : InternalError)
  deriving DecidableEq

end Straightline
