/-
  Liveness.

  The live-out sets of a block are either given with it or computed backwards
  from the temps that are live at its end.  Going backwards over an
  instruction, the temps it defines cease to be live and then the temps it
  reads become live.

  * `Block.computeLiveness` fills the live-out sets backwards.  It needs a
    block without control ops; instructions behind the one that stops it are
    already filled.
-/
import Straightline.Block

namespace Straightline

/-- Where the live-out sets of a block come from. -/
inductive LivenessSource where
  /-- they are given with the block -/
  | given
  /-- they follow from the temps live at the end -/
  | backward (exit : List Temp)
  deriving DecidableEq

/-- Why live-out sets could not be computed. -/
inductive LivenessError where
  /-- a temp live at the end is not one of the block's -/
  | exitOutOfRange (temp : Temp) (numTemps : Nat)
  /-- an instruction ends the block -/
  | controlOp (index : Nat) (op : Op)
  /-- an instruction does not fit the op table -/
  | fault (f : Fault)
  deriving DecidableEq

/-- What a liveness error says. -/
def LivenessError.message : LivenessError → Text
  | exitOutOfRange t n => utf8 s!"exit temp {t} out of range [0, {n})"
  | controlOp i op => utf8 s!"instr {i}: control op {op.name} in straight-line block"
  | fault f => f.message

namespace Liveness

/-- The temps live before an instruction, from those live after it. -/
def before (i : Instr) (after : DenseSet) : Except Fault DenseSet :=
  if i.op.valid then
    match (i.definitions.foldl DenseSet.erase after).insertAll i.reads with
    | (live, .ok _) => .ok live
    | (_, .error f) => .error f
  else .error .outOfRange

/-- Fill the live-out sets of instructions, of which the first has the given
    index, from the temps live after the last; the answer holds the temps live
    before the first. -/
def fill (exit : DenseSet) :
    (index : Nat) → List Instr → List Instr × Except LivenessError DenseSet
  | _, [] => ([], .ok exit)
  | index, i :: rest =>
    match fill exit (index + 1) rest with
    | (rest', .error e) => (i :: rest', .error e)
    | (rest', .ok live) =>
      if i.op.control then (i :: rest', .error (.controlOp index i.op))
      else ({ i with liveOut := live } :: rest', (before i live).mapError .fault)

end Liveness

namespace Block

/-- The first of some temps that is not one of the block's. -/
def firstStranger? (b : Block) (ts : List Temp) : Option Temp :=
  ts.find? (!b.hasTemp ·)

/-- Fill the live-out sets of a block backwards from the temps live at its end. -/
def computeLiveness (b : Block) (exit : List Temp) : Block × Except LivenessError Unit :=
  match b.firstStranger? exit with
  | some t => (b, .error (.exitOutOfRange t b.numTemps))
  | none =>
    let (code, result) := Liveness.fill (liveSet exit) 0 b.code
    ({ b with code }, result.map fun _ => ())

/-- Fill the live-out sets of a block as its source says. -/
def fillLiveness (b : Block) : LivenessSource → Block × Except LivenessError Unit
  | .given => (b, .ok ())
  | .backward exit => b.computeLiveness exit

end Block

end Straightline
