/-
  Faults: broken preconditions.

  An operation that is asked for something that has no meaning (a key below
  zero, an index outside a block) ends with a fault.  Faults are not errors of
  the program text; they tell the caller of the library what it did wrong.
-/
import Straightline.Text.Basic

namespace Straightline

/-- A broken precondition. -/
inductive Fault where
  /-- an index or a range outside the data it selects from -/
  | outOfRange
  /-- a key below zero put into a set -/
  | negativeKey (key : Int)
  /-- a node below zero put into a graph -/
  | negativeNode (temp : Int)
  /-- an edge between nodes of which one was never added -/
  | unknownNode
  /-- a question about an op that is not in the op table -/
  | unknownOp (code : Int)
  /-- more than three operands for one instruction -/
  | tooManyOperands (names : List Text)
  /-- a blank byte of code 64 or above -/
  | blankTooHigh
  deriving DecidableEq

/-- What a fault says. -/
def Fault.message : Fault → Text
  | .outOfRange => utf8 "runtime error"
  | .negativeKey k => utf8 "set: negative key " ++ decimal k
  | .negativeNode t => decimal t
  | .unknownNode => utf8 "edge to unknown node"
  | .unknownOp c => utf8 s!"Op({c})"
  | .tooManyOperands names => utf8 "[" ++ (utf8 " ").intercalate names ++ utf8 "]"
  | .blankTooHigh => utf8 "too high char code"

end Straightline
