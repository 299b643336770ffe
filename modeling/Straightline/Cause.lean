/-
  What an error comes down to.

  Errors of the pipeline wrap those of its stages.  `Cause` tells apart the
  kinds of errors at the bottom, with what is known about them.
-/
import Straightline.Pipeline

namespace Straightline

/-- The bottom of an error. -/
inductive Cause where
  /-- the text does not follow the grammar -/
  | syntaxError (position : Position)
  /-- something is left behind what the grammar takes -/
  | partialRead (stop : Nat)
  /-- a statement makes no sense -/
  | semantic (position : Position)
  /-- a tree has a node where none of its kind may stand -/
  | unsupported
  /-- a block has control flow -/
  | usage (e : UsageError)
  /-- a block does not fit -/
  | spill (e : SpillRequired)
  /-- an invariant is broken -/
  | internal (e : InternalError)
  /-- a precondition is broken -/
  | fault (f : Fault)
  /-- anything else -/
  | other

/-- What is at the bottom of a parse error. -/
def ParseError.bottom : ParseError → Cause
  | syntaxError p _ => .syntaxError p
  | partialRead stop => .partialRead stop

/-- What is at the bottom of a lowering error. -/
def LoweringError.bottom (e : LoweringError) : Cause :=
  match e.cause with
  | .semantic p _ => .semantic p
  | .unsupported _ => .unsupported
  | .malformed _ => .other
  | .fault f => .fault f

/-- What is at the bottom of a liveness error. -/
def LivenessError.bottom : LivenessError → Cause
  | fault f => .fault f
  | _ => .other

/-- What is at the bottom of a load error. -/
def LoadError.bottom : LoadError → Cause
  | parse e => e.bottom
  | lower e => e.bottom
  | liveness _ e => e.bottom

/-- What is at the bottom of a build error. -/
def BuildError.bottom : BuildError → Cause
  | usage e => .usage e
  | malformed _ _ => .other

/-- What is at the bottom of a coloring error. -/
def ColoringError.bottom : ColoringError → Cause
  | spill e => .spill e
  | internal e => .internal e

/-- What a coloring error says. -/
def ColoringError.message : ColoringError → Text
  | spill e => e.message
  | internal e => e.message

/-- What is at the bottom of an allocation error. -/
def AllocationError.bottom : AllocationError → Cause
  | build e => e.bottom
  | internal e => .internal e
  | spill e => .spill e
  | _ => .other

/-- What is at the bottom of an error of `graphs`. -/
def GraphsError.bottom : GraphsError → Cause
  | load e => e.bottom
  | build _ e => e.bottom

/-- What is at the bottom of an error of `allocateText`. -/
def AllocateTextError.bottom : AllocateTextError → Cause
  | load e => e.bottom
  | allocate _ e => e.bottom

end Straightline
