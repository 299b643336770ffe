/-
  Instructions.

  An instruction has an op, up to three temps in its operand slots, an integer
  and a text for the operand that is no temp, and the set of temps that are
  live right after it.

  * `Instr.operands` are the temps in the slots that the op uses, in slot order;
  * `Instr.definition?`, `Instr.definitions` and `Instr.reads` are the operands
    by what happens to them.
-/
import Straightline.Op
import Straightline.DenseSet

namespace Straightline

/-- A temp: a virtual register, numbered from zero in its block. -/
abbrev Temp := Int

/-- An instruction. -/
structure Instr where
  op : Op
  /-- The temp in each slot, if there is one. -/
  args : Slots (Option Temp)
  imm : Int
  label : Text
  /-- The temps live right after the instruction. -/
  liveOut : DenseSet
  deriving DecidableEq

/-- A temp in a slot that the op uses. -/
structure Operand where
  slot : Nat
  role : Role
  temp : Temp
  deriving DecidableEq, Repr

/-- No temp in any slot. -/
def Slots.vacant : Slots (Option Temp) := ⟨none, none, none⟩

namespace Instr

/-- An instruction on temps only, with nothing live after it. -/
def ofArgs (op : Op) (args : Slots (Option Temp)) : Instr :=
  ⟨op, args, 0, [], ∅⟩

/-- The operand in a slot, if the slot is used and not empty. -/
def operandAt (slot : Nat) (role : Role) (arg : Option Temp) : Option Operand :=
  if role = .unused then none else arg.map (⟨slot, role, ·⟩)

/-- The operands that are present, in slot order. -/
def operands (i : Instr) : List Operand :=
  [operandAt 0 i.op.roles.first i.args.first,
    operandAt 1 i.op.roles.second i.args.second,
    operandAt 2 i.op.roles.third i.args.third].filterMap id

/-- The temps that the instruction defines. -/
def definitions (i : Instr) : List Temp :=
  (i.operands.filter (·.role.defines)).map (·.temp)

/-- The temps that the instruction reads. -/
def reads (i : Instr) : List Temp :=
  (i.operands.filter (·.role.reads)).map (·.temp)

/-- The temp that the instruction defines. -/
def definition? (i : Instr) : Option Temp :=
  (i.operands.find? (·.role.defines)).map (·.temp)

end Instr

end Straightline
