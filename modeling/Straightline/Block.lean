/-
  Blocks.

  A block is a branch-free sequence of instructions over temps that have names.
  Names are interned: a name gets the next number when it is first used.

  * `Block.intern` gives the temp of a name, making one if needed;
  * `Block.append` and `Block.setLive` work on names;
  * `Block.check` holds every instruction against the op table.

  The index from names to temps is built from the name list when a name is
  first interned, and from then on kept beside it.
-/
import Straightline.Instr

namespace Straightline

/-- A branch-free instruction sequence. -/
structure Block where
  name : Text
  /-- The names of the temps, by number. -/
  names : List Text
  code : List Instr
  /-- The index from names to temps, newest entry first, once it is built. -/
  index : Option (List (Text × Temp))
  deriving DecidableEq

/-- What is wrong with an instruction of a block. -/
inductive BlockError where
  /-- the op is not in the table -/
  | badOp (index : Nat) (code : Int)
  /-- a slot that the op does not use is filled -/
  | unexpectedOperand (index : Nat) (op : Op) (slot : Nat)
  /-- a slot that the op needs is empty -/
  | missingOperand (index : Nat) (op : Op) (slot : Nat)
  /-- a slot holds a number that is no temp of the block -/
  | badTemp (index : Nat) (op : Op) (slot : Nat) (temp : Temp)
  deriving DecidableEq

/-- What a block error says. -/
def BlockError.message : BlockError → Text
  | badOp i code => utf8 s!"instr {i}: bad op {code}"
  | unexpectedOperand i op slot => utf8 s!"instr {i}: {op.name}: unexpected operand {slot}"
  | missingOperand i op slot => utf8 s!"instr {i}: {op.name}: operand {slot} missing"
  | badTemp i op slot t => utf8 s!"instr {i}: {op.name}: operand {slot}: bad temp {t}"

namespace Block

/-- A block without instructions. -/
def new (name : Text) : Block :=
  ⟨name, [], [], none⟩

/-! ## Temps and their names -/

/-- The number of temps. -/
def numTemps (b : Block) : Nat :=
  b.names.length

/-- The index that a name list gives: of equal names the last one counts. -/
def indexOf (names : List Text) : List (Text × Temp) :=
  (names.zipIdx.map fun (n, i) => (n, (i : Temp))).reverse

/-- The index from names to temps. -/
def nameIndex (b : Block) : List (Text × Temp) :=
  b.index.getD (indexOf b.names)

/-- The temp of a name, made if the name is new. -/
def intern (b : Block) (name : Text) : Temp × Block :=
  match b.nameIndex.lookup name with
  | some t => (t, { b with index := some b.nameIndex })
  | none =>
    let t : Temp := b.numTemps
    (t, { b with names := b.names ++ [name], index := some ((name, t) :: b.nameIndex) })

/-- The temps of several names, made in order where names are new. -/
def internAll (b : Block) : List Text → List Temp × Block
  | [] => ([], b)
  | n :: ns =>
    let (t, b) := b.intern n
    let (ts, b) := b.internAll ns
    (t :: ts, b)

/-- The first temp that has a name. -/
def lookup? (b : Block) (name : Text) : Option Temp :=
  (b.names.idxOf? name).map fun i => (i : Temp)

/-- The name of a temp: `_` for −1, which stands for no temp, and the number
    for any other that the block does not have. -/
def tempName (b : Block) (t : Temp) : Text :=
  match t with
  | .ofNat n => b.names[n]?.getD (utf8 s!"t{n}")
  | .negSucc 0 => utf8 "_"
  | .negSucc _ => utf8 s!"t{t}"

/-! ## Instructions -/

/-- The instruction with an index, which must be one of the block. -/
def instrAt (b : Block) : Int → Except Fault Instr
  | .ofNat i => match b.code[i]? with
    | some instr => .ok instr
    | none => .error .outOfRange
  | .negSucc _ => .error .outOfRange

/-- The instruction with an index, which must be one of the block and have an
    op of the table. -/
def tableInstrAt (b : Block) (i : Int) : Except Fault Instr := do
  let instr ← b.instrAt i
  if instr.op.valid then return instr else throw .outOfRange

/-- The block with one more instruction. -/
def push (b : Block) (instr : Instr) : Block :=
  { b with code := b.code ++ [instr] }

/-- The temp of an operand name, the empty name standing for no operand. -/
def internOperand (b : Block) (name : Text) : Option Temp × Block :=
  if name.isEmpty then (none, b)
  else
    let (t, b) := b.intern name
    (some t, b)

/-- The block with one more instruction, on named temps. There are at most
    three names, and an empty name stands for no operand. -/
def append (b : Block) (op : Op) (names : List Text) (imm : Int) (label : Text) :
    Except Fault Block :=
  match names with
  | _ :: _ :: _ :: _ :: _ => .error (.tooManyOperands names)
  | _ =>
    let (t₀, b) := b.internOperand (names[0]?.getD [])
    let (t₁, b) := b.internOperand (names[1]?.getD [])
    let (t₂, b) := b.internOperand (names[2]?.getD [])
    .ok (b.push ⟨op, ⟨t₀, t₁, t₂⟩, imm, label, ∅⟩)

/-- The block with an instruction changed. -/
def modifyInstr (b : Block) (i : Nat) (f : Instr → Instr) : Block :=
  { b with code := b.code.modify i f }

/-- Put temps into a set. Interned temps are never negative. -/
def liveSet (ts : List Temp) : DenseSet :=
  (DenseSet.empty.insertAll ts).1

/-- Set the live-out set of an instruction to some names. The names are
    interned first, and stay so if there is no such instruction. -/
def setLive (b : Block) (i : Int) (names : List Text) : Block × Except Fault Unit :=
  let (ts, b) := b.internAll names
  match b.instrAt i with
  | .ok _ => (b.modifyInstr i.toNat fun instr => { instr with liveOut := liveSet ts }, .ok ())
  | .error f => (b, .error f)

/-- Add a temp to the live-out set of an instruction. -/
def addLive (b : Block) (i : Int) (t : Temp) : Except Fault Block := do
  let instr ← b.instrAt i
  let live ← instr.liveOut.insert t
  return b.modifyInstr i.toNat fun instr => { instr with liveOut := live }

/-- Has the block an instruction that ends it? -/
def hasControl (b : Block) : Bool :=
  b.code.any (·.op.control)

/-- A block equal to this one whose index is yet to be built. -/
def clone (b : Block) : Block :=
  { b with index := none }

/-! ## Checking -/

/-- Is the number one of the block's temps? -/
def hasTemp (b : Block) (t : Temp) : Bool :=
  0 ≤ t && t < b.numTemps

/-- Hold one slot of an instruction against the role it has. -/
def checkSlot (b : Block) (index : Nat) (op : Op) (slot : Nat) (role : Role) (arg : Option Temp) :
    Except BlockError Unit :=
  match arg with
  | none => if role.required then .error (.missingOperand index op slot) else .ok ()
  | some t =>
    if role = .unused then .error (.unexpectedOperand index op slot)
    else if b.hasTemp t then .ok ()
    else .error (.badTemp index op slot t)

/-- Hold an instruction against the op table. -/
def checkInstr (b : Block) (index : Nat) (instr : Instr) : Except BlockError Unit := do
  match instr.op with
  | .unknown code => throw (.badOp index code)
  | op =>
    b.checkSlot index op 0 op.roles.first instr.args.first
    b.checkSlot index op 1 op.roles.second instr.args.second
    b.checkSlot index op 2 op.roles.third instr.args.third

/-- Hold instructions, of which the first has the given index, against the op
    table, and report the first that does not fit. -/
def checkFrom (b : Block) : (index : Nat) → List Instr → Except BlockError Unit
  | _, [] => .ok ()
  | index, instr :: rest => do
    b.checkInstr index instr
    b.checkFrom (index + 1) rest

/-- Hold every instruction against the op table. -/
def check (b : Block) : Except BlockError Unit :=
  b.checkFrom 0 b.code

end Block

end Straightline
