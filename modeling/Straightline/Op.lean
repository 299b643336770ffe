/-
  The op table.

  An op has a name, a role for each of its three operand slots, the kind of a
  further operand that is no temp, and a mark if it ends a block.  Liveness,
  interference, printing and reading all go by this table.

  * `Op.signature` is the table;
  * `Op.ofName?` and `Op.ofCode` find an op by its name and by its number.
-/
import Straightline.Fault

namespace Straightline

/-- One entry for each of the three operand slots of an instruction. -/
structure Slots (α : Type) where
  first : α
  second : α
  third : α
  deriving DecidableEq, Repr

/-- The three entries in order. -/
def Slots.toList {α : Type} (s : Slots α) : List α :=
  [s.first, s.second, s.third]

/-- What an instruction does with one operand slot. -/
inductive Role where
  /-- the slot is not used -/
  | unused
  /-- the slot is defined -/
  | result
  /-- the slot is defined if it is present: what a call may return -/
  | optResult
  /-- the slot is read -/
  | operand
  /-- the slot is read if it is present: what a return may give back -/
  | optOperand
  /-- the slot is read as an address -/
  | address
  deriving DecidableEq, Repr

namespace Role

/-- Does the role make the slot a defined value? -/
def defines : Role → Bool
  | result | optResult => true
  | _ => false

/-- Does the role make the slot a read value? -/
def reads : Role → Bool
  | operand | optOperand | address => true
  | _ => false

/-- May the slot be absent although it is used? -/
def optional : Role → Bool
  | optResult | optOperand => true
  | _ => false

/-- Must the slot be present? -/
def required (r : Role) : Bool :=
  r != unused && !r.optional

/-- The name of a role. -/
def name : Role → String
  | unused => "none"
  | result => "def"
  | optResult => "optdef"
  | operand => "use"
  | optOperand => "optuse"
  | address => "addr"

/-- The roles in the order of their numbers. -/
def all : List Role := [unused, result, optResult, operand, optOperand, address]

/-- The name of the role with a number, or the number itself if it has none. -/
def nameOfCode (code : Nat) : String :=
  match all[code]? with
  | some r => r.name
  | none => s!"Role({code})"

end Role

/-- The kind of the operand that is no temp. -/
inductive Extra where
  | nothing
  /-- an integer -/
  | immediate
  /-- a name -/
  | label
  /-- a quoted text -/
  | string
  deriving DecidableEq, Repr

namespace Extra

/-- The name of a kind of operand. -/
def name : Extra → String
  | nothing => "nothing"
  | immediate => "immediate"
  | label => "label"
  | string => "string"

/-- The number of a kind of operand. -/
def code : Extra → Nat
  | nothing => 0
  | immediate => 1
  | label => 2
  | string => 3

end Extra

/-- An op. -/
inductive Op where
  /-- `d = add a b` -/
  | add
  /-- `d = sub a b` -/
  | sub
  /-- `d = mul a b` -/
  | mul
  /-- `d = div a b` -/
  | div
  /-- `d = mod a b` -/
  | mod
  /-- `d = land a b` -/
  | land
  /-- `d = lor a b` -/
  | lor
  /-- `d = gtr a b` -/
  | gtr
  /-- `d = geq a b` -/
  | geq
  /-- `d = equ a b` -/
  | equ
  /-- `d = neq a b` -/
  | neq
  /-- `d = leq a b` -/
  | leq
  /-- `d = les a b` -/
  | les
  /-- `d = neg a` -/
  | neg
  /-- `d = lnot a` -/
  | lnot
  /-- `d = assign a` -/
  | assign
  /-- `d = vtbl name` -/
  | vtbl
  /-- `d = imm4 12` -/
  | imm4
  /-- `d = strconst "text"` -/
  | strconst
  /-- `[d =] call name` -/
  | call
  /-- `[d =] icall a` -/
  | icall
  /-- `parm a` -/
  | parm
  /-- `d = load a 8` -/
  | load
  /-- `store v a 8` -/
  | store
  /-- `branch name` -/
  | branch
  /-- `beqz a name` -/
  | beqz
  /-- `bnez a name` -/
  | bnez
  /-- `ret [a]` -/
  | ret
  /-- a number that no op has -/
  | unknown (code : Int)
  deriving DecidableEq, Repr

/-- What the table says about an op. -/
structure Signature where
  name : String
  roles : Slots Role
  extra : Extra
  /-- Does the op end a block? -/
  control : Bool
  deriving DecidableEq, Repr

namespace Signature

/-- Two values read, one defined. -/
def binary (name : String) : Signature :=
  ⟨name, ⟨.result, .operand, .operand⟩, .nothing, false⟩

/-- One value read, one defined. -/
def unary (name : String) : Signature :=
  ⟨name, ⟨.result, .operand, .unused⟩, .nothing, false⟩

/-- One value defined from an operand that is no temp. -/
def constant (name : String) (extra : Extra) : Signature :=
  ⟨name, ⟨.result, .unused, .unused⟩, extra, false⟩

/-- A jump that may read one value. -/
def jump (name : String) (test : Role) : Signature :=
  ⟨name, ⟨test, .unused, .unused⟩, .label, true⟩

end Signature

namespace Op

open Signature

/-- The op table. An op that is not in it has no operands. -/
def signature : Op → Signature
  | add => binary "add"
  | sub => binary "sub"
  | mul => binary "mul"
  | div => binary "div"
  | mod => binary "mod"
  | land => binary "land"
  | lor => binary "lor"
  | gtr => binary "gtr"
  | geq => binary "geq"
  | equ => binary "equ"
  | neq => binary "neq"
  | leq => binary "leq"
  | les => binary "les"
  | neg => unary "neg"
  | lnot => unary "lnot"
  | assign => unary "assign"
  | vtbl => constant "vtbl" .label
  | imm4 => constant "imm4" .immediate
  | strconst => constant "strconst" .string
  | call => ⟨"call", ⟨.optResult, .unused, .unused⟩, .label, false⟩
  | icall => ⟨"icall", ⟨.optResult, .address, .unused⟩, .nothing, false⟩
  | parm => ⟨"parm", ⟨.operand, .unused, .unused⟩, .nothing, false⟩
  | load => ⟨"load", ⟨.result, .address, .unused⟩, .immediate, false⟩
  | store => ⟨"store", ⟨.operand, .address, .unused⟩, .immediate, false⟩
  | branch => jump "branch" .unused
  | beqz => jump "beqz" .operand
  | bnez => jump "bnez" .operand
  | ret => ⟨"ret", ⟨.optOperand, .unused, .unused⟩, .nothing, true⟩
  | unknown code => ⟨s!"Op({code})", ⟨.unused, .unused, .unused⟩, .nothing, false⟩

/-- The name of an op; one that is not in the table shows its number. -/
def name (op : Op) : String := op.signature.name

/-- The roles of the operand slots. -/
def roles (op : Op) : Slots Role := op.signature.roles

/-- The kind of the operand that is no temp. -/
def extra (op : Op) : Extra := op.signature.extra

/-- Does the op end a block? -/
def control (op : Op) : Bool := op.signature.control

/-- Is the op in the table? -/
def valid : Op → Bool
  | unknown _ => false
  | _ => true

/-- The ops of the table in the order of their numbers. -/
def all : List Op :=
  [add, sub, mul, div, mod, land, lor, gtr, geq, equ, neq, leq, les, neg, lnot, assign, vtbl, imm4,
    strconst, call, icall, parm, load, store, branch, beqz, bnez, ret]

/-- The op with a number. -/
def ofCode (code : Int) : Op :=
  match code with
  | .ofNat n => all[n]?.getD (unknown code)
  | .negSucc _ => unknown code

/-- The number of an op. -/
def code : Op → Int
  | unknown c => c
  | op => all.idxOf op

/-- The op with a name. -/
def ofName? (name : Text) : Option Op :=
  all.find? fun op => utf8 op.name == name

/-- What the table says about an op, which must be in it. -/
def info (op : Op) : Except Fault Signature :=
  match op with
  | unknown c => .error (.unknownOp c)
  | _ => .ok op.signature

end Op

end Straightline
