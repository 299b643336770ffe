/-
  Register files: the registers available for coloring, in order.

  * `RegisterFile.parse` reads a comma-separated list of names;
  * `RegisterFile.numbered` makes names from a stem and a count;
  * `RegisterFile.arm64` takes the first of the general purpose registers of
    that machine.
-/
import Straightline.Fault
import Straightline.Text.Blank
import Straightline.Text.Quoted

namespace Straightline

/-- The name of a physical register. -/
abbrev Register := Text

/-- Registers in order of preference. -/
abbrev RegisterFile := List Register

/-- Why there is no register file. -/
inductive RegisterFileError where
  | duplicate (name : Register)
  | empty
  /-- more or fewer registers than the machine has -/
  | outOfRange (k : Int) (limit : Nat)
  deriving DecidableEq

/-- What a register file error says. -/
def RegisterFileError.message : RegisterFileError → Text
  | duplicate name => utf8 "duplicate register " ++ quoted name
  | empty => utf8 "empty register file"
  | outOfRange k limit => utf8 s!"k {k} out of range [1, {limit}]"

namespace RegisterFile

/-- The comma. -/
def comma : UInt8 := 44

/-- The names of a comma-separated list: blanks around them are cut off, and
    empty ones are left out. -/
def namesOf (spec : Text) : List Register :=
  ((cutAt comma spec).map trimmed).filter (!·.isEmpty)

/-- The first name that occurs earlier in the list too. -/
def firstDuplicate? : (seen : List Register) → List Register → Option Register
  | _, [] => none
  | seen, r :: rs => if seen.contains r then some r else firstDuplicate? (r :: seen) rs

/-- Read a comma-separated list of different names. -/
def parse (spec : Text) : Except RegisterFileError RegisterFile :=
  let names := namesOf spec
  match firstDuplicate? [] names with
  | some name => .error (.duplicate name)
  | none => if names.isEmpty then .error .empty else .ok names

/-- The names made of a stem and the numbers below `k`. -/
def numbered (stem : Text) (k : Nat) : RegisterFile :=
  (List.range k).map fun i : Nat => stem ++ decimal i

/-- The most names that an address space of 48 bits can hold, at 16 bytes for
    each. -/
def sizeLimit : Nat := 0x100000000000

/-- The names made of a stem and the numbers below `k`, which must be neither
    negative nor above the size limit. -/
def numberedInt (stem : Text) : Int → Except Fault RegisterFile
  | .ofNat k => if k ≤ sizeLimit then .ok (numbered stem k) else .error .outOfRange
  | .negSucc _ => .error .outOfRange

/-- The general purpose registers of arm64 that are free for allocation, those
    that calls may change first. X16 to X18, the frame pointer and the link
    register are not. -/
def arm64Registers : RegisterFile :=
  ((List.range 16) ++ (List.range 10).map (· + 19)).map fun i : Nat => utf8 "X" ++ decimal i

/-- The first `k` registers of arm64. -/
def arm64 (k : Int) : Except RegisterFileError RegisterFile :=
  if 0 < k ∧ k ≤ arm64Registers.length then .ok (arm64Registers.take k.toNat)
  else .error (.outOfRange k arm64Registers.length)

/-- The first index of a register. -/
def index? (regs : RegisterFile) (r : Register) : Option Nat :=
  regs.idxOf? r

end RegisterFile

end Straightline
