/-
  The compact binary form of sets and graphs.

  Every value starts with a byte whose high three bits give its kind and whose
  low five bits a small number, or the number of bytes that hold a larger one.
  A negative integer `v` is written in its own kind with the number `|v| + 1`.
-/
import Straightline.Text.Basic

namespace Straightline.Wire

/-- The last `width` bytes of a number, the most significant first. -/
def bigEndian : (width : Nat) → Nat → Text
  | 0, _ => []
  | width + 1, n => bigEndian width (n / 256) ++ [UInt8.ofNat n]

/-- A number under a kind, in the fewest bytes. -/
def tagged (kind : UInt8) (n : Nat) : Text :=
  if n < 24 then [kind ||| UInt8.ofNat n]
  else if n ≤ 0xFF then (kind ||| 24) :: bigEndian 1 n
  else if n ≤ 0xFFFF then (kind ||| 25) :: bigEndian 2 n
  else if n ≤ 0xFFFFFFFF then (kind ||| 26) :: bigEndian 4 n
  else (kind ||| 27) :: bigEndian 8 n

/-- An integer. -/
def int : Int → Text
  | .ofNat n => tagged 0x00 n
  | .negSucc n => tagged 0x20 (n + 2)

/-- A string. -/
def string (s : String) : Text :=
  let t := utf8 s
  tagged 0x60 t.length ++ t

/-- Nothing. -/
def nil : Text := [0xF6]

/-- An array of integers, closed by a mark rather than counted. -/
def ints (ns : List Nat) : Text :=
  0x9F :: ns.flatMap (tagged 0x00) ++ [0xFF]

/-- A map from names to integers. -/
def record (fields : List (String × Int)) : Text :=
  tagged 0xA0 fields.length ++ fields.flatMap fun f => string f.1 ++ int f.2

end Straightline.Wire
