/-
  Integer literals.

  A literal is an optional sign and digits.  A plain literal is in base ten; a
  prefixed one may start with `0x`, `0o`, `0b` or `0` (octal), in either case,
  and may have underscores between digits, or between a prefix and a digit.
  Values are 64-bit and signed.

  * `Numeral.read` reads a literal;
  * a literal that is out of range is told from one that is malformed: digits
    are read from the left, and the first fault counts.
-/
import Straightline.Text.Quoted

namespace Straightline

/-- How a literal is written: in base ten, or with prefixes and underscores. -/
inductive NumeralStyle where
  /-- `-12`: base ten only -/
  | plain
  /-- `-0x_ff`: a prefix gives the base, underscores separate digits -/
  | prefixed
  deriving DecidableEq

/-- Why a literal has no value. -/
inductive NumeralProblem where
  | malformed
  | outOfRange
  deriving DecidableEq

/-- A literal that could not be read. -/
structure NumeralError where
  literal : Text
  problem : NumeralProblem

/-- The error's text names the literal and the problem. -/
def NumeralError.message (e : NumeralError) : Text :=
  utf8 "strconv.ParseInt: parsing " ++ quoted e.literal ++ utf8 (match e.problem with
    | .malformed => ": invalid syntax"
    | .outOfRange => ": value out of range")

namespace Numeral

/-- An ASCII letter in lower case; other bytes may become anything that is no
    letter. -/
def lower (b : UInt8) : UInt8 := b ||| 32

/-- The value of a digit, letters standing for ten and more. -/
def digit? (b : UInt8) : Option Nat :=
  if 48 ≤ b && b ≤ 57 then some (b.toNat - 48)
  else if 97 ≤ lower b && lower b ≤ 122 then some ((lower b).toNat - 87)
  else none

/-- The base of an unsigned literal and its digits. -/
def base : NumeralStyle → Text → Nat × Text
  | .plain, s => (10, s)
  | .prefixed, 48 :: p :: b :: s =>
    if lower p = 98 then (2, b :: s)
    else if lower p = 111 then (8, b :: s)
    else if lower p = 120 then (16, b :: s)
    else (8, p :: b :: s)
  | .prefixed, 48 :: s => (8, s)
  | .prefixed, s => (10, s)

/-- The least number that does not fit 64 bits. -/
def unsignedLimit : Nat := 0x10000000000000000

/-- The value of a run of digits, read from the left onto `acc`. -/
def magnitude (style : NumeralStyle) (base : Nat) : (acc : Nat) → Text → Except NumeralProblem Nat
  | acc, [] => .ok acc
  | acc, b :: s =>
    if b = 95 ∧ style = .prefixed then magnitude style base acc s
    else match digit? b with
      | none => .error .malformed
      | some d =>
        if base ≤ d then .error .malformed
        else if unsignedLimit ≤ acc * base + d then .error .outOfRange
        else magnitude style base (acc * base + d) s

/-- Does every underscore stand behind a digit or a base prefix, and before a
    digit?  `digitBefore` says whether a digit or a prefix stands before the text. -/
def separated : (digitBefore : Bool) → Text → Bool
  | _, [] => true
  | before, 95 :: s =>
    before && (match s with
      | b :: _ => b != 95 && (digit? b).isSome
      | [] => false) && separated false s
  | _, _ :: s => separated true s

/-- The part of an unsigned literal in which underscores may stand: behind the
    base prefix, if it has one. -/
def separable : Text → Bool × Text
  | 48 :: p :: s =>
    if lower p = 98 ∨ lower p = 111 ∨ lower p = 120 then (true, s) else (false, 48 :: p :: s)
  | s => (false, s)

/-- The value of an unsigned literal. -/
def unsigned (style : NumeralStyle) (s : Text) : Except NumeralProblem Nat := do
  if s.isEmpty then throw .malformed
  let (radix, ds) := base style s
  let n ← magnitude style radix 0 ds
  let (before, body) := separable s
  if style = .prefixed ∧ !separated before body then throw .malformed
  return n

/-- The sign of a literal and what stands behind it. -/
def sign : Text → Bool × Text
  | 43 :: s => (false, s)
  | 45 :: s => (true, s)
  | s => (false, s)

/-- The absolute value of the least number of 64 bits; the greatest is one less. -/
def signedLimit : Nat := 0x8000000000000000

/-- The value of a signed literal of 64 bits. -/
def value (style : NumeralStyle) (s : Text) : Except NumeralProblem Int := do
  let (negative, ds) := sign s
  let n ← unsigned style ds
  if negative then
    if signedLimit < n then throw .outOfRange else return -(n : Int)
  else
    if signedLimit ≤ n then throw .outOfRange else return (n : Int)

/-- Read a literal. -/
def read (style : NumeralStyle) (s : Text) : Except NumeralError Int :=
  (value style s).mapError (⟨s, ·⟩)

end Numeral

end Straightline
