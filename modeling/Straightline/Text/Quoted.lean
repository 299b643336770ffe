/-
  Quoted texts.

  A quoted text stands between double quotes.  Printable characters other than
  the quote and the backslash are written as they are, everything else as an
  escape; a byte that belongs to no character is written `\xNN`.

  * `quoted` writes a text in this form;
  * `unquoted?` reads a literal back.  It also takes octal escapes `\NNN` and
    escapes of printable characters, and it reads a byte that belongs to no
    character as U+FFFD;
  * a literal may also stand between single quotes, if it is one character at
    most, or between back quotes, where nothing is escaped and carriage returns
    are left out.
-/
import Straightline.Text.Rune
import Straightline.Text.Printable

namespace Straightline

namespace Quoted

/-- The double quote. -/
def quote : UInt8 := 34

/-- The single quote. -/
def singleQuote : UInt8 := 39

/-- The back quote. -/
def backQuote : UInt8 := 96

/-- The backslash. -/
def backslash : UInt8 := 92

/-! ## Writing -/

/-- A hexadecimal digit in lower case. -/
def hexDigit (n : Nat) : UInt8 :=
  if n < 10 then UInt8.ofNat (48 + n) else UInt8.ofNat (87 + n)

/-- The last `width` hexadecimal digits of a number. -/
def hex : (width : Nat) → Nat → Text
  | 0, _ => []
  | width + 1, n => hex width (n / 16) ++ [hexDigit (n % 16)]

/-- The letter of a one-letter escape: `\a`, `\b`, `\t`, `\n`, `\v`, `\f` or `\r`. -/
def letter? (c : Char) : Option UInt8 :=
  match c.toNat with
  | 7 => some 97
  | 8 => some 98
  | 9 => some 116
  | 10 => some 110
  | 11 => some 118
  | 12 => some 102
  | 13 => some 114
  | _ => none

/-- A character as it is written between quotes. -/
def escaped (c : Char) : Text :=
  let n := c.toNat
  if n = 34 ∨ n = 92 then [backslash, UInt8.ofNat n]
  else if isPrintable c then Rune.encode c
  else match letter? c with
    | some l => [backslash, l]
    | none =>
      if n < 0x20 ∨ n = 0x7F then backslash :: 120 :: hex 2 n
      else if n < 0x10000 then backslash :: 117 :: hex 4 n
      else backslash :: 85 :: hex 8 n

/-- A piece as it is written between quotes. -/
def escapedPiece : Piece → Text
  | .char c => escaped c
  | .stray b => backslash :: 120 :: hex 2 b.toNat

/-! ## Reading -/

/-- The value of a hexadecimal digit of either case. -/
def hexValue? (b : UInt8) : Option Nat :=
  if 48 ≤ b && b ≤ 57 then some (b.toNat - 48)
  else if 97 ≤ b && b ≤ 102 then some (b.toNat - 87)
  else if 65 ≤ b && b ≤ 70 then some (b.toNat - 55)
  else none

/-- The value of an octal digit. -/
def octalValue? (b : UInt8) : Option Nat :=
  if 48 ≤ b && b ≤ 55 then some (b.toNat - 48) else none

/-- The value of exactly `count` digits of a base at the front of a text. -/
def digits? (value? : UInt8 → Option Nat) (base : Nat) : (count acc : Nat) → Text → Option Nat
  | 0, acc, _ => some acc
  | _ + 1, _, [] => none
  | count + 1, acc, b :: s => do
    let v ← value? b
    digits? value? base count (acc * base + v) s

/-- The bytes that an escape denotes between two marks, and how many bytes it
    takes behind its backslash. Of the two kinds of quotes only the mark itself
    is escaped. -/
def escape? (mark : UInt8) : Text → Option (Text × Nat)
  | [] => none
  | b :: s =>
    match b with
    | 97 => some ([7], 1)
    | 98 => some ([8], 1)
    | 116 => some ([9], 1)
    | 110 => some ([10], 1)
    | 118 => some ([11], 1)
    | 102 => some ([12], 1)
    | 114 => some ([13], 1)
    | 92 => some ([92], 1)
    | 120 => do
      let v ← digits? hexValue? 16 2 0 s
      return ([UInt8.ofNat v], 3)
    | 117 => do
      let c ← Rune.scalar? 0 (← digits? hexValue? 16 4 0 s)
      return (Rune.encode c, 5)
    | 85 => do
      let c ← Rune.scalar? 0 (← digits? hexValue? 16 8 0 s)
      return (Rune.encode c, 9)
    | _ =>
      if b = mark then some ([b], 1)
      else do
        let v ← digits? octalValue? 8 3 0 (b :: s)
        if v < 256 then some ([UInt8.ofNat v], 3) else none

/-- The bytes that the first character between two marks denotes, and how many
    bytes it takes: an escape, a character, or a stray byte, which stands for
    U+FFFD. There is none at the closing mark and at a newline. -/
def element? (mark : UInt8) : Text → Option (Text × Nat)
  | [] => none
  | b :: s =>
    if b = mark ∨ b = newline then none
    else if b = backslash then (escape? mark s).map fun (t, n) => (t, n + 1)
    else match Rune.decode? (b :: s) with
      | some (c, n) => some (Rune.encode c, n)
      | none => some (Rune.encode '\uFFFD', 1)

/-- What stands between double quotes, behind the first `skip` bytes of it, up
    to the closing quote, which must be the end of the text. -/
def bodyAfter? : (skip : Nat) → Text → Option Text
  | _, [] => none
  | skip + 1, _ :: s => bodyAfter? skip s
  | 0, b :: s =>
    if b = quote then
      if s.isEmpty then some [] else none
    else do
      let (t, n) ← element? quote (b :: s)
      return t ++ (← bodyAfter? (n - 1) s)

/-- What stands between single quotes, up to the closing one, which must be the
    end of the text: nothing or one character. -/
def single? (s : Text) : Option Text :=
  if s = [singleQuote] then some []
  else do
    let (t, n) ← element? singleQuote s
    if s.drop n = [singleQuote] then some t else none

/-- What stands between back quotes, up to the first that follows, which must be
    the end of the text; carriage returns are left out. -/
def raw? (s : Text) : Option Text :=
  let body := s.takeWhile (· != backQuote)
  if s.drop body.length = [backQuote] then some (body.filter (· != 13)) else none

end Quoted

/-- A text between double quotes, with escapes for what is not printable. -/
def quoted (s : Text) : Text :=
  Quoted.quote :: (pieces s).flatMap Quoted.escapedPiece ++ [Quoted.quote]

/-- The text that a quoted literal denotes. -/
def unquoted? : Text → Option Text
  | [] => none
  | b :: s =>
    if b = Quoted.quote then Quoted.bodyAfter? 0 s
    else if b = Quoted.singleQuote then Quoted.single? s
    else if b = Quoted.backQuote then Quoted.raw? s
    else none

end Straightline
