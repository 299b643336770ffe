/-
  Blank characters.

  * `isBlank` holds of the characters with the Unicode property White_Space;
  * `trimmed` cuts blank characters off both ends of a text.
-/
import Straightline.Text.Rune

namespace Straightline

/-- Is the character white space? -/
def isBlank (c : Char) : Bool :=
  let n := c.toNat
  (9 ≤ n && n ≤ 13) || n == 0x20 || n == 0x85 || n == 0xA0 || n == 0x1680 ||
    (0x2000 ≤ n && n ≤ 0x200A) || n == 0x2028 || n == 0x2029 || n == 0x202F || n == 0x205F ||
    n == 0x3000

/-- Is the piece a blank character? A stray byte never is. -/
def Piece.isBlank : Piece → Bool
  | .char c => Straightline.isBlank c
  | .stray _ => false

/-- A text without the blank characters at its ends. -/
def trimmed (s : Text) : Text :=
  let front := (pieces s).dropWhile Piece.isBlank
  (front.reverse.dropWhile Piece.isBlank).reverse.flatMap Piece.bytes

end Straightline
