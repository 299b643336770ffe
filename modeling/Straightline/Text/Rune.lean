/-
  Characters in a text.

  `Rune.decode?` reads the UTF-8 encoded character at the front of a text; it
  refuses overlong forms, surrogates and values above U+10FFFF.  `pieces` cuts
  a text into characters and the stray bytes between them.

  * `pieces_cons`: the first piece is what `decode?` reads, or else a stray
    byte, and the rest is cut behind it;
  * `runeCount` counts the pieces, and `padded` fills a text up to a width
    counted in pieces.
-/
import Straightline.Text.Basic

namespace Straightline

namespace Rune

/-- The six bits of a continuation byte. -/
def continuation? (b : UInt8) : Option Nat :=
  if 0x80 ≤ b && b < 0xC0 then some (b.toNat - 0x80) else none

/-- The character with code point `n`, unless `n` has a form with fewer bytes
    (it is below `least`) or is no character. -/
def scalar? (least n : Nat) : Option Char :=
  if least ≤ n ∧ n.isValidChar then some (Char.ofNat n) else none

/-- The character at the front of a text and the number of its bytes. -/
def decode? : Text → Option (Char × Nat)
  | [] => none
  | a :: s =>
    if a < 0x80 then some (Char.ofNat a.toNat, 1)
    else if a < 0xC0 then none
    else if a < 0xE0 then do
      let x ← s[0]?.bind continuation?
      let c ← scalar? 0x80 ((a.toNat - 0xC0) * 64 + x)
      return (c, 2)
    else if a < 0xF0 then do
      let x ← s[0]?.bind continuation?
      let y ← s[1]?.bind continuation?
      let c ← scalar? 0x800 (((a.toNat - 0xE0) * 64 + x) * 64 + y)
      return (c, 3)
    else if a < 0xF8 then do
      let x ← s[0]?.bind continuation?
      let y ← s[1]?.bind continuation?
      let z ← s[2]?.bind continuation?
      let c ← scalar? 0x10000 ((((a.toNat - 0xF0) * 64 + x) * 64 + y) * 64 + z)
      return (c, 4)
    else none

/-- The UTF-8 bytes of a character. -/
def encode (c : Char) : Text :=
  String.utf8EncodeChar c

end Rune

/-- A piece of a text: a character, or a byte that belongs to none. -/
inductive Piece where
  | char (c : Char)
  | stray (b : UInt8)
  deriving DecidableEq

/-- The bytes of a piece. -/
def Piece.bytes : Piece → Text
  | .char c => Rune.encode c
  | .stray b => [b]

/-- The pieces of a text behind its first `skip` bytes. -/
def piecesAfter : (skip : Nat) → Text → List Piece
  | _, [] => []
  | skip + 1, _ :: s => piecesAfter skip s
  | 0, b :: s =>
    match Rune.decode? (b :: s) with
    | some (c, n) => .char c :: piecesAfter (n - 1) s
    | none => .stray b :: piecesAfter 0 s

/-- A text cut into characters and stray bytes. -/
def pieces (s : Text) : List Piece :=
  piecesAfter 0 s

theorem piecesAfter_eq (skip : Nat) (s : Text) : piecesAfter skip s = pieces (s.drop skip) := by
  induction s generalizing skip with
  | nil => cases skip <;> simp [pieces, piecesAfter]
  | cons b s ih =>
    cases skip with
    | zero => rfl
    | succ skip => simpa [piecesAfter] using ih skip

theorem pieces_cons (b : UInt8) (s : Text) :
    pieces (b :: s) = match Rune.decode? (b :: s) with
      | some (c, n) => .char c :: pieces (s.drop (n - 1))
      | none => .stray b :: pieces s := by
  rw [pieces, piecesAfter]
  cases Rune.decode? (b :: s) with
  | none => rfl
  | some r => simp [piecesAfter_eq]

/-- The number of characters of a text, a stray byte counting as one. -/
def runeCount (s : Text) : Nat :=
  (pieces s).length

/-- A text filled up with spaces on the right to a width counted in characters. -/
def padded (width : Nat) (s : Text) : Text :=
  s ++ List.replicate (width - runeCount s) 32

end Straightline
