/-
  Cursors and blanks.

  A cursor stands between two bytes of a text: it knows how many bytes go
  before it and which ones follow.

  * `Spaces` is a set of byte codes below 64 that count as blank;
  * `Cursor.skip` moves over blanks, `Cursor.skipBlank` over blanks, empty
    lines and comments;
  * `lineEnd?` measures the end of a line: blanks, a comment, and a newline or
    the end of the text.
-/
import Straightline.Fault

namespace Straightline

/-- A point of a text. -/
structure Cursor where
  /-- The number of bytes before the point. -/
  offset : Nat
  /-- The bytes that follow. -/
  rest : Text
  deriving DecidableEq

namespace Cursor

/-- The start of a text. -/
def ofText (t : Text) : Cursor := ⟨0, t⟩

/-- The point behind the first `n` bytes of a text. -/
def ofOffset (t : Text) (n : Nat) : Cursor := ⟨n, t.drop n⟩

/-- The point `n` bytes further on. -/
def advance (c : Cursor) (n : Nat) : Cursor :=
  ⟨c.offset + n, c.rest.drop n⟩

end Cursor

/-! ## Blanks -/

/-- A set of byte codes below 64, a bit for each. -/
structure Spaces where
  mask : UInt64
  deriving DecidableEq

namespace Spaces

/-- The set of some byte codes below 64. -/
def of (codes : List UInt8) : Spaces :=
  ⟨codes.foldl (fun m b => m ||| ((1 : UInt64) <<< b.toUInt64)) 0⟩

/-- The set of some byte codes, all of which must be below 64. -/
def ofCodes (codes : List UInt8) : Except Fault Spaces :=
  if codes.all (· < 64) then .ok (of codes) else .error .blankTooHigh

/-- Is the byte in the set? -/
def contains (s : Spaces) (b : UInt8) : Bool :=
  b < 64 && s.mask &&& ((1 : UInt64) <<< b.toUInt64) != 0

/-- Space and tab. -/
def tab : Spaces := of [32, 9]

/-- Space, tab and carriage return. -/
def line : Spaces := of [32, 9, 13]

/-- Space, tab, carriage return and newline. -/
def all : Spaces := of [32, 9, 13, 10]

/-- The number of blanks at the front of a text. -/
def count (s : Spaces) (t : Text) : Nat :=
  (t.takeWhile s.contains).length

end Spaces

/-- The byte that starts a comment: `#`. -/
def commentMark : UInt8 := 35

/-- The number of bytes of blanks, empty lines and comments at the front of a
    text; `inComment` if the text continues a comment. -/
def blankCount : (inComment : Bool) → Text → Nat
  | _, [] => 0
  | true, b :: s => 1 + blankCount (b != newline) s
  | false, b :: s =>
    if Spaces.all.contains b then 1 + blankCount false s
    else if b = commentMark then 1 + blankCount true s
    else 0

/-- The text behind a comment, if there is one at its front. -/
def dropComment (t : Text) : Text :=
  match t with
  | b :: s => if b = commentMark then s.dropWhile (· != newline) else t
  | [] => t

/-- The number of bytes of the end of a line, if there is one: blanks, a
    comment, and a newline or the end of the text. -/
def lineEnd? (t : Text) : Option Nat :=
  match dropComment (t.dropWhile Spaces.line.contains) with
  | [] => some t.length
  | b :: s => if b = newline then some (t.length - s.length) else none

namespace Cursor

/-- The point behind the blanks that follow. -/
def skip (s : Spaces) (c : Cursor) : Cursor :=
  c.advance (s.count c.rest)

/-- The point behind the blanks, empty lines and comments that follow. -/
def skipBlank (c : Cursor) : Cursor :=
  c.advance (blankCount false c.rest)

end Cursor

/-! ## Starting anywhere -/

namespace Spaces

/-- Skip blanks from an offset. Behind the end there is nothing to skip; before
    the start there is no text to look at. -/
def skipFrom (s : Spaces) (t : Text) : Int → Except Fault Int
  | .ofNat n => .ok (n + s.count (t.drop n) : Nat)
  | .negSucc _ => .error .outOfRange

end Spaces

/-- Skip blanks, empty lines and comments from an offset, which must lie in the
    text. -/
def skipBlankFrom (t : Text) : Int → Except Fault Int
  | .ofNat n =>
    if n ≤ t.length then .ok (n + blankCount false (t.drop n) : Nat) else .error .outOfRange
  | .negSucc _ => .error .outOfRange

end Straightline
