/-
  Texts.

  A text is a list of bytes.  Program texts need not be valid UTF-8, and every
  offset and column counts bytes, so names, labels and messages are byte lists
  as well.

  * `utf8` is the text of a string;
  * `decimal` writes an integer in base ten;
  * `cutAt` cuts a text at every occurrence of a byte.
-/

namespace Straightline

/-- A sequence of bytes, most often UTF-8. -/
abbrev Text := List UInt8

/-- The UTF-8 bytes of a string. -/
def utf8 (s : String) : Text :=
  s.toUTF8.data.toList

/-- An integer in base ten, with a minus sign if it is negative. -/
def decimal (n : Int) : Text :=
  utf8 (toString n)

/-- The newline byte. -/
def newline : UInt8 := 10

/-- The parts of a text between the occurrences of a byte, empty ones too. -/
def cutAt (mark : UInt8) : Text → List Text
  | [] => [[]]
  | b :: s =>
    match cutAt mark s with
    | part :: rest => if b = mark then [] :: part :: rest else (b :: part) :: rest
    | [] => []

/-- A text indented by one tab. -/
def indented (t : Text) : Text :=
  9 :: t

end Straightline
