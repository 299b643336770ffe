/-
  Source texts and places in them.

  A source is a sequence of named files, read as one text.  Offsets count bytes
  of that text; a place shown to people is a file, a line and a column, the
  latter two counted from one.

  * `Source.positionAt` turns an offset into a place;
  * `Source.slice` is the text of a span.
-/
import Straightline.Fault

namespace Straightline

/-- A byte range of a source text, from `start` up to but not including `stop`.
    Spans of parsed trees lie in the text; those of trees made by hand need
    not. -/
structure Span where
  start : Int
  stop : Int
  deriving DecidableEq, Repr

/-- A place in a file. -/
structure Position where
  file : Text
  line : Nat
  col : Nat
  deriving DecidableEq

/-- A place as it is shown: the file is left out if it has no name. -/
def Position.render (p : Position) : Text :=
  let place := utf8 s!"{p.line}:{p.col}"
  if p.file.isEmpty then place else p.file ++ utf8 ":" ++ place

/-- A named text. -/
structure SourceFile where
  name : Text
  text : Text
  deriving DecidableEq

/-- Files that are read one after the other. -/
structure Source where
  files : List SourceFile
  deriving DecidableEq

namespace Source

/-- A source of one file. -/
def ofText (name text : Text) : Source :=
  ⟨[⟨name, text⟩]⟩

/-- The texts of files, one after the other. -/
def joined : List SourceFile → Text
  | [] => []
  | [f] => f.text
  | f :: g :: rest => f.text ++ joined (g :: rest)

/-- The text of all files. -/
def text (s : Source) : Text :=
  joined s.files

/-- The place behind the first `n` bytes of a file, or at its end if it is
    shorter. -/
def placeIn (f : SourceFile) (n : Nat) : Position :=
  let seen := f.text.take n
  ⟨f.name, 1 + seen.count newline, 1 + (seen.reverse.takeWhile (· != newline)).length⟩

/-- The place behind the first `n` bytes of some files: in the first file that
    has a byte there, else at the end of the last. -/
def placeAmong : List SourceFile → Nat → Position
  | [], _ => ⟨[], 1, 1⟩
  | [f], n => placeIn f n
  | f :: g :: rest, n =>
    if n < f.text.length then placeIn f n else placeAmong (g :: rest) (n - f.text.length)

/-- The place of an offset. -/
def positionAt (s : Source) (offset : Nat) : Position :=
  placeAmong s.files offset

/-- The place of an offset, which must not be negative unless there are no
    files. -/
def position (s : Source) : Int → Except Fault Position
  | .ofNat n => .ok (s.positionAt n)
  | .negSucc _ => if s.files.isEmpty then .ok ⟨[], 1, 1⟩ else .error .outOfRange

/-- The text of a span, which must lie in the source. -/
def slice (s : Source) (r : Span) : Except Fault Text :=
  if 0 ≤ r.start ∧ r.start ≤ r.stop ∧ r.stop ≤ s.text.length then
    .ok ((s.text.drop r.start.toNat).take (r.stop - r.start).toNat)
  else .error .outOfRange

end Source

end Straightline
