/-
  Reading a source.

  The whole text must be read; only blanks may be left behind what the grammar
  takes.

  * `Source.parseAs` reads a source by any grammar term;
  * `Source.parse` reads it as a file.
-/
import Straightline.Syntax.Grammar

namespace Straightline

/-- Why a source could not be read. -/
inductive ParseError where
  /-- the text does not follow the grammar -/
  | syntaxError (position : Position) (failure : Failure)
  /-- something is left behind what the grammar takes -/
  | partialRead (stop : Nat)
  deriving DecidableEq

/-- What a parse error says. -/
def ParseError.message : ParseError → Text
  | syntaxError p e => p.render ++ utf8 ": " ++ e.message
  | partialRead stop => utf8 s!"partial read: stopped at {stop}"

namespace Source

/-- Read the whole text of a source. -/
def readAll {α : Type} (s : Source) (p : Parser α) : Except ParseError α :=
  match p (.ofText s.text) with
  | ⟨stop, .error e⟩ => .error (.syntaxError (s.positionAt stop.offset) e)
  | ⟨stop, .ok a⟩ =>
    let stop := stop.skip .all
    if stop.rest.isEmpty then .ok a else .error (.partialRead stop.offset)

/-- Read a source by a grammar term. -/
def parseAs (s : Source) (g : Grammar) : Except ParseError Tree.Node :=
  s.readAll g.parser

/-- Read a source as a file. -/
def parse (s : Source) : Except ParseError Tree.File :=
  s.readAll Program.file

end Source

end Straightline
