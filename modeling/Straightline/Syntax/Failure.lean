/-
  Why a text could not be read.

  A failure is what was expected, and the trail of grammar parts inside which
  it was expected, the outermost first.

  * `Failure.message` shows the trail and then the expectation.
-/
import Straightline.Text.Quoted

namespace Straightline

/-- The kinds of grammar terms. -/
inductive Kind where
  | none | file | block | stmt | instr | live | out | arg | ident | int | string | eol
  | const | keyword | spaced | context | allOf | anyOf | many
  deriving DecidableEq

/-- What a kind is called in messages. -/
def Kind.name : Kind → String
  | none => "parse.None"
  | file => "parse.File"
  | block => "parse.Block"
  | stmt => "parse.Stmt"
  | instr => "parse.Instr"
  | live => "parse.Live"
  | out => "parse.Out"
  | arg => "parse.Arg"
  | ident => "parse.Ident"
  | int => "parse.Int"
  | string => "parse.String"
  | eol => "parse.EOL"
  | const => "parse.Const"
  | keyword => "parse.Keyword"
  | spaced => "parse.Spacer"
  | context => "parse.Context"
  | allOf => "parse.AllOf"
  | anyOf => "parse.AnyOf"
  | many => "parse.Many"

/-- What was expected, or what was wrong instead. -/
inductive Expectation where
  | ident
  /-- bytes in an identifier that are no character -/
  | badRune
  | int
  | string
  | newlineInString
  | unterminatedString
  | endOfLine
  | instruction
  | literal (text : Text)
  | oneOf (kinds : List Kind)
  deriving DecidableEq

/-- Alternatives in a sentence: `A, B or C`. -/
def Kind.alternatives : List Kind → String
  | [] => "<none>"
  | [k] => k.name
  | [k, l] => k.name ++ " or " ++ l.name
  | k :: ks => k.name ++ ", " ++ alternatives ks

/-- What an expectation says. -/
def Expectation.message : Expectation → Text
  | ident => utf8 "Ident expected"
  | badRune => utf8 "bad rune"
  | int => utf8 "Int expected"
  | string => utf8 "String expected"
  | newlineInString => utf8 "newline in string"
  | unterminatedString => utf8 "unterminated string"
  | endOfLine => utf8 "end of line expected"
  | instruction => utf8 "instruction expected"
  | literal t => quoted t ++ utf8 " expected"
  | oneOf kinds => utf8 ("expected " ++ Kind.alternatives kinds)

/-- A grammar part inside which something failed. -/
inductive Frame where
  /-- an element of a sequence -/
  | element (kind : Kind) (index : Nat)
  /-- a part of this kind -/
  | inside (kind : Kind)
  /-- what goes before, is, and goes after a part in context -/
  | before
  | body
  | after
  /-- an item of a repetition -/
  | item (index : Nat)
  | block (index : Nat)
  | line (index : Nat)
  /-- what stands behind an equals sign -/
  | operator
  | arguments
  | directive (word : Text)
  deriving DecidableEq

/-- What a grammar part is called. -/
def Frame.message : Frame → Text
  | element kind index => utf8 s!"{kind.name} ({index})"
  | inside kind => utf8 kind.name
  | before => utf8 "pre"
  | body => utf8 "of"
  | after => utf8 "post"
  | item index => utf8 s!"item {index}"
  | block index => utf8 s!"block {index}"
  | line index => utf8 s!"line {index}"
  | operator => utf8 "op"
  | arguments => utf8 "args"
  | directive word => word

/-- Why a text could not be read. -/
structure Failure where
  /-- The grammar parts inside which it failed, the outermost first. -/
  trail : List Frame
  cause : Expectation
  deriving DecidableEq

namespace Failure

/-- A failure with nothing around it. -/
def of (cause : Expectation) : Failure := ⟨[], cause⟩

/-- The failure inside one more part. -/
def within (f : Frame) (e : Failure) : Failure :=
  { e with trail := f :: e.trail }

/-- What a failure says. -/
def message (e : Failure) : Text :=
  e.trail.foldr (fun f rest => f.message ++ utf8 ": " ++ rest) e.cause.message

end Failure

end Straightline
