/-
  The grammar of programs.

  A file is a sequence of blocks between blanks, empty lines and comments.  A
  block is a header line and statement lines, up to the next header or the end.
  A statement is `live name*`, `out name*` or `[name =] name argument*`.

  * `Program.file` reads a file, and `Program.block`, `Program.stmt`,
    `Program.instr` its parts.
-/
import Straightline.Syntax.Parser
import Straightline.Syntax.Tree

namespace Straightline.Program

open Straightline.Parser

/-! ## Tokens -/

/-- Read an identifier. -/
def ident : Parser Span := token Token.ident

/-- Read an integer. -/
def int : Parser Span := token Token.int

/-- Read a string. -/
def string : Parser Span := token Token.string

/-- Read a given text. -/
def const (t : Text) : Parser Span := token (Token.const t)

/-- Read a given word. -/
def keyword (w : Text) : Parser Span := token (Token.keyword w)

/-- Read the end of a line. -/
def eol : Parser Span := token Token.eol

/-! ## Statements -/

/-- Read an identifier behind blanks. -/
def name : Parser Span := spaced .tab .ident ident

/-- Read an argument: an identifier, an integer or a string. -/
def arg : Parser Tree.Arg :=
  anyOf [(.ident, Tree.Arg.ident <$> ident), (.int, Tree.Arg.int <$> int),
    (.string, Tree.Arg.string <$> string)]

/-- Read `= op`, blanks allowed in front of both. -/
def operator : Parser Span :=
  context (some (spaced .tab .const (const (utf8 "=")))) name none

/-- Read an instruction. -/
def instr : Parser Tree.Instr := do
  let start ← here
  let head ← ident.expecting .instruction
  let op ← operator.optional.within .operator
  let args ← (many (spaced .tab .arg arg)).within .arguments
  let stop ← here
  let span : Span := ⟨start.offset, stop.offset⟩
  match op with
  | some op => return ⟨span, some head, op, args⟩
  | none => return ⟨span, none, head, args⟩

/-- Read a word and names. -/
def directive (word : Text) : Parser Tree.Directive := do
  let start ← here
  let _ ← keyword word
  let temps ← (many name).within (.directive word)
  let stop ← here
  return ⟨⟨start.offset, stop.offset⟩, temps⟩

/-- Read the temps live after an instruction. -/
def live : Parser Tree.Directive := directive (utf8 "live")

/-- Read temps live at the end of a block. -/
def out : Parser Tree.Directive := directive (utf8 "out")

/-- Read a statement. -/
def stmt : Parser Tree.Stmt :=
  anyOf [(.live, Tree.Stmt.live <$> live), (.out, Tree.Stmt.out <$> out),
    (.instr, Tree.Stmt.instr <$> instr)]

/-- Read a statement and the end of its line. -/
def stmtLine : Parser Tree.Stmt := do
  let s ← stmt.within (.element .stmt 0)
  let _ ← eol.within (.element .eol 1)
  return s

/-! ## Blocks -/

/-- The word that opens a block. -/
def blockWord : Text := utf8 "block"

/-- Read the line that opens a block: its name. -/
def header : Parser Span := do
  let _ ← (keyword blockWord).within (.element .keyword 0)
  let name ← name.within (.element .spaced 1)
  let _ ← eol.within (.element .eol 2)
  return name

/-- Does a block open at this point? -/
def opensBlock (c : Cursor) : Bool :=
  (Token.keyword blockWord c.rest).isOk

/-- Read the lines of a block, of which `count` are behind, and the offset at
    which the last of them ends. -/
def linesFrom (count : Nat) (c : Cursor) : Outcome (List Tree.Stmt × Nat) :=
  let start := c.skipBlank
  if start.rest.isEmpty then ⟨start, .ok ([], c.offset)⟩
  else if opensBlock start then ⟨c, .ok ([], c.offset)⟩
  else
    match stmtLine.within (.line count) start with
    | ⟨stop, .error e⟩ => ⟨stop, .error e⟩
    | ⟨stop, .ok s⟩ =>
      if stop.rest.length < c.rest.length then
        match linesFrom (count + 1) stop with
        | ⟨final, .ok (rest, last)⟩ => ⟨final, .ok (s :: rest, last)⟩
        | failed => failed
      else ⟨stop, .ok ([s], stop.offset)⟩
termination_by c.rest.length

/-- Read a block. -/
def block : Parser Tree.Block := do
  let start ← here
  let name ← header
  let (stmts, last) ← linesFrom 0
  return ⟨⟨start.offset, last⟩, name, stmts⟩

/-- Read blocks, of which `count` are behind, up to the end of the text. -/
def blocksFrom (count : Nat) (c : Cursor) : Outcome (List Tree.Block) :=
  if c.rest.isEmpty then ⟨c, .ok []⟩
  else
    match block.within (.block count) c with
    | ⟨stop, .error e⟩ => ⟨stop, .error e⟩
    | ⟨stop, .ok b⟩ =>
      if stop.skipBlank.rest.length < c.rest.length then
        match blocksFrom (count + 1) stop.skipBlank with
        | ⟨final, .ok rest⟩ => ⟨final, .ok (b :: rest)⟩
        | failed => failed
      else ⟨stop.skipBlank, .ok [b]⟩
termination_by c.rest.length

/-- Read a file. -/
def file : Parser Tree.File := fun c =>
  match blocksFrom 0 c.skipBlank with
  | ⟨stop, .ok blocks⟩ => ⟨stop, .ok ⟨⟨c.offset, stop.offset⟩, blocks⟩⟩
  | ⟨stop, .error e⟩ => ⟨stop, .error e⟩

end Straightline.Program
