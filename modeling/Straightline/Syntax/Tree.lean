/-
  Syntax trees.

  A file is a sequence of blocks, a block a name and statements, a statement an
  instruction or one of the directives `live` and `out`.  Every part knows the
  span of text it was read from; identifiers, integers and strings are nothing
  but their span.

  A tree may also be made by hand, so the place of a statement or an argument
  may be taken by something else (`Stray`).
-/
import Straightline.Syntax.Source

namespace Straightline.Tree

/-- A node where the grammar never puts it. -/
inductive Stray where
  | ident (span : Span)
  | int (span : Span)
  | string (span : Span)
  | instr (span : Span)
  | live (span : Span)
  | out (span : Span)
  | block (span : Span)
  /-- a node without text -/
  | none
  /-- no node at all -/
  | missing
  deriving DecidableEq

/-- The span of a node, if it has one. -/
def Stray.span? : Stray → Option Span
  | ident s | int s | string s | instr s | live s | out s | block s => some s
  | none | missing => Option.none

/-- What the node is called. -/
def Stray.kindName : Stray → String
  | ident _ => "ast.Ident"
  | int _ => "ast.Int"
  | string _ => "ast.String"
  | instr _ => "ast.Instr"
  | live _ => "ast.Live"
  | out _ => "ast.Out"
  | block _ => "ast.Block"
  | none => "parse.None"
  | missing => "<nil>"

/-- An argument of an instruction. -/
inductive Arg where
  /-- `x` -/
  | ident (span : Span)
  /-- `-0x10` -/
  | int (span : Span)
  /-- `"text"` -/
  | string (span : Span)
  /-- something that is no argument -/
  | stray (node : Stray)
  deriving DecidableEq

/-- Where an argument starts; one without a place of its own is at the start of
    the text. -/
def Arg.start : Arg → Int
  | ident s | int s | string s => s.start
  | stray n => (n.span?.map (·.start)).getD 0

/-- An instruction `[dst =] op arg*`. -/
structure Instr where
  span : Span
  dst : Option Span
  op : Span
  args : List Arg
  deriving DecidableEq

/-- A directive: a word and names. -/
structure Directive where
  span : Span
  temps : List Span
  deriving DecidableEq

/-- A statement: one line of a block. -/
inductive Stmt where
  | instr (i : Instr)
  /-- `live x*`: the temps live after the preceding instruction -/
  | live (d : Directive)
  /-- `out x*`: temps live at the end of the block -/
  | out (d : Directive)
  /-- something that is no statement -/
  | stray (node : Stray)
  deriving DecidableEq

/-- A block `block name` and its lines. -/
structure Block where
  span : Span
  name : Span
  stmts : List Stmt
  deriving DecidableEq

/-- A file: a sequence of blocks. -/
structure File where
  span : Span
  blocks : List Block
  deriving DecidableEq

/-- What a grammar reads. -/
inductive Node where
  | file (f : File)
  | block (b : Block)
  | stmt (s : Stmt)
  | arg (a : Arg)
  /-- nothing -/
  | none
  /-- a text that was asked for -/
  | const (text : Text)
  /-- a word that was asked for -/
  | keyword (word : Text)
  /-- several nodes in order -/
  | list (nodes : List Node)

end Straightline.Tree
