/-
  Grammar terms.

  A grammar term names a part of the program grammar, or combines terms.  Each
  term is a parser for nodes of syntax trees.

  * `Grammar.parser` is that parser;
  * `Grammar.blind` says what a term does when it is started outside the text,
    where there is nothing to look at;
  * `Grammar.parseAt` starts a term at any offset.
-/
import Straightline.Syntax.Program

namespace Straightline

/-- A grammar term. -/
inductive Grammar where
  /-- nothing -/
  | none
  | file
  | block
  | stmt
  | instr
  | live
  | out
  | arg
  | ident
  | int
  | string
  | eol
  /-- a given text -/
  | const (text : Text)
  /-- a given word -/
  | keyword (word : Text)
  /-- a term behind blanks -/
  | spaced (skip : Spaces) (g : Grammar)
  /-- a term between two others -/
  | context (pre : Option Grammar) (g : Grammar) (post : Option Grammar)
  /-- terms in order -/
  | allOf (gs : List Grammar)
  /-- one of some terms -/
  | anyOf (gs : List Grammar)
  /-- a term any number of times -/
  | many (g : Grammar)

namespace Grammar

/-- The kind of a term. -/
def kind : Grammar → Kind
  | none => .none
  | file => .file
  | block => .block
  | stmt => .stmt
  | instr => .instr
  | live => .live
  | out => .out
  | arg => .arg
  | ident => .ident
  | int => .int
  | string => .string
  | eol => .eol
  | const _ => .const
  | keyword _ => .keyword
  | spaced _ _ => .spaced
  | context _ _ _ => .context
  | allOf _ => .allOf
  | anyOf _ => .anyOf
  | many _ => .many

mutual

/-- The parser of a term. -/
def parser : Grammar → Parser Tree.Node
  | none => pure .none
  | file => Tree.Node.file <$> Program.file
  | block => Tree.Node.block <$> Program.block
  | stmt => Tree.Node.stmt <$> Program.stmt
  | instr => (fun i => .stmt (.instr i)) <$> Program.instr
  | live => (fun d => .stmt (.live d)) <$> Program.live
  | out => (fun d => .stmt (.out d)) <$> Program.out
  | arg => Tree.Node.arg <$> Program.arg
  | ident => (fun s => .arg (.ident s)) <$> Program.ident
  | int => (fun s => .arg (.int s)) <$> Program.int
  | string => (fun s => .arg (.string s)) <$> Program.string
  | eol => (fun _ => .none) <$> Program.eol
  | const t => (fun _ => .const t) <$> Program.const t
  | keyword w => (fun _ => .keyword w) <$> Program.keyword w
  | spaced skip g => Parser.spaced skip g.kind (parser g)
  | context pre g post => Parser.context (parserOf pre) (parser g) (parserOf post)
  | allOf gs => Tree.Node.list <$> Parser.allOf (parsersOf gs)
  | anyOf gs => Parser.anyOf (parsersOf gs)
  | many g => Tree.Node.list <$> Parser.many (parser g)

/-- The parser of a term that may be left out. -/
def parserOf : Option Grammar → Option (Parser Tree.Node)
  | .none => .none
  | some g => some (parser g)

/-- The parsers of some terms, with their kinds. -/
def parsersOf : List Grammar → List (Kind × Parser Tree.Node)
  | [] => []
  | g :: gs => (g.kind, parser g) :: parsersOf gs

end

/-! ## Starting outside the text -/

/-- Which side of the text a point lies on. -/
inductive Side where
  | before
  | behind

/-- What a term does without moving: nothing can be said if it looks at the
    text. -/
abbrev Unmoved (α : Type) := Option (Except Failure α)

/-- Add a part to the trail of a failure. -/
def Unmoved.within {α : Type} (f : Frame) (u : Unmoved α) : Unmoved α :=
  u.map (·.mapError (·.within f))

mutual

/-- What a term does when it is started outside the text. -/
def blind (side : Side) : Grammar → Unmoved Tree.Node
  | none => some (.ok .none)
  | spaced _ g =>
    match side with
    | .before => .none
    | .behind => (blind side g).within (.inside g.kind)
  | context pre g post =>
    match (blindOf side pre).within .before with
    | some (.ok _) =>
      match (blind side g).within .body with
      | some (.ok n) => ((blindOf side post).within .after).map (·.map fun _ => n)
      | other => other
    | some (.error e) => some (.error e)
    | .none => .none
  | allOf gs => (blindAll side 0 gs).map (·.map .list)
  | anyOf gs => blindAny side (gs.map kind) gs
  | many g =>
    match side with
    | .behind => some (.ok (.list []))
    | .before => (blind side g).map fun _ => .ok (.list [])
  | _ => .none

/-- What a term that may be left out does outside the text. -/
def blindOf (side : Side) : Option Grammar → Unmoved Unit
  | .none => some (.ok ())
  | some g => (blind side g).map (·.map fun _ => ())

/-- What terms in order, of which the first has the given index, do outside the
    text. -/
def blindAll (side : Side) : (index : Nat) → List Grammar → Unmoved (List Tree.Node)
  | _, [] => some (.ok [])
  | index, g :: gs =>
    match (blind side g).within (.element g.kind index) with
    | some (.ok n) => (blindAll side (index + 1) gs).map (·.map (n :: ·))
    | some (.error e) => some (.error e)
    | .none => .none

/-- What alternatives do outside the text: they cannot move, so the first that
    succeeds counts. -/
def blindAny (side : Side) (kinds : List Kind) : List Grammar → Unmoved Tree.Node
  | [] => some (.error (.of (.oneOf kinds)))
  | g :: gs =>
    match blind side g with
    | some (.ok n) => some (.ok n)
    | some (.error _) => blindAny side kinds gs
    | .none => .none

end

/-- Where a term stopped, and with what. -/
structure Reading where
  stop : Int
  result : Except Failure Tree.Node

/-- Start a term at an offset. Outside the text there is a fault if it looks at
    the text. -/
def parseAt (g : Grammar) (t : Text) (start : Int) : Except Fault Reading :=
  let outside (side : Side) : Except Fault Reading :=
    match g.blind side with
    | some result => .ok ⟨start, result⟩
    | .none => .error .outOfRange
  match start with
  | .ofNat n =>
    if n ≤ t.length then
      let outcome := g.parser (Cursor.ofOffset t n)
      .ok ⟨outcome.stop.offset, outcome.result⟩
    else outside .behind
  | .negSucc _ => outside .before

end Grammar

end Straightline
