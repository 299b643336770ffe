/-
  Parsers.

  A parser starts at a cursor and ends at one, with a value or a failure.  How
  far a failed parser got matters: an alternative that moved is a better guess
  at what was meant than one that did not, and a repetition ends quietly at an
  item that does not start.

  * `Parser.spaced` skips blanks first, `Parser.context` puts a part between
    two others;
  * `Parser.allOf` reads parts in order, `Parser.anyOf` tries alternatives,
    `Parser.many` repeats until there is no progress;
  * `Parser.optional` reads a part that may be absent.
-/
import Straightline.Syntax.Cursor
import Straightline.Syntax.Token
import Straightline.Syntax.Source

namespace Straightline

/-- How a parser ended: where, and with what. -/
structure Outcome (α : Type) where
  stop : Cursor
  result : Except Failure α

/-- A parser. -/
abbrev Parser (α : Type) := Cursor → Outcome α

namespace Parser

variable {α β : Type}

/-- Read nothing. -/
def succeed (a : α) : Parser α := fun c => ⟨c, .ok a⟩

/-- Read one part, then another that depends on it. A failure ends it where it
    happens. -/
def andThen (p : Parser α) (f : α → Parser β) : Parser β := fun c =>
  match p c with
  | ⟨stop, .ok a⟩ => f a stop
  | ⟨stop, .error e⟩ => ⟨stop, .error e⟩

instance : Monad Parser where
  pure := succeed
  bind := andThen

/-- The point where the parser stands. -/
def here : Parser Cursor := fun c => ⟨c, .ok c⟩

/-- A parser whose failures are known to be inside a part. -/
def within (f : Frame) (p : Parser α) : Parser α := fun c =>
  match p c with
  | ⟨stop, .error e⟩ => ⟨stop, .error (e.within f)⟩
  | done => done

/-- A parser that, if it fails, fails where it started with one expectation. -/
def expecting (e : Expectation) (p : Parser α) : Parser α := fun c =>
  match p c with
  | ⟨_, .error _⟩ => ⟨c, .error (.of e)⟩
  | done => done

/-- Read a token: its span. -/
def token (scan : Text → Token.Scan) : Parser Span := fun c =>
  match scan c.rest with
  | .ok n => ⟨c.advance n, .ok ⟨c.offset, (c.offset + n : Nat)⟩⟩
  | .error (n, e) => ⟨c.advance n, .error (.of e)⟩

/-- Skip blanks, then read a part. If the part does not start, neither do the
    blanks. -/
def spaced (skip : Spaces) (kind : Kind) (p : Parser α) : Parser α := fun c =>
  let start := c.skip skip
  match p start with
  | ⟨stop, .error e⟩ =>
    ⟨if stop.offset = start.offset then c else stop, .error (e.within (.inside kind))⟩
  | done => done

/-- Read a part if there is one. -/
def maybe (frame : Frame) (p : Option (Parser α)) : Parser Unit := fun c =>
  match p with
  | none => ⟨c, .ok ()⟩
  | some p => (do let _ ← p.within frame) c

/-- Read a part between two others, which may be left out. If the part does not
    start, neither does what goes before it. -/
def context (pre : Option (Parser β)) (p : Parser α) (post : Option (Parser β)) : Parser α :=
  fun c =>
    match maybe .before pre c with
    | ⟨stop, .error e⟩ => ⟨stop, .error e⟩
    | ⟨start, .ok _⟩ =>
      match p start with
      | ⟨stop, .error e⟩ =>
        ⟨if stop.offset = start.offset then c else stop, .error (e.within .body)⟩
      | ⟨stop, .ok a⟩ => (do maybe .after post; return a : Parser α) stop

/-- Read parts in order, of which the first has the given index. -/
def allOfFrom : (index : Nat) → List (Kind × Parser α) → Parser (List α)
  | _, [] => pure []
  | index, (kind, p) :: ps => do
    let a ← p.within (.element kind index)
    let as ← allOfFrom (index + 1) ps
    return a :: as

/-- Read parts in order. -/
def allOf (ps : List (Kind × Parser α)) : Parser (List α) :=
  allOfFrom 0 ps

/-- The first of some alternatives that can be read from a point; if there is
    none, the first failure among those that moved, or else `none`. -/
def firstOf (c : Cursor) : List (Kind × Parser α) → Option (Outcome α)
  | [] => none
  | (kind, p) :: ps =>
    match p c with
    | ⟨stop, .ok a⟩ => some ⟨stop, .ok a⟩
    | ⟨stop, .error e⟩ =>
      match firstOf c ps with
      | some ⟨stop', .ok a⟩ => some ⟨stop', .ok a⟩
      | other =>
        if stop.offset = c.offset then other
        else some ⟨stop, .error (e.within (.inside kind))⟩

/-- Read the first of some alternatives that can be read. -/
def anyOf (ps : List (Kind × Parser α)) : Parser α := fun c =>
  (firstOf c ps).getD ⟨c, .error (.of (.oneOf (ps.map (·.1))))⟩

/-- Repeat a part, of which `count` items are behind, until the end of the text
    or until it does not move. A part that fails after moving fails it all. -/
def manyFrom (p : Parser α) (count : Nat) (c : Cursor) : Outcome (List α) :=
  if c.rest.isEmpty then ⟨c, .ok []⟩
  else
    match p c with
    | ⟨stop, .error e⟩ =>
      if stop.offset = c.offset then ⟨c, .ok []⟩ else ⟨stop, .error (e.within (.item count))⟩
    | ⟨stop, .ok a⟩ =>
      if stop.rest.length < c.rest.length then
        match manyFrom p (count + 1) stop with
        | ⟨final, .ok as⟩ => ⟨final, .ok (a :: as)⟩
        | failed => failed
      else ⟨c, .ok []⟩
termination_by c.rest.length

/-- Repeat a part until there is no progress. -/
def many (p : Parser α) : Parser (List α) :=
  manyFrom p 0

/-- Read a part that may be absent: it is if it does not start. -/
def optional (p : Parser α) : Parser (Option α) := fun c =>
  match p c with
  | ⟨stop, .ok a⟩ => ⟨stop, .ok (some a)⟩
  | ⟨stop, .error e⟩ => if stop.offset = c.offset then ⟨c, .ok none⟩ else ⟨stop, .error e⟩

end Parser

end Straightline
