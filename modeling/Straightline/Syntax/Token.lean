/-
  Tokens.

  A scanner measures the token at the front of a text, or says how far it got
  and what was wrong.

  * an identifier is an ASCII letter or underscore, then letters, digits,
    underscores and characters outside ASCII;
  * an integer is an optional sign, a digit, then letters, digits and
    underscores; its value is looked at later;
  * a string stands between double quotes, on one line unless a backslash goes
    before the newline; its escapes are looked at later.
-/
import Straightline.Text.Rune
import Straightline.Syntax.Cursor
import Straightline.Syntax.Failure

namespace Straightline.Token

/-- The length of a token, or the number of bytes before the fault and what is
    wrong. -/
abbrev Scan := Except (Nat × Expectation) Nat

/-- Is the byte an ASCII letter or an underscore? -/
def isIdentStart (b : UInt8) : Bool :=
  (97 ≤ b && b ≤ 122) || (65 ≤ b && b ≤ 90) || b == 95

/-- Is the byte an ASCII digit? -/
def isDigit (b : UInt8) : Bool :=
  48 ≤ b && b ≤ 57

/-- Is the byte an ASCII letter, a digit or an underscore? -/
def isIdentByte (b : UInt8) : Bool :=
  isIdentStart b || isDigit b

/-- Measure the rest of an identifier, of which `length` bytes are behind and
    `skip` more belong to a character already read. -/
def identRest : (length skip : Nat) → Text → Scan
  | length, _, [] => .ok length
  | length, skip + 1, _ :: s => identRest (length + 1) skip s
  | length, 0, b :: s =>
    if isIdentByte b then identRest (length + 1) 0 s
    else if b < 0x80 then .ok length
    else match Rune.decode? (b :: s) with
      | some (c, n) =>
        if c = '�' then .error (length, .badRune) else identRest (length + 1) (n - 1) s
      | none => .error (length, .badRune)

/-- Measure an identifier. -/
def ident : Text → Scan
  | b :: s => if isIdentStart b then identRest 1 0 s else .error (0, .ident)
  | [] => .error (0, .ident)

/-- Measure an integer without a sign, of which `length` bytes are behind. -/
def digits (length : Nat) : Text → Scan
  | b :: s =>
    if isDigit b then .ok (length + 1 + (s.takeWhile isIdentByte).length) else .error (0, .int)
  | [] => .error (0, .int)

/-- Measure an integer. -/
def int : Text → Scan
  | b :: s => if b = 43 ∨ b = 45 then digits 1 s else digits 0 (b :: s)
  | [] => .error (0, .int)

/-- Measure the rest of a string, of which `length` bytes are behind; `escaped`
    if the last of them is a backslash that takes the next byte along. -/
def stringRest : (length : Nat) → (escaped : Bool) → Text → Scan
  | length, _, [] => .error (length, .unterminatedString)
  | length, true, _ :: s => stringRest (length + 1) false s
  | length, false, b :: s =>
    if b = Quoted.backslash then stringRest (length + 1) true s
    else if b = newline then .error (length, .newlineInString)
    else if b = Quoted.quote then .ok (length + 1)
    else stringRest (length + 1) false s

/-- Measure a string. -/
def string : Text → Scan
  | b :: s => if b = Quoted.quote then stringRest 1 false s else .error (0, .string)
  | [] => .error (0, .string)

/-- Measure a given text. -/
def const (t : Text) (s : Text) : Scan :=
  if t.isPrefixOf s then .ok t.length else .error (0, .literal t)

/-- Measure a given word, which no letter, digit or underscore may follow. -/
def keyword (w : Text) (s : Text) : Scan :=
  if w.isPrefixOf s && !((s.drop w.length).head?.any isIdentByte) then .ok w.length
  else .error (0, .literal w)

/-- Measure the end of a line. -/
def eol (s : Text) : Scan :=
  match lineEnd? s with
  | some n => .ok n
  | none => .error (0, .endOfLine)

end Straightline.Token
