/-
  Literals that are written can be read.

  * `unquoted?_quoted`: a quoted text denotes the text;
  * `Token.string_quoted`: it is scanned to its end, whatever follows;
  * `Numeral.read_decimal`: an integer of 64 bits in base ten has its value, and
    `Numeral.range_of_read`: there are no other values;
  * `Written.plain_decimal`, `Written.plain_quoted`: such literals can stand as arguments.
-/
import Mathlib
import Straightline.Text.Numeral
import Straightline.Proofs.Printed
import Straightline.Proofs.Signature
import Straightline.Proofs.Rune

namespace Straightline

/-! ## Quoted texts -/

namespace Quoted

variable {c : Char} {n : Nat} {b : UInt8} {s r t : Text}

theorem hexValue?_hexDigit (h : n < 16) : hexValue? (hexDigit n) = some n := by
  interval_cases n <;> rfl

/-- Digits that were written are read, and the rest after them. -/
theorem digits?_hex (width k acc n : Nat) (r : Text) :
    digits? hexValue? 16 (width + k) acc (hex width n ++ r) =
      digits? hexValue? 16 k (acc * 16 ^ width + n % 16 ^ width) r := by
  induction width generalizing k n r with
  | zero => simp [hex, Nat.mod_one]
  | succ width ih =>
    have hvalue : (acc * 16 ^ width + n / 16 % 16 ^ width) * 16 + n % 16 =
        acc * 16 ^ (width + 1) + n % 16 ^ (width + 1) := by
      rw [Nat.pow_succ', Nat.mod_mul]
      ring
    rw [hex, List.append_assoc, Nat.add_right_comm, Nat.add_assoc, ih]
    simp only [List.singleton_append, digits?, hexValue?_hexDigit (Nat.mod_lt n (by decide : 0 < 16))]
    change digits? hexValue? 16 k ((acc * 16 ^ width + n / 16 % 16 ^ width) * 16 + n % 16) r = _
    rw [hvalue]

theorem digits?_hex_eq (width : Nat) (h : n < 16 ^ width) (r : Text) :
    digits? hexValue? 16 width 0 (hex width n ++ r) = some n := by
  have hdigits := digits?_hex width 0 0 n r
  rwa [Nat.add_zero, Nat.zero_mul, Nat.zero_add, Nat.mod_eq_of_lt h, digits?] at hdigits

/-- The byte means nothing special between double quotes. -/
def Ordinary (b : UInt8) : Prop :=
  b ≠ quote ∧ b ≠ newline ∧ b ≠ backslash

theorem ordinary_hexDigit (h : n < 16) : Ordinary (hexDigit n) := by
  unfold Ordinary
  interval_cases n <;> decide

theorem ordinary_hex (width n : Nat) : ∀ b ∈ hex width n, Ordinary b := by
  induction width generalizing n with
  | zero => simp [hex]
  | succ width ih =>
    intro b hb
    rcases List.mem_append.1 hb with hb | hb
    · exact ih _ b hb
    · rw [List.mem_singleton.1 hb]
      exact ordinary_hexDigit (Nat.mod_lt n (by decide))

theorem length_hex (width n : Nat) : (hex width n).length = width := by
  induction width generalizing n with
  | zero => rfl
  | succ width ih => simp [hex, ih]

/-- How something that denotes the bytes `t` is written: as it is, or as an escape. -/
inductive Spelling (t : Text) : Text → Prop where
  | char {c : Char} (ht : t = Rune.encode c) (h : ∀ b ∈ t, Ordinary b) : Spelling t t
  | escape {b : UInt8} {y : Text} (hy : ∀ b ∈ y, Ordinary b)
      (h : ∀ r, escape? quote (b :: y ++ r) = some (t, y.length + 1)) : Spelling t (backslash :: b :: y)

theorem spelling_hex (b : UInt8) (width n : Nat)
    (h : ∀ r, escape? quote (b :: (hex width n ++ r)) = some (t, width + 1)) :
    Spelling t (backslash :: b :: hex width n) :=
  .escape (ordinary_hex width n) fun r => by rw [length_hex]; exact h r

theorem spelling_byte (h : n < 256) : Spelling [UInt8.ofNat n] (backslash :: 120 :: hex 2 n) := by
  refine spelling_hex 120 2 n fun r => ?_
  simp only [escape?, digits?_hex_eq 2 h]
  rfl

theorem spelling_rune (h : c.toNat < 0x10000) :
    Spelling (Rune.encode c) (backslash :: 117 :: hex 4 c.toNat) := by
  refine spelling_hex 117 4 c.toNat fun r => ?_
  have hc : Rune.scalar? 0 c.toNat = some c := Rune.scalar?_eq_some_iff.2 ⟨Nat.zero_le _, rfl⟩
  simp only [escape?, digits?_hex_eq 4 h, bind, Option.bind_some, hc]
  rfl

theorem spelling_long_rune : Spelling (Rune.encode c) (backslash :: 85 :: hex 8 c.toNat) := by
  refine spelling_hex 85 8 c.toNat fun r => ?_
  have hc : Rune.scalar? 0 c.toNat = some c := Rune.scalar?_eq_some_iff.2 ⟨Nat.zero_le _, rfl⟩
  have hlt : c.toNat < 16 ^ 8 := (Rune.toNat_lt c).trans (by decide)
  simp only [escape?, digits?_hex_eq 8 hlt, bind, Option.bind_some, hc]
  rfl

/-- Controls are not printable. -/
theorem le_of_isPrintable (h : isPrintable c = true) : 0x20 ≤ c.toNat := by
  have hranges : ∀ r ∈ printableRanges, 0x20 ≤ r.1 := by decide +kernel
  obtain ⟨r, hr, hc⟩ := List.any_eq_true.1 h
  simp only [Bool.and_eq_true, decide_eq_true_eq] at hc
  exact (hranges r hr).trans hc.1

theorem ordinary_of_isPrintable (h : isPrintable c = true) (hquote : c.toNat ≠ 34) (hslash : c.toNat ≠ 92) :
    ∀ b ∈ Rune.encode c, Ordinary b := by
  intro b hb
  have hle := le_of_isPrintable h
  rw [Ordinary, ne_eq, ne_eq, ne_eq, ← UInt8.toNat_inj, ← UInt8.toNat_inj, ← UInt8.toNat_inj]
  simp only [quote, newline, backslash, UInt8.reduceToNat]
  rcases Nat.lt_or_ge c.toNat 0x80 with hc | hc
  · rw [Rune.encode_one hc, List.mem_singleton] at hb
    rw [hb, Rune.toNat_ofNat_byte (by omega)]
    omega
  · have := Rune.le_of_mem_encode hc hb
    omega

theorem spelling_letter {l : UInt8} (h : letter? c = some l) : Spelling (Rune.encode c) [backslash, l] := by
  unfold letter? at h
  split at h
  all_goals cases h
  all_goals
    rename_i hn
    rw [Rune.encode_one (by omega), hn]
    exact .escape (by simp) fun r => rfl

theorem spelling_mark (h : c.toNat = 34 ∨ c.toNat = 92) :
    Spelling (Rune.encode c) [backslash, UInt8.ofNat c.toNat] := by
  rw [Rune.encode_one (by omega)]
  rcases h with h | h
  · rw [h]
    exact .escape (by simp) fun r => rfl
  · rw [h]
    exact .escape (by simp) fun r => rfl

/-- **A character is written so that it is read back.** -/
theorem spelling_escaped (c : Char) : Spelling (Rune.encode c) (escaped c) := by
  simp only [escaped]
  split
  · exact spelling_mark ‹_›
  rename_i hmark
  split
  · rename_i hprint
    exact .char rfl (ordinary_of_isPrintable hprint (fun h => hmark (.inl h)) fun h => hmark (.inr h))
  split
  · exact spelling_letter ‹_›
  split
  · rename_i hctl
    rw [Rune.encode_one (by omega)]
    exact spelling_byte (by omega)
  split
  · exact spelling_rune ‹_›
  · exact spelling_long_rune

theorem spelling_piece (p : Piece) : Spelling p.bytes (escapedPiece p) := by
  cases p with
  | char c => exact spelling_escaped c
  | stray b =>
    have hb := spelling_byte b.toNat_lt
    rwa [UInt8.ofNat_toNat] at hb

/-! What is spelled so is read, whatever follows. -/

theorem Spelling.starts (h : Spelling t s) : ∃ b y, s = b :: y ∧ b ≠ quote := by
  cases h with
  | @char c ht hs =>
    obtain ⟨b, y, rfl⟩ := List.exists_cons_of_ne_nil (ht ▸ Rune.encode_ne_nil c : s ≠ [])
    exact ⟨b, y, rfl, (hs b List.mem_cons_self).1⟩
  | escape => exact ⟨backslash, _, rfl, by decide⟩

theorem Spelling.element (h : Spelling t s) (r : Text) : element? quote (s ++ r) = some (t, s.length) := by
  cases h with
  | @char c ht hs =>
    have hread := Rune.decode?_encode c r
    rw [← ht] at hread
    obtain ⟨b, y, rfl⟩ := List.exists_cons_of_ne_nil (ht ▸ Rune.encode_ne_nil c : s ≠ [])
    obtain ⟨hquote, hline, hslash⟩ := hs b List.mem_cons_self
    have hend : ¬ (b = quote ∨ b = newline) := by tauto
    simp only [List.cons_append] at hread ⊢
    simp only [element?, if_neg hend, if_neg hslash, hread, ht]
  | @escape b y _ hesc =>
    have hend : ¬ (backslash = quote ∨ backslash = newline) := by decide
    simp only [List.cons_append] at hesc ⊢
    simp only [element?, if_neg hend, if_true, hesc r]
    rfl

theorem bodyAfter?_eq (skip : Nat) (s : Text) : bodyAfter? skip s = bodyAfter? 0 (s.drop skip) := by
  induction s generalizing skip with
  | nil => cases skip <;> rfl
  | cons b s ih =>
    cases skip with
    | zero => rfl
    | succ skip => exact ih skip

theorem Spelling.body (h : Spelling t s) (r : Text) :
    bodyAfter? 0 (s ++ r) = (bodyAfter? 0 r).map (t ++ ·) := by
  have helement := h.element r
  obtain ⟨b, y, rfl, hb⟩ := h.starts
  simp only [List.cons_append] at helement ⊢
  simp only [bodyAfter?, if_neg hb, helement, bodyAfter?_eq _ (y ++ r), List.length_cons,
    Nat.add_sub_cancel, List.drop_left, bind, Option.bind_some]
  rw [Option.map_eq_bind]
  rfl

theorem body_pieces (ps : List Piece) :
    bodyAfter? 0 (ps.flatMap escapedPiece ++ [quote]) = some (ps.flatMap Piece.bytes) := by
  induction ps with
  | nil => rfl
  | cons p ps ih =>
    rw [List.flatMap_cons, List.append_assoc, (spelling_piece p).body, ih]
    rfl

end Quoted

/-- **A quoted text denotes the text.** -/
theorem unquoted?_quoted (s : Text) : unquoted? (quoted s) = some s := by
  rw [quoted, List.cons_append, unquoted?, if_pos rfl, Quoted.body_pieces, flatMap_bytes_pieces]

namespace Token

open Quoted (Ordinary Spelling)

variable {s t : Text}

theorem stringRest_ordinary (h : ∀ b ∈ s, Ordinary b) (length : Nat) (r : Text) :
    stringRest length false (s ++ r) = stringRest (length + s.length) false r := by
  induction s generalizing length with
  | nil => rfl
  | cons b s ih =>
    obtain ⟨⟨hquote, hline, hslash⟩, hs⟩ := List.forall_mem_cons.1 h
    simp only [List.cons_append, stringRest, if_neg hslash, if_neg hline, if_neg hquote, ih hs,
      List.length_cons]
    rw [Nat.add_assoc, Nat.add_comm 1]

theorem stringRest_spelling (h : Spelling t s) (length : Nat) (r : Text) :
    stringRest length false (s ++ r) = stringRest (length + s.length) false r := by
  cases h with
  | char _ hs => exact stringRest_ordinary hs length r
  | escape hy _ =>
    -- the backslash takes the byte behind it along, whatever it is
    simp only [List.cons_append, stringRest, if_true, stringRest_ordinary hy, List.length_cons]
    congr 1
    omega

theorem stringRest_pieces (ps : List Piece) (length : Nat) (r : Text) :
    stringRest length false (ps.flatMap Quoted.escapedPiece ++ r) =
      stringRest (length + (ps.flatMap Quoted.escapedPiece).length) false r := by
  induction ps generalizing length with
  | nil => rfl
  | cons p ps ih =>
    rw [List.flatMap_cons, List.append_assoc, stringRest_spelling (Quoted.spelling_piece p), ih,
      List.length_append, Nat.add_assoc]

/-- **A quoted text is scanned to its end.** -/
theorem string_quoted (s r : Text) : string (quoted s ++ r) = .ok (quoted s).length := by
  rw [quoted, List.cons_append, List.cons_append, string, if_pos rfl, List.append_assoc, stringRest_pieces]
  have hend : (1 + ((pieces s).flatMap Quoted.escapedPiece).length + 1) =
      ((pieces s).flatMap Quoted.escapedPiece ++ [Quoted.quote]).length + 1 := by
    rw [List.length_append, List.length_singleton]
    omega
  exact congrArg _ hend

end Token

/-! ## Integers -/

theorem utf8_append (s t : String) : utf8 (s ++ t) = utf8 s ++ utf8 t := by
  simp [utf8, String.toUTF8]

theorem utf8_ofList (cs : List Char) : utf8 (String.ofList cs) = cs.flatMap String.utf8EncodeChar := by
  simp [utf8, String.toUTF8, List.utf8Encode]

namespace Numeral

variable {n : Nat} {b : UInt8} {s : Text}

/-- A natural number in base ten. -/
def natural (n : Nat) : Text :=
  utf8 (toString n)

/-- The last digit comes off the end. -/
theorem natural_eq (n : Nat) :
    natural n = (if n < 10 then [] else natural (n / 10)) ++ [UInt8.ofNat (48 + n % 10)] := by
  have hdigit : ∀ d < 10, String.utf8EncodeChar (Nat.digitChar d) = [UInt8.ofNat (48 + d)] := by decide
  simp only [natural, Nat.toString_eq_ofList_toDigits, utf8_ofList]
  rw [Nat.toDigits_eq_if (by decide)]
  split
  · rename_i h
    rw [Nat.mod_eq_of_lt h]
    simp [hdigit n h]
  · simp [hdigit (n % 10) (Nat.mod_lt n (by decide))]

theorem natural_digits (n : Nat) : ∀ b ∈ natural n, Token.isDigit b = true := by
  have hdigit : ∀ d < 10, Token.isDigit (UInt8.ofNat (48 + d)) = true := by decide
  induction n using Nat.strongRecOn with
  | ind n ih =>
    intro b hb
    rw [natural_eq, List.mem_append, List.mem_singleton] at hb
    rcases hb with hb | rfl
    · split at hb
      · cases hb
      · exact ih (n / 10) (by omega) b hb
    · exact hdigit _ (Nat.mod_lt n (by decide))

theorem natural_leading (n : Nat) : ∃ b s, natural n = b :: s ∧ (b = 48 → n = 0) := by
  have hzero : ∀ d < 10, UInt8.ofNat (48 + d) = 48 → d = 0 := by decide
  induction n using Nat.strongRecOn with
  | ind n ih =>
    rw [natural_eq]
    split
    · rename_i h
      rw [Nat.mod_eq_of_lt h]
      exact ⟨_, [], rfl, hzero n h⟩
    · obtain ⟨b, s, hs, hb⟩ := ih (n / 10) (by omega)
      rw [hs]
      refine ⟨b, _, rfl, fun h => ?_⟩
      have := hb h
      omega

/-- There is a digit, then digits, and the first is zero for zero only. -/
theorem natural_cons (n : Nat) : ∃ b s, natural n = b :: s ∧ Token.isDigit b = true ∧
    (∀ c ∈ s, Token.isDigit c = true) ∧ (b = 48 → n = 0) := by
  obtain ⟨b, s, hs, hb⟩ := natural_leading n
  have hdigits := natural_digits n
  rw [hs, List.forall_mem_cons] at hdigits
  exact ⟨b, s, hs, hdigits.1, hdigits.2, hb⟩

/-! ### Reading -/

theorem magnitude_digit (style : NumeralStyle) {acc d : Nat} (hd : d < 10) (h : acc * 10 + d < unsignedLimit)
    (r : Text) : magnitude style 10 acc (UInt8.ofNat (48 + d) :: r) = magnitude style 10 (acc * 10 + d) r := by
  have hdigit : ∀ d < 10, UInt8.ofNat (48 + d) ≠ 95 ∧ digit? (UInt8.ofNat (48 + d)) = some d := by decide
  obtain ⟨hunderscore, hvalue⟩ := hdigit d hd
  simp only [magnitude, hunderscore, false_and, if_false, hvalue, if_neg (Nat.not_le.2 hd),
    if_neg (Nat.not_le.2 h)]

theorem magnitude_natural (style : NumeralStyle) (h : n < unsignedLimit) (r : Text) :
    magnitude style 10 0 (natural n ++ r) = magnitude style 10 n r := by
  -- the last digit is read last: it belongs to what follows the digits before it
  induction n using Nat.strongRecOn generalizing r with
  | ind n ih =>
    have hsplit : n / 10 * 10 + n % 10 = n := by omega
    have hdigit := magnitude_digit style (Nat.mod_lt n (by decide)) (hsplit ▸ h) r
    rw [hsplit] at hdigit
    rw [natural_eq]
    split
    · rename_i hn
      have hzero : n / 10 = 0 := by omega
      rw [hzero] at hdigit
      exact hdigit
    · rw [List.append_assoc, ih (n / 10) (by omega) (by omega)]
      exact hdigit

theorem base_of_ne (h : b ≠ 48) : base .prefixed (b :: s) = (10, b :: s) := by
  unfold base
  split <;> simp_all

theorem separable_of_ne (h : b ≠ 48) : separable (b :: s) = (false, b :: s) := by
  unfold separable
  split <;> simp_all

theorem separated_of_digits (h : ∀ b ∈ s, Token.isDigit b = true) (before : Bool) :
    separated before s = true := by
  induction s generalizing before with
  | nil => rfl
  | cons b s ih =>
    obtain ⟨hb, hs⟩ := List.forall_mem_cons.1 h
    have hne : b ≠ 95 := by
      rintro rfl
      cases hb
    unfold separated
    split
    · rfl
    · simp_all
    · simp_all

theorem unsigned_natural (h : n < unsignedLimit) : unsigned .prefixed (natural n) = .ok n := by
  by_cases hzero : n = 0
  · subst hzero
    rfl
  have hvalue := magnitude_natural .prefixed h []
  have hdigits := separated_of_digits (natural_digits n) false
  obtain ⟨b, s, hs, -, -, hb⟩ := natural_cons n
  have hne : b ≠ 48 := fun h => hzero (hb h)
  rw [List.append_nil] at hvalue
  rw [hs] at hvalue hdigits ⊢
  simp only [unsigned, base_of_ne hne, hvalue, separable_of_ne hne, hdigits]
  rfl

theorem sign_of_digit (h : Token.isDigit b = true) : sign (b :: s) = (false, b :: s) := by
  unfold sign
  split
  · rename_i heq
    obtain ⟨rfl, -⟩ := List.cons.inj heq
    cases h
  · rename_i heq
    obtain ⟨rfl, -⟩ := List.cons.inj heq
    cases h
  · rfl

theorem sign_natural (n : Nat) : sign (natural n) = (false, natural n) := by
  obtain ⟨b, s, hs, hb, -⟩ := natural_cons n
  rw [hs]
  exact sign_of_digit hb

theorem decimal_ofNat (n : Nat) : decimal (n : Int) = natural n := rfl

theorem decimal_neg (n : Nat) : decimal (-(n + 1 : Nat)) = 45 :: natural (n + 1) := by
  have htext : toString (-((n + 1 : Nat) : Int)) = "-" ++ toString (n + 1) := rfl
  rw [decimal, htext, utf8_append]
  rfl

/-- **An integer of 64 bits in base ten has its value.** -/
theorem read_decimal {n : Int} (hlow : -signedLimit ≤ n) (hhigh : n < signedLimit) :
    read .prefixed (decimal n) = .ok n := by
  have hlimit : signedLimit < unsignedLimit := by decide
  rcases n with n | n
  · have hn : n < signedLimit := Int.ofNat_lt.1 hhigh
    rw [Int.ofNat_eq_natCast, decimal_ofNat, read, value, sign_natural]
    simp only [unsigned_natural (hn.trans hlimit)]
    change (if signedLimit ≤ n then _ else _ : Except NumeralProblem Int).mapError _ = _
    rw [if_neg (Nat.not_le.2 hn)]
    rfl
  · have hn : n + 1 ≤ signedLimit := by
      rw [Int.negSucc_eq] at hlow
      omega
    rw [Int.negSucc_eq, show (n : Int) + 1 = (n + 1 : Nat) from rfl, decimal_neg, read, value, sign]
    simp only [unsigned_natural (Nat.lt_of_le_of_lt hn hlimit)]
    change (if signedLimit < n + 1 then _ else _ : Except NumeralProblem Int).mapError _ = _
    rw [if_neg (Nat.not_lt.2 hn)]
    rfl

/-- There are no other values. -/
theorem range_of_read {style : NumeralStyle} {n : Int} (h : read style s = .ok n) :
    -signedLimit ≤ n ∧ n < signedLimit := by
  have hpos : 0 < signedLimit := by decide
  rw [read, mapError_eq_ok_iff, value] at h
  rcases sign s with ⟨negative, ds⟩
  simp only [bind_eq_ok_iff] at h
  obtain ⟨m, -, h⟩ := h
  split at h
  · split at h
    · cases h
    · cases h
      omega
  · split at h
    · cases h
    · cases h
      omega

end Numeral

namespace Token

open Numeral (natural natural_cons)

theorem digits_natural (length n : Nat) {r : Text} (hr : Written.Breaks r) :
    digits length (natural n ++ r) = .ok (length + (natural n).length) := by
  obtain ⟨b, s, hs, hb, hall, -⟩ := natural_cons n
  have hend : r.takeWhile isIdentByte = [] := by
    obtain ⟨b, r, rfl, rfl | rfl⟩ := hr <;> rfl
  have hword : (s ++ r).takeWhile isIdentByte = s := by
    rw [List.takeWhile_append_of_pos fun b hb => by simp [isIdentByte, hall b hb], hend, List.append_nil]
  rw [hs, List.cons_append, digits, if_pos hb, hword, List.length_cons]
  congr 1
  omega

theorem int_natural (n : Nat) {r : Text} (hr : Written.Breaks r) :
    int (natural n ++ r) = .ok (natural n).length := by
  have hsign : ∀ b, isDigit b = true → ¬ (b = 43 ∨ b = 45) := forall_byte (by decide +kernel)
  have hscan := digits_natural 0 n hr
  obtain ⟨b, s, hs, hb, -⟩ := natural_cons n
  rw [Nat.zero_add, hs, List.cons_append] at hscan
  rw [hs, List.cons_append, int, if_neg (hsign b hb), hscan]

theorem int_neg_natural (n : Nat) {r : Text} (hr : Written.Breaks r) :
    int (45 :: natural n ++ r) = .ok (45 :: natural n).length := by
  rw [List.cons_append, int, if_pos (by decide), digits_natural 1 n hr, List.length_cons, Nat.add_comm]

end Token

namespace Written

theorem plain_quoted (s : Text) : (Arg.string (quoted s)).Plain := by
  refine ⟨⟨_, _, rfl, by decide +kernel, by decide⟩, fun r _ => ⟨⟨_, rfl⟩, ⟨_, rfl⟩, ?_⟩⟩
  exact Token.string_quoted s r

theorem plain_natural (n : Nat) : (Arg.int (Numeral.natural n)).Plain := by
  have hdigit : ∀ b, Token.isDigit b = true →
      Spaces.tab.contains b = false ∧ b ≠ 61 ∧ Token.isIdentStart b = false := forall_byte (by decide +kernel)
  obtain ⟨b, s, hs, hb, -⟩ := Numeral.natural_cons n
  obtain ⟨hblank, heq, hstart⟩ := hdigit b hb
  refine ⟨⟨b, s, hs, hblank, heq⟩, fun r hr => ⟨⟨_, Token.ident_error ?_⟩, Token.int_natural n hr⟩⟩
  simp [hs, hstart]

/-- A number in base ten can stand as an argument. -/
theorem plain_decimal (n : Int) : (Arg.int (decimal n)).Plain := by
  rcases n with n | n
  · exact plain_natural n
  · rw [Int.negSucc_eq, show (n : Int) + 1 = (n + 1 : Nat) from rfl, Numeral.decimal_neg]
    refine ⟨⟨45, _, rfl, by decide +kernel, by decide⟩, fun r hr => ⟨⟨_, rfl⟩, ?_⟩⟩
    exact Token.int_neg_natural (n + 1) hr

end Written

end Straightline
