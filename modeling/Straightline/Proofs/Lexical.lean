/-
  Tokens and blanks as languages.

  Every token is the longest one that stands at the front of a text (`Longest`), in a
  language that is said without the scanner: names, integers and strings, and runs of
  blanks and comments.  Identifiers also must not run into a byte that is no character.

  * `Exact`: a scanner measures the tokens of a language, and nothing else, which holds of
    each of them (`exact_ident`, `exact_int`, `exact_string`, `exact_eol`, `keyword_iff`,
    `blank_iff`);
  * `Longest.unique`, `Exact.unique`: hence a text has one token at its front at most.
-/
import Straightline.Proofs.Token

namespace Straightline

namespace Lexical

open Token (isIdentStart isIdentByte isDigit EndsWord IsIdent)

/-! ## Languages -/

/-- The text `x` is the longest one of the language at the front of `x ++ r`. -/
structure Longest (L : Text → Prop) (x r : Text) : Prop where
  mem : L x
  longest : ∀ y z, r = y ++ z → L (x ++ y) → y = []

/-- What an identifier may go on with: letters, digits, underscores, and characters
    outside ASCII. -/
inductive NameTail : Text → Prop
  | nil : NameTail []
  | byte {b : UInt8} {x : Text} : isIdentByte b = true → NameTail x → NameTail (b :: x)
  | rune {c : Char} {x : Text} : 0x80 ≤ c.toNat → c ≠ '�' → NameTail x →
      NameTail (Rune.encode c ++ x)

/-- A letter or underscore, and what it may go on with. -/
def IsName (x : Text) : Prop :=
  ∃ b y, x = b :: y ∧ isIdentStart b = true ∧ NameTail y

/-- A text that starts with a byte that is no character, or with U+FFFD. -/
def BadRune (r : Text) : Prop :=
  r ≠ [] ∧ ∀ c z, r = Rune.encode c ++ z → c = '�'

/-- An identifier. -/
def Ident (x r : Text) : Prop :=
  Longest IsName x r ∧ ¬ BadRune r

/-- A sign or none, a digit, and letters, digits and underscores. -/
def IsInt (x : Text) : Prop :=
  ∃ sign d y, x = sign ++ d :: y ∧ (sign = [] ∨ sign = [43] ∨ sign = [45]) ∧ isDigit d = true ∧
    ∀ b ∈ y, isIdentByte b = true

/-- What stands between quotes: a backslash takes the next byte along. -/
inductive StringBody : Text → Prop
  | nil : StringBody []
  | escape {b : UInt8} {x : Text} : StringBody x → StringBody (Quoted.backslash :: b :: x)
  | plain {b : UInt8} {x : Text} : b ≠ Quoted.quote → b ≠ Quoted.backslash → b ≠ newline →
      StringBody x → StringBody (b :: x)

/-- A text between quotes. -/
def IsString (x : Text) : Prop :=
  ∃ y, x = Quoted.quote :: (y ++ [Quoted.quote]) ∧ StringBody y

/-- No letter, digit or underscore follows, so that a word ends here. -/
def WordEnds (r : Text) : Prop :=
  ∀ b ∈ r.head?, isIdentByte b = false

/-- The word stands at the front of the text. -/
def Opens (w s : Text) : Prop :=
  ∃ r, s = w ++ r ∧ WordEnds r

/-- Spaces and tabs. -/
def IsGap (x : Text) : Prop :=
  ∀ b ∈ x, b = 32 ∨ b = 9

/-- Nothing, or a comment up to the end of its line. -/
def IsComment (x : Text) : Prop :=
  x = [] ∨ ∃ y, x = commentMark :: y ∧ ∀ b ∈ y, b ≠ newline

/-- The end of a line: blanks, a comment or none, and a newline or the end of the text. -/
def LineEnd (x r : Text) : Prop :=
  ∃ blanks comment stop, x = blanks ++ (comment ++ stop) ∧ (∀ b ∈ blanks, b = 32 ∨ b = 9 ∨ b = 13) ∧
    IsComment comment ∧ (stop = [newline] ∨ (stop = [] ∧ r = []))

/-- Blanks, newlines and comments. -/
inductive BlankRun : Text → Prop
  | nil : BlankRun []
  | blank {b : UInt8} {x : Text} : b = 32 ∨ b = 9 ∨ b = 13 ∨ b = newline → BlankRun x → BlankRun (b :: x)
  | comment {x y : Text} : (∀ b ∈ y, b ≠ newline) → BlankRun x → BlankRun (commentMark :: (y ++ x))

/-- There is one longest text at the front of a text at most. -/
theorem Longest.unique {L : Text → Prop} {x x' r r' : Text} (h : Longest L x r) (h' : Longest L x' r')
    (he : x ++ r = x' ++ r') : x = x' ∧ r = r' := by
  rcases List.append_eq_append_iff.1 he with ⟨y, rfl, hr⟩ | ⟨y, rfl, hr⟩
  · obtain rfl := h.longest y r' hr h'.mem
    exact ⟨by simp, by simpa using hr⟩
  · obtain rfl := h'.longest y r hr h.mem
    exact ⟨by simp, by simpa using hr.symm⟩

/-! ## Scanners -/

/-- The scanner measures the texts that are related to what follows them. -/
def Exact (scan : Text → Token.Scan) (P : Text → Text → Prop) : Prop :=
  ∀ s n, scan s = .ok n ↔ ∃ x r, s = x ++ r ∧ n = x.length ∧ P x r

section
variable {scan : Text → Token.Scan} {P : Text → Text → Prop} {L : Text → Prop} {x x' r r' s : Text}

theorem Exact.scan_append (h : Exact scan P) (hx : P x r) : scan (x ++ r) = .ok x.length :=
  (h _ _).2 ⟨x, r, rfl, rfl, hx⟩

/-- There is one token at the front of a text at most. -/
theorem Exact.unique (h : Exact scan P) (hx : P x r) (hx' : P x' r') (he : x ++ r = x' ++ r') :
    x = x' ∧ r = r' := by
  have hlen : scan (x ++ r) = .ok x'.length := by rw [he]; exact h.scan_append hx'
  rw [h.scan_append hx] at hlen
  injection hlen with hlen
  exact List.append_inj he hlen

/-- Where a scanner takes every text of a language that is followed as it should be, such
    texts are the longest ones. -/
theorem longest_iff (F : Text → Prop) (hscan : ∀ x r, L x → F r → scan (x ++ r) = .ok x.length)
    (hnil : F []) (hfront : ∀ y z, F (y ++ z) → F y) (hend : ∀ x r, Longest L x r → F r) :
    Longest L x r ↔ L x ∧ F r := by
  constructor
  · intro h
    exact ⟨h.mem, hend x r h⟩
  · rintro ⟨hx, hr⟩
    refine ⟨hx, fun y z he hy => ?_⟩
    -- the scanner stops behind `x` whether or not the longer text is one of the language
    have hshort : scan (x ++ y) = .ok x.length := hscan x y hx (hfront y z (he ▸ hr))
    have hlong : scan (x ++ y) = .ok (x ++ y).length := by
      simpa using hscan (x ++ y) [] hy hnil
    rw [hshort] at hlong
    injection hlong with hlen
    rw [List.length_append] at hlen
    exact List.length_eq_zero_iff.1 (by omega)

end

/-! ## Identifiers -/

section
variable {x y r s : Text} {n length : Nat}

theorem identRest_skip (e s : Text) (length : Nat) :
    Token.identRest length e.length (e ++ s) = Token.identRest (length + e.length) 0 s := by
  induction e generalizing length with
  | nil => rfl
  | cons b e ih =>
    rw [List.cons_append, List.length_cons, Token.identRest, ih]
    congr 1
    omega

/-- The bytes of a character outside ASCII. -/
theorem encode_eq_cons {c : Char} (hc : 0x80 ≤ c.toNat) :
    ∃ b e, Rune.encode c = b :: e ∧ ¬ b < 0x80 ∧ isIdentByte b = false := by
  rcases he : Rune.encode c with _ | ⟨b, e⟩
  · exact absurd he (Rune.encode_ne_nil c)
  · have hb : 0x80 ≤ b.toNat := Rune.le_of_mem_encode hc (by simp [he])
    refine ⟨b, e, rfl, by simpa [UInt8.lt_iff_toNat_lt] using hb, ?_⟩
    have hall : ∀ b : UInt8, 0x80 ≤ b.toNat → isIdentByte b = false := forall_byte (by decide +kernel)
    exact hall b hb

theorem le_of_encode {b : UInt8} {c : Char} (h : b :: s = Rune.encode c ++ r) (hb : ¬ b < 0x80) :
    0x80 ≤ c.toNat := by
  by_contra hlt
  rw [Rune.encode_one (by omega)] at h
  obtain ⟨rfl, -⟩ := List.cons.inj h
  apply hb
  rw [UInt8.lt_iff_toNat_lt, Rune.toNat_ofNat_byte (by omega)]
  exact Nat.not_le.1 hlt

theorem identRest_of_nameTail (hy : NameTail y) (hr : EndsWord r) (length : Nat) :
    Token.identRest length 0 (y ++ r) = .ok (length + y.length) := by
  induction hy generalizing length with
  | nil => exact Token.identRest_endsWord hr
  | byte hb _ ih =>
    rw [List.cons_append, Token.identRest, if_pos hb, ih, List.length_cons]
    congr 1
    omega
  | @rune c x hc hne _ ih =>
    obtain ⟨b, e, he, hb, hident⟩ := encode_eq_cons hc
    have hd : Rune.decode? (b :: (e ++ (x ++ r))) = some (c, e.length + 1) := by
      have := Rune.decode?_encode c (x ++ r)
      rwa [he] at this
    rw [he, List.cons_append, List.cons_append, List.append_assoc, Token.identRest,
      if_neg (by simp [hident]), if_neg hb]
    simp only [hd, if_neg hne, Nat.add_sub_cancel]
    rw [identRest_skip, ih]
    simp only [List.length_cons, List.length_append]
    congr 1
    omega

theorem nameTail_of_identRest (h : Token.identRest length 0 s = .ok n) :
    ∃ y r, s = y ++ r ∧ n = length + y.length ∧ NameTail y ∧ EndsWord r := by
  induction hn : s.length using Nat.strongRecOn generalizing s length with
  | ind k ih =>
    rcases s with _ | ⟨b, s⟩
    · cases h
      exact ⟨[], [], rfl, rfl, .nil, Token.endsWord_nil⟩
    rw [Token.identRest] at h
    by_cases hident : isIdentByte b = true
    · rw [if_pos hident] at h
      obtain ⟨y, r, rfl, rfl, hy, hr⟩ := ih _ (by simp only [← hn, List.length_cons]; omega) h rfl
      exact ⟨b :: y, r, rfl, by simp only [List.length_cons]; omega, .byte hident hy, hr⟩
    rw [if_neg hident] at h
    by_cases hb : b < 0x80
    · rw [if_pos hb] at h
      cases h
      exact ⟨[], b :: s, rfl, rfl, .nil, Token.endsWord_cons.2 ⟨hb, by simpa using hident⟩⟩
    rw [if_neg hb] at h
    rcases hd : Rune.decode? (b :: s) with _ | ⟨c, k⟩
    · simp only [hd] at h
      cases h
    simp only [hd] at h
    split at h
    · cases h
    rename_i hne
    obtain ⟨z, hs, rfl⟩ := Rune.decode?_eq_some_iff.1 hd
    have hc : 0x80 ≤ c.toNat := le_of_encode hs hb
    obtain ⟨b', e, he, -, -⟩ := encode_eq_cons hc
    rw [he, List.cons_append] at hs
    obtain ⟨rfl, rfl⟩ := List.cons.inj hs
    rw [he, List.length_cons, Nat.add_sub_cancel, identRest_skip] at h
    obtain ⟨y, r, rfl, rfl, hy, hr⟩ := ih _ (by simp only [← hn, List.length_cons, List.length_append]; omega) h rfl
    refine ⟨Rune.encode c ++ y, r, by simp [he], ?_, .rune hc hne hy, hr⟩
    simp only [he, List.length_append, List.length_cons]
    omega

theorem isIdent_iff : IsIdent x ↔ IsName x := by
  constructor
  · intro h
    obtain ⟨b, s, rfl, hb⟩ := Token.isIdent_cons h
    rw [IsIdent, Token.ident, if_pos hb] at h
    obtain ⟨y, r, rfl, hlen, hy, -⟩ := nameTail_of_identRest h
    obtain rfl : r = [] := by
      simp only [List.length_cons, List.length_append] at hlen
      exact List.length_eq_zero_iff.1 (by omega)
    exact ⟨b, y, by simp, hb, hy⟩
  · rintro ⟨b, y, rfl, hb, hy⟩
    have h := identRest_of_nameTail hy Token.endsWord_nil 1
    rw [List.append_nil] at h
    rw [IsIdent, Token.ident, if_pos hb, h, List.length_cons, Nat.add_comm]

theorem NameTail.append (hx : NameTail x) (hy : NameTail y) : NameTail (x ++ y) := by
  induction hx with
  | nil => exact hy
  | byte hb _ ih => exact .byte hb ih
  | rune hc hne _ ih => rw [List.append_assoc]; exact .rune hc hne ih

theorem IsName.append (hx : IsName x) (hy : NameTail y) : IsName (x ++ y) := by
  obtain ⟨b, z, rfl, hb, hz⟩ := hx
  exact ⟨b, z ++ y, rfl, hb, hz.append hy⟩

theorem not_badRune_of_endsWord (hr : EndsWord r) : ¬ BadRune r := by
  rintro ⟨hne, hbad⟩
  obtain ⟨b, z, rfl⟩ := List.exists_cons_of_ne_nil hne
  obtain ⟨hb, -⟩ := Token.endsWord_cons.1 hr
  have hlt : b.toNat < 0x80 := UInt8.lt_iff_toNat_lt.1 hb
  obtain ⟨z', hz, -⟩ := Rune.decode?_eq_some_iff.1 (Rune.decode?_one (s := z) hlt)
  -- an ASCII byte is a character of its own, and not U+FFFD
  have hc := congrArg Char.toNat (hbad _ _ hz)
  rw [Rune.toNat_ofNat_char (Or.inl (by omega))] at hc
  rw [hc] at hlt
  revert hlt
  decide

/-- Where a name is the longest one and no bad byte follows, it ends. -/
theorem endsWord_of_longest (h : Longest IsName x r) (hbad : ¬ BadRune r) : EndsWord r := by
  rcases r with _ | ⟨b, r⟩
  · exact Token.endsWord_nil
  have hident : isIdentByte b = false := by
    by_contra hb
    have := h.longest [b] r rfl (h.mem.append (.byte (by simpa using hb) .nil))
    cases this
  refine Token.endsWord_cons.2 ⟨?_, hident⟩
  by_contra hb
  apply hbad
  refine ⟨by simp, fun c z he => ?_⟩
  by_contra hne
  have hlong := h.mem.append (.rune (le_of_encode he hb) hne .nil)
  rw [List.append_nil] at hlong
  exact Rune.encode_ne_nil c (h.longest _ z he hlong)

/-- **Identifiers** are what the scanner takes. -/
theorem ident_iff : Ident x r ↔ IsIdent x ∧ EndsWord r := by
  rw [isIdent_iff]
  constructor
  · rintro ⟨h, hbad⟩
    exact ⟨h.mem, endsWord_of_longest h hbad⟩
  · rintro ⟨hx, hr⟩
    refine ⟨⟨hx, fun y z he hy => ?_⟩, not_badRune_of_endsWord hr⟩
    subst he
    rcases y with _ | ⟨b, y⟩
    · rfl
    · obtain ⟨hb, hident⟩ := Token.endsWord_cons.1 hr
      have hbyte := Token.byte_of_isIdent (isIdent_iff.2 hy) b (by simp)
      rw [UInt8.lt_iff_toNat_lt] at hb
      rcases hbyte with h | h
      · rw [hident] at h; cases h
      · exact absurd hb (Nat.not_lt.2 h)

theorem exact_ident : Exact Token.ident Ident := by
  intro s n
  rw [Token.ident_eq_ok_iff]
  simp only [ident_iff]

end

/-! ## Integers -/

section
variable {x y r s : Text} {n length : Nat}

theorem wordEnds_nil : WordEnds [] := by
  simp [WordEnds]

theorem digits_eq_ok_iff : Token.digits length s = .ok n ↔
    ∃ d y r, s = d :: (y ++ r) ∧ isDigit d = true ∧ (∀ b ∈ y, isIdentByte b = true) ∧ WordEnds r ∧
      n = length + 1 + y.length := by
  rcases s with _ | ⟨d, s⟩
  · simp [Token.digits]
  rw [Token.digits]
  constructor
  · intro h
    split at h
    · cases h
      refine ⟨d, s.takeWhile isIdentByte, s.dropWhile isIdentByte, by rw [List.takeWhile_append_dropWhile], ‹_›,
        List.all_eq_true.1 List.all_takeWhile, fun b hb => ?_, rfl⟩
      have := List.head?_dropWhile_not isIdentByte s
      rw [hb] at this
      simpa using this
    · cases h
  · rintro ⟨d', y, r, he, hd, hy, hr, rfl⟩
    obtain ⟨rfl, rfl⟩ := List.cons.inj he
    rw [if_pos hd, List.takeWhile_append_of_pos hy]
    rcases r with _ | ⟨b, r⟩
    · simp
    · have hb : isIdentByte b = false := hr b rfl
      simp [hb]

theorem int_eq_ok_iff : Token.int s = .ok n ↔ ∃ x r, s = x ++ r ∧ n = x.length ∧ IsInt x ∧ WordEnds r := by
  rcases s with _ | ⟨b, s⟩
  · constructor
    · intro h; cases h
    · rintro ⟨x, r, he, -, ⟨sign, d, y, rfl, -⟩, -⟩
      simp at he
  rw [Token.int]
  constructor
  · intro h
    split at h
    · rename_i hb
      obtain ⟨d, y, r, rfl, hd, hy, hr, rfl⟩ := digits_eq_ok_iff.1 h
      refine ⟨b :: d :: y, r, rfl, by simp only [List.length_cons]; omega, ⟨[b], d, y, rfl, ?_, hd, hy⟩, hr⟩
      rcases hb with rfl | rfl
      · exact Or.inr (Or.inl rfl)
      · exact Or.inr (Or.inr rfl)
    · obtain ⟨d, y, r, he, hd, hy, hr, rfl⟩ := digits_eq_ok_iff.1 h
      exact ⟨d :: y, r, he, by simp only [List.length_cons]; omega, ⟨[], d, y, rfl, Or.inl rfl, hd, hy⟩, hr⟩
  · rintro ⟨x, r, he, rfl, ⟨sign, d, y, rfl, hsign, hd, hy⟩, hr⟩
    rcases hsign with rfl | hsign
    · obtain ⟨rfl, rfl⟩ := List.cons.inj he
      have hno : ¬ (b = 43 ∨ b = 45) := by
        rintro (rfl | rfl)
        · revert hd; decide
        · revert hd; decide
      rw [if_neg hno]
      exact digits_eq_ok_iff.2 ⟨b, y, r, rfl, hd, hy, hr, by simp [Nat.add_comm]⟩
    · obtain ⟨b', rfl, hb⟩ : ∃ b', sign = [b'] ∧ (b' = 43 ∨ b' = 45) := by
        rcases hsign with rfl | rfl
        · exact ⟨43, rfl, Or.inl rfl⟩
        · exact ⟨45, rfl, Or.inr rfl⟩
      obtain ⟨rfl, rfl⟩ := List.cons.inj he
      rw [if_pos hb]
      refine digits_eq_ok_iff.2 ⟨d, y, r, rfl, hd, hy, hr, ?_⟩
      simp only [List.length_append, List.length_cons, List.length_nil]
      omega

/-- **Integers** are what the scanner takes. -/
theorem int_iff : Longest IsInt x r ↔ IsInt x ∧ WordEnds r := by
  have hscan : ∀ x r, IsInt x → WordEnds r → Token.int (x ++ r) = .ok x.length :=
    fun x r hx hr => int_eq_ok_iff.2 ⟨x, r, rfl, rfl, hx, hr⟩
  refine longest_iff WordEnds hscan wordEnds_nil ?_ ?_
  · intro y z h b hb
    rcases y with _ | ⟨b', y⟩
    · cases hb
    · exact h b hb
  · intro x r h b hb
    by_contra hident
    obtain ⟨r, rfl⟩ : ∃ z, r = b :: z := by
      rcases r with _ | ⟨b', r⟩
      · cases hb
      · cases hb; exact ⟨r, rfl⟩
    obtain ⟨sign, d, y, rfl, hsign, hd, hy⟩ := h.mem
    have hlong := h.longest [b] r rfl ⟨sign, d, y ++ [b], by simp, hsign, hd, by
      simpa [or_imp, forall_and, hident] using hy⟩
    cases hlong

theorem exact_int : Exact Token.int (Longest IsInt) := by
  intro s n
  rw [int_eq_ok_iff]
  simp only [int_iff]

end

/-! ## Strings and words -/

section
variable {x y r s w : Text} {n length : Nat}

theorem stringRest_of_body (hy : StringBody y) (length : Nat) :
    Token.stringRest length false (y ++ Quoted.quote :: r) = .ok (length + y.length + 1) := by
  have hquote : Quoted.quote ≠ Quoted.backslash ∧ Quoted.quote ≠ newline := by decide
  induction hy generalizing length with
  | nil => simp [Token.stringRest, hquote]
  | escape _ ih =>
    rw [List.cons_append, List.cons_append, Token.stringRest, if_pos rfl, Token.stringRest, ih]
    simp only [List.length_cons]
    congr 1
    omega
  | plain hq hbs hnl _ ih =>
    rw [List.cons_append, Token.stringRest, if_neg hbs, if_neg hnl, if_neg hq, ih, List.length_cons]
    congr 1
    omega

theorem body_of_stringRest (h : Token.stringRest length false s = .ok n) :
    ∃ y r, s = y ++ Quoted.quote :: r ∧ n = length + y.length + 1 ∧ StringBody y := by
  induction hn : s.length using Nat.strongRecOn generalizing s length with
  | ind k ih =>
    rcases s with _ | ⟨b, s⟩
    · cases h
    rw [Token.stringRest] at h
    split at h
    · subst b
      rcases s with _ | ⟨b, s⟩
      · cases h
      rw [Token.stringRest] at h
      obtain ⟨y, r, rfl, rfl, hy⟩ := ih _ (by simp only [← hn, List.length_cons]; omega) h rfl
      exact ⟨_ :: b :: y, r, rfl, by simp only [List.length_cons]; omega, .escape hy⟩
    rename_i hbs
    split at h
    · cases h
    rename_i hnl
    split at h
    · subst b
      cases h
      exact ⟨[], s, rfl, rfl, .nil⟩
    · rename_i hq
      obtain ⟨y, r, rfl, rfl, hy⟩ := ih _ (by simp only [← hn, List.length_cons]; omega) h rfl
      exact ⟨b :: y, r, rfl, by simp only [List.length_cons]; omega, .plain hq hbs hnl hy⟩

theorem string_eq_ok_iff : Token.string s = .ok n ↔ ∃ x r, s = x ++ r ∧ n = x.length ∧ IsString x := by
  rcases s with _ | ⟨b, s⟩
  · constructor
    · intro h; cases h
    · rintro ⟨x, r, he, -, y, rfl, -⟩
      simp at he
  rw [Token.string]
  constructor
  · intro h
    split at h
    · subst b
      obtain ⟨y, r, rfl, rfl, hy⟩ := body_of_stringRest h
      refine ⟨Quoted.quote :: (y ++ [Quoted.quote]), r, by simp, ?_, y, rfl, hy⟩
      simp only [List.length_cons, List.length_append, List.length_nil]
      omega
    · cases h
  · rintro ⟨x, r, he, rfl, y, rfl, hy⟩
    rw [List.cons_append, List.append_assoc] at he
    obtain ⟨rfl, rfl⟩ := List.cons.inj he
    rw [if_pos rfl, List.singleton_append, stringRest_of_body hy]
    simp only [List.length_cons, List.length_append, List.length_nil]
    congr 1
    omega

/-- **Strings** are what the scanner takes, whatever follows. -/
theorem string_iff : Longest IsString x r ↔ IsString x := by
  have hscan : ∀ x r, IsString x → True → Token.string (x ++ r) = .ok x.length :=
    fun x r hx _ => string_eq_ok_iff.2 ⟨x, r, rfl, rfl, hx⟩
  rw [longest_iff (fun _ => True) hscan trivial (fun _ _ _ => trivial) fun _ _ _ => trivial, and_true]

theorem exact_string : Exact Token.string (Longest IsString) := by
  intro s n
  rw [string_eq_ok_iff]
  simp only [string_iff]

theorem keyword_iff : Token.keyword w s = .ok n ↔ Opens w s ∧ n = w.length := by
  rw [Token.keyword_eq_ok_iff]
  refine and_congr_left fun _ => ⟨?_, ?_⟩
  · rintro ⟨⟨r, rfl⟩, hend⟩
    refine ⟨r, rfl, fun b hb => hend b ?_⟩
    rwa [List.getElem?_append_right (Nat.le_refl _), Nat.sub_self, ← List.head?_eq_getElem?]
  · rintro ⟨r, rfl, hr⟩
    refine ⟨List.prefix_append _ _, fun b hb => hr b ?_⟩
    rwa [List.getElem?_append_right (Nat.le_refl _), Nat.sub_self, ← List.head?_eq_getElem?] at hb

end

/-! ## Ends of lines -/

section
variable {x y r s : Text} {n : Nat}

theorem contains_line : ∀ b, Spaces.line.contains b = true ↔ b = 32 ∨ b = 9 ∨ b = 13 :=
  forall_byte (by decide +kernel)

theorem dropComment_eq (s : Text) :
    ∃ comment, IsComment comment ∧ s = comment ++ dropComment s ∧
      (comment ≠ [] → ∀ b ∈ (dropComment s).head?, b = newline) := by
  rcases s with _ | ⟨b, s⟩
  · exact ⟨[], Or.inl rfl, rfl, by simp⟩
  by_cases hb : b = commentMark
  · subst hb
    refine ⟨commentMark :: s.takeWhile (· != newline), Or.inr ⟨_, rfl, fun b hb => ?_⟩, ?_, fun _ b hb => ?_⟩
    · simpa using List.all_eq_true.1 List.all_takeWhile b hb
    · simp [dropComment]
    · simp only [dropComment, if_true] at hb
      have := List.head?_dropWhile_not (· != newline) s
      rw [hb] at this
      simpa using this
  · exact ⟨[], Or.inl rfl, by simp [dropComment, hb], by simp⟩

theorem dropComment_append {comment : Text} (hc : IsComment comment)
    (hr : ∀ b ∈ r.head?, b = newline) : dropComment (comment ++ r) = r := by
  rcases hc with rfl | ⟨y, rfl, hy⟩
  · rcases r with _ | ⟨b, r⟩
    · rfl
    · have hb : b = newline := hr b rfl
      have hmark : newline ≠ commentMark := by decide
      simp [dropComment, hb, hmark]
  · have hdrop : ∀ b ∈ y, (b != newline) = true := fun b hb => by simpa using hy b hb
    simp only [dropComment, List.cons_append, if_true, List.dropWhile_append_of_pos hdrop]
    rcases r with _ | ⟨b, r⟩
    · rfl
    · have hb : b = newline := hr b rfl
      simp [hb]

theorem dropWhile_line {blanks : Text} (hb : ∀ b ∈ blanks, b = 32 ∨ b = 9 ∨ b = 13)
    (hr : ∀ b ∈ r.head?, b = commentMark ∨ b = newline) :
    (blanks ++ r).dropWhile Spaces.line.contains = r := by
  rw [List.dropWhile_append_of_pos fun b hmem => (contains_line b).2 (hb b hmem)]
  rcases r with _ | ⟨b, r⟩
  · rfl
  · have hblank : Spaces.line.contains b = false := by
      rcases hr b rfl with rfl | rfl
      · decide +kernel
      · decide +kernel
    simp [hblank]

/-- A comment and the end of its line go on with one of these bytes. -/
theorem head_comment {comment stop : Text} (hc : IsComment comment)
    (hstop : ∀ b ∈ (stop ++ r).head?, b = newline) :
    ∀ b ∈ (comment ++ (stop ++ r)).head?, b = commentMark ∨ b = newline := by
  rcases hc with rfl | ⟨y, rfl, -⟩
  · exact fun b hb => Or.inr (hstop b hb)
  · simp

theorem lineEnd?_eq_some_iff :
    lineEnd? s = some n ↔ ∃ x r, s = x ++ r ∧ n = x.length ∧ LineEnd x r := by
  constructor
  · intro h
    have hblanks : ∀ b ∈ s.takeWhile Spaces.line.contains, b = 32 ∨ b = 9 ∨ b = 13 :=
      fun b hb => (contains_line b).1 (List.all_eq_true.1 List.all_takeWhile b hb)
    have hs : s = s.takeWhile Spaces.line.contains ++ s.dropWhile Spaces.line.contains :=
      List.takeWhile_append_dropWhile.symm
    obtain ⟨comment, hc, hdrop, -⟩ := dropComment_eq (s.dropWhile Spaces.line.contains)
    rw [lineEnd?] at h
    rcases hrest : dropComment (s.dropWhile Spaces.line.contains) with _ | ⟨b, r⟩
    · rw [hrest] at h hdrop
      injection h with h
      exact ⟨s, [], by simp, h.symm, _, comment, [], by rw [← hdrop]; exact hs, hblanks, hc, Or.inr ⟨rfl, rfl⟩⟩
    · rw [hrest] at h hdrop
      simp only at h
      split at h
      · subst b
        injection h with h
        have hx : s = (s.takeWhile Spaces.line.contains ++ (comment ++ [newline])) ++ r := by
          conv_lhs => rw [hs, hdrop]
          simp
        refine ⟨_, r, hx, ?_, _, comment, [newline], rfl, hblanks, hc, Or.inl rfl⟩
        have hlen := congrArg List.length hx
        rw [List.length_append] at hlen
        omega
      · cases h
  · rintro ⟨x, r, rfl, rfl, blanks, comment, stop, rfl, hblanks, hc, hstop⟩
    have hend : ∀ b ∈ (stop ++ r).head?, b = newline := by
      rcases hstop with rfl | ⟨rfl, rfl⟩ <;> simp
    have hdrop := dropWhile_line hblanks (head_comment hc hend)
    simp only [List.append_assoc]
    rw [lineEnd?, hdrop, dropComment_append hc hend]
    rcases hstop with rfl | ⟨rfl, rfl⟩
    · simp only [List.singleton_append, if_true, List.length_append, List.length_cons, List.length_nil]
      congr 1
      omega
    · simp

theorem exact_eol : Exact Token.eol LineEnd := by
  intro s n
  rw [← lineEnd?_eq_some_iff, Token.eol]
  rcases lineEnd? s with _ | m <;> simp

/-- Behind spaces and tabs, an end of line goes on with nothing else than these bytes. -/
theorem LineEnd.next (h : LineEnd x r) {gap z : Text} {b : UInt8} (hgap : IsGap gap)
    (he : x ++ r = gap ++ b :: z) : b = 32 ∨ b = 9 ∨ b = 13 ∨ b = commentMark ∨ b = newline := by
  obtain ⟨blanks, comment, stop, rfl, hblanks, hc, hstop⟩ := h
  have hhead := head_comment hc (show ∀ b ∈ (stop ++ r).head?, b = newline by
    rcases hstop with rfl | ⟨rfl, rfl⟩ <;> simp)
  simp only [List.append_assoc] at he
  rcases List.append_eq_append_iff.1 he with ⟨g, rfl, hg⟩ | ⟨g, rfl, hg⟩
  · rcases g with _ | ⟨b', g⟩
    · exact Or.inr (Or.inr (Or.inr (hhead b (by rw [hg]; rfl))))
    · have hmark := hhead b' (by rw [hg]; rfl)
      have hblank := hgap b' (by simp)
      exfalso
      revert hmark
      rcases hblank with rfl | rfl <;> decide
  · rcases g with _ | ⟨b', g⟩
    · exact Or.inr (Or.inr (Or.inr (hhead b (by rw [← List.nil_append (comment ++ _), ← hg]; rfl))))
    · obtain ⟨rfl, -⟩ := List.cons.inj hg
      have := hblanks b (by simp)
      tauto

end

/-! ## Blanks -/

section
variable {x y r s : Text} {n : Nat}

theorem contains_all_iff (b : UInt8) :
    Spaces.all.contains b = true ↔ b = 32 ∨ b = 9 ∨ b = 13 ∨ b = newline := by
  simp [Spaces.contains_all, or_assoc, newline]

theorem blankCount_le_inComment (s : Text) : blankCount false s ≤ blankCount true s := by
  induction s with
  | nil => exact Nat.le_refl _
  | cons b s ih =>
    rw [blankCount, blankCount]
    by_cases hnl : b = newline
    · subst hnl
      have hblank : Spaces.all.contains newline = true := by decide +kernel
      simp [hblank]
    · have hcomment : (b != newline) = true := by simpa using hnl
      rw [hcomment]
      split
      · omega
      · split
        · exact Nat.le_refl _
        · exact Nat.zero_le _

theorem length_le_inComment (hy : ∀ b ∈ y, b ≠ newline) (s : Text) :
    blankCount true (y ++ s) = y.length + blankCount true s := by
  induction y with
  | nil => simp
  | cons b y ih =>
    obtain ⟨hb, hy⟩ := List.forall_mem_cons.1 hy
    have hcomment : (b != newline) = true := by simpa using hb
    rw [List.cons_append, blankCount, hcomment, ih hy, List.length_cons]
    omega

/-- A run of blanks is passed over. -/
theorem BlankRun.length_le (hx : BlankRun x) (r : Text) : x.length ≤ blankCount false (x ++ r) := by
  induction hx with
  | nil => exact Nat.zero_le _
  | blank hb _ ih =>
    rw [List.cons_append, blankCount, if_pos ((contains_all_iff _).2 hb), List.length_cons]
    omega
  | @comment x y hy _ ih =>
    have hmark : Spaces.all.contains commentMark = false := by decide +kernel
    have hle := blankCount_le_inComment (x ++ r)
    rw [List.cons_append, List.append_assoc, blankCount, if_neg (by simp [hmark]), if_pos rfl,
      length_le_inComment hy]
    simp only [List.length_cons, List.length_append]
    omega

/-- What is passed over is a run of blanks, behind what is left of a comment. -/
theorem blankRun_take (inComment : Bool) (s : Text) :
    ∃ y x, s.take (blankCount inComment s) = y ++ x ∧ (∀ b ∈ y, b ≠ newline) ∧ BlankRun x ∧
      (inComment = false → y = []) := by
  fun_induction blankCount inComment s with
  | case1 => exact ⟨[], [], rfl, by simp, .nil, fun _ => rfl⟩
  | case2 b s ih =>
    obtain ⟨y, x, htake, hy, hx, hnone⟩ := ih
    rw [Nat.add_comm, List.take_succ_cons, htake]
    by_cases hb : b = newline
    · obtain rfl := hnone (by simp [hb])
      exact ⟨[], b :: x, rfl, by simp, .blank (by simp [hb]) hx, fun _ => rfl⟩
    · exact ⟨b :: y, x, rfl, List.forall_mem_cons.2 ⟨hb, hy⟩, hx, fun h => by cases h⟩
  | case3 b s hblank ih =>
    obtain ⟨y, x, htake, -, hx, hnone⟩ := ih
    obtain rfl := hnone rfl
    rw [Nat.add_comm, List.take_succ_cons, htake]
    exact ⟨[], b :: x, rfl, by simp, .blank ((contains_all_iff b).1 hblank) hx, fun _ => rfl⟩
  | case4 s _ ih =>
    obtain ⟨y, x, htake, hy, hx, -⟩ := ih
    rw [Nat.add_comm, List.take_succ_cons, htake]
    exact ⟨[], commentMark :: (y ++ x), rfl, by simp, .comment hy hx, fun _ => rfl⟩
  | case5 => exact ⟨[], [], rfl, by simp, .nil, fun _ => rfl⟩

/-- **Blanks** are passed over as far as they go. -/
theorem blank_iff : Longest BlankRun x r ↔ blankCount false (x ++ r) = x.length := by
  have hrun : ∀ s : Text, BlankRun (s.take (blankCount false s)) := by
    intro s
    obtain ⟨y, x, htake, -, hx, hnone⟩ := blankRun_take false s
    rw [htake, hnone rfl]
    exact hx
  constructor
  · intro h
    have hle := h.mem.length_le r
    have hsplit := hrun (x ++ r)
    rw [List.take_append, List.take_of_length_le hle] at hsplit
    have hnil := h.longest _ _ (List.take_append_drop _ r).symm hsplit
    have hlen := congrArg List.length hnil
    have hfit := blankCount_le false (x ++ r)
    rw [List.length_take, List.length_nil] at hlen
    rw [List.length_append] at hfit
    omega
  · intro h
    refine ⟨?_, fun y z he hy => ?_⟩
    · have := hrun (x ++ r)
      rwa [h, List.take_left] at this
    · subst he
      have hle := hy.length_le z
      rw [List.append_assoc, h, List.length_append] at hle
      exact List.length_eq_zero_iff.1 (by omega)

end

end Lexical

end Straightline
