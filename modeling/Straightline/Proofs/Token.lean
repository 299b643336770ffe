/-
  Tokens and what follows them.

  A scanner takes as much as it can.  What it takes therefore depends on the byte
  behind the token, and on nothing further on.

  * `Token.ident_eq_ok_iff`: scanning an identifier cuts a text into one
    (`IsIdent`) and a rest in which it does not go on (`EndsWord`);
  * `Token.keyword_append`: whether a word stands at the front of an identifier
    does not depend on what follows it;
  * `Token.eol_newline`, `Spaces.count_append`, `blankCount_append`: how far ends
    of lines and blanks go.
-/
import Straightline.Syntax.Token
import Straightline.Proofs.Rune

namespace Straightline

theorem forall_byte {p : UInt8 → Prop} (h : ∀ n < 256, p (UInt8.ofNat n)) (b : UInt8) : p b := by
  have hb := h b.toNat b.toNat_lt
  rwa [UInt8.ofNat_toNat] at hb

/-! ## Blanks -/

namespace Spaces

variable {s : Spaces} {x r : Text}

theorem contains_tab : ∀ b, tab.contains b = (b == 32 || b == 9) :=
  forall_byte (by decide +kernel)

theorem contains_all : ∀ b, all.contains b = (b == 32 || b == 9 || b == 13 || b == 10) :=
  forall_byte (by decide +kernel)

theorem count_le (s : Spaces) (t : Text) : s.count t ≤ t.length :=
  (List.takeWhile_prefix _).length_le

/-- Blanks go up to the first byte that is none. -/
theorem count_append (hx : ∀ b ∈ x, s.contains b = true) (hr : ∀ b ∈ r.head?, s.contains b = false) :
    s.count (x ++ r) = x.length := by
  rw [count, List.takeWhile_append_of_pos hx]
  rcases r with _ | ⟨b, r⟩
  · simp
  · have hb : s.contains b = false := hr b rfl
    simp [hb]

end Spaces

theorem blankCount_le (inComment : Bool) (t : Text) : blankCount inComment t ≤ t.length := by
  fun_induction blankCount inComment t with
  | case1 => exact Nat.le_refl _
  | case2 b s ih => simp only [List.length_cons]; omega
  | case3 b s _ ih => simp only [List.length_cons]; omega
  | case4 s _ ih => simp only [List.length_cons]; omega
  | case5 => exact Nat.zero_le _

/-- Does the text start with something other than a blank or a comment? -/
def StartsFull (r : Text) : Prop :=
  ∀ b ∈ r.head?, Spaces.all.contains b = false ∧ b ≠ commentMark

theorem blankCount_append {x r : Text} (hx : ∀ b ∈ x, Spaces.all.contains b = true) (hr : StartsFull r) :
    blankCount false (x ++ r) = x.length := by
  induction x with
  | nil =>
    rcases r with _ | ⟨b, r⟩
    · rfl
    · obtain ⟨hblank, hmark⟩ := hr b rfl
      simp [blankCount, hblank, hmark]
  | cons b x ih =>
    obtain ⟨hb, hx⟩ := List.forall_mem_cons.1 hx
    rw [List.cons_append, blankCount, if_pos hb, ih hx, List.length_cons, Nat.add_comm]

namespace Token

variable {s x r w : Text} {n : Nat} {b : UInt8}

/-! ## Lengths -/

/-- A scanner that finds tokens inside the text only. -/
def Fits (scan : Text → Scan) : Prop :=
  ∀ ⦃s n⦄, scan s = .ok n → n ≤ s.length

/-- A scanner that finds no empty tokens. -/
def Moves (scan : Text → Scan) : Prop :=
  ∀ ⦃s n⦄, scan s = .ok n → 0 < n

theorem const_eq_ok_iff : const w s = .ok n ↔ w <+: s ∧ n = w.length := by
  rw [const]
  split
  · rename_i h
    simp [List.isPrefixOf_iff_prefix.1 h, eq_comm]
  · rename_i h
    have hpre : ¬ w <+: s := fun hw => h (List.isPrefixOf_iff_prefix.2 hw)
    simp [hpre]

theorem keyword_eq_ok_iff :
    keyword w s = .ok n ↔ (w <+: s ∧ ∀ b ∈ s[w.length]?, isIdentByte b = false) ∧ n = w.length := by
  have hcond : (w.isPrefixOf s && !((s.drop w.length).head?.any isIdentByte)) = true ↔
      w <+: s ∧ ∀ b ∈ s[w.length]?, isIdentByte b = false := by
    rw [Bool.and_eq_true_iff, List.isPrefixOf_iff_prefix, List.head?_drop]
    cases s[w.length]? <;> simp
  rw [keyword, ← hcond]
  split
  · rename_i h
    simp only [h, true_and, Except.ok.injEq, eq_comm]
  · rename_i h
    simp only [h, false_and, reduceCtorEq]

theorem fits_const (w : Text) : Fits (const w) := by
  intro s n h
  obtain ⟨hpre, rfl⟩ := const_eq_ok_iff.1 h
  exact hpre.length_le

theorem fits_keyword (w : Text) : Fits (keyword w) := by
  intro s n h
  obtain ⟨⟨hpre, -⟩, rfl⟩ := keyword_eq_ok_iff.1 h
  exact hpre.length_le

theorem moves_keyword (hw : w ≠ []) : Moves (keyword w) := by
  intro s n h
  obtain ⟨-, rfl⟩ := keyword_eq_ok_iff.1 h
  exact List.length_pos_iff.2 hw

theorem digits_ok {length : Nat} (h : digits length s = .ok n) : length < n ∧ n ≤ length + s.length := by
  rcases s with _ | ⟨b, s⟩
  · cases h
  · rw [digits] at h
    split at h
    · cases h
      have := (List.takeWhile_prefix (l := s) isIdentByte).length_le
      simp only [List.length_cons]
      omega
    · cases h

theorem int_ok (h : int s = .ok n) : 0 < n ∧ n ≤ s.length := by
  rcases s with _ | ⟨b, s⟩
  · cases h
  · rw [int] at h
    split at h
    · obtain ⟨hpos, hle⟩ := digits_ok h
      simp only [List.length_cons]
      omega
    · obtain ⟨hpos, hle⟩ := digits_ok h
      omega

theorem stringRest_ok {length : Nat} {escaped : Bool} (h : stringRest length escaped s = .ok n) :
    length < n ∧ n ≤ length + s.length := by
  fun_induction stringRest length escaped s with
  | case1 => cases h
  | case2 length b s ih => have := ih h; simp only [List.length_cons]; omega
  | case3 length s ih => have := ih h; simp only [List.length_cons]; omega
  | case4 => cases h
  | case5 length s => cases h; simp only [List.length_cons]; omega
  | case6 length b s _ _ _ ih => have := ih h; simp only [List.length_cons]; omega

theorem string_ok (h : string s = .ok n) : 0 < n ∧ n ≤ s.length := by
  rcases s with _ | ⟨b, s⟩
  · cases h
  · rw [string] at h
    split at h
    · obtain ⟨hpos, hle⟩ := stringRest_ok h
      simp only [List.length_cons]
      omega
    · cases h

theorem fits_eol : Fits eol := by
  intro s n h
  unfold eol lineEnd? at h
  split at h
  · rename_i k hk
    cases h
    split at hk
    · cases hk; exact Nat.le_refl _
    · split at hk
      · cases hk; exact Nat.sub_le _ _
      · cases hk
  · cases h

theorem eol_newline (r : Text) : eol (newline :: r) = .ok 1 := by
  have hblank : Spaces.line.contains newline = false := by decide +kernel
  have hdrop : (newline :: r).dropWhile Spaces.line.contains = newline :: r := by simp [hblank]
  have hend : lineEnd? (newline :: r) = some 1 := by
    simp [lineEnd?, hdrop, dropComment, show newline ≠ commentMark by decide]
  rw [eol, hend]

/-! ## Identifiers -/

/-- No identifier goes on in the text. -/
def EndsWord (r : Text) : Prop :=
  ∀ b ∈ r.head?, b < 0x80 ∧ isIdentByte b = false

/-- The text is an identifier as a whole. -/
def IsIdent (x : Text) : Prop :=
  ident x = .ok x.length

instance (x : Text) : Decidable (IsIdent x) :=
  match h : ident x with
  | .ok n => decidable_of_iff (n = x.length) (by simp [IsIdent, h])
  | .error _ => .isFalse (by simp [IsIdent, h])

theorem endsWord_nil : EndsWord [] := by
  simp [EndsWord]

theorem endsWord_cons : EndsWord (b :: r) ↔ b < 0x80 ∧ isIdentByte b = false := by
  simp [EndsWord]

theorem identRest_endsWord {length : Nat} (hr : EndsWord r) : identRest length 0 r = .ok length := by
  rcases r with _ | ⟨b, r⟩
  · rfl
  · obtain ⟨hb, hident⟩ := endsWord_cons.1 hr
    simp [identRest, hb, hident]

/-- What is taken of a text as the rest of an identifier is also taken of every text
    that starts with it and does not go on. -/
theorem exists_of_identRest {length skip : Nat} (hskip : skip ≤ s.length)
    (h : identRest length skip s = .ok n) :
    ∃ x r, s = x ++ r ∧ n = length + x.length ∧ skip ≤ x.length ∧ EndsWord r ∧
      ∀ length' r', EndsWord r' → identRest length' skip (x ++ r') = .ok (length' + x.length) := by
  induction s generalizing length skip with
  | nil =>
    obtain rfl : skip = 0 := Nat.le_zero.1 hskip
    cases h
    exact ⟨[], [], rfl, rfl, Nat.le_refl _, endsWord_nil, fun _ _ hr => identRest_endsWord hr⟩
  | cons b s ih =>
    -- Three cases take the byte and go on; they differ in the bytes left to skip.
    have hstep : ∀ skip', skip' ≤ s.length → identRest (length + 1) skip' s = .ok n → skip ≤ skip' + 1 →
        (∀ x r' length', skip' ≤ x.length → (∃ r, s = x ++ r) →
          identRest length' skip (b :: (x ++ r')) = identRest (length' + 1) skip' (x ++ r')) →
        ∃ x r, b :: s = x ++ r ∧ n = length + x.length ∧ skip ≤ x.length ∧ EndsWord r ∧
          ∀ length' r', EndsWord r' → identRest length' skip (x ++ r') = .ok (length' + x.length) := by
      intro skip' hle hrest hskip' hgo
      obtain ⟨x, r, hs, rfl, hx, hr, hstable⟩ := ih hle hrest
      refine ⟨b :: x, r, by rw [hs, List.cons_append], by simp only [List.length_cons]; omega,
        by simp only [List.length_cons]; omega, hr, ?_⟩
      intro length' r' hr'
      rw [List.cons_append, hgo x r' length' hx ⟨r, hs⟩, hstable _ _ hr', List.length_cons]
      congr 1
      omega
    rcases skip with _ | skip
    · rw [identRest] at h
      by_cases hident : isIdentByte b = true
      · rw [if_pos hident] at h
        refine hstep 0 (Nat.zero_le _) h (by omega) ?_
        intro x r' length' _ _
        rw [identRest, if_pos hident]
      rw [if_neg hident] at h
      by_cases hb : b < 0x80
      · rw [if_pos hb] at h
        cases h
        have hends : EndsWord (b :: s) := endsWord_cons.2 ⟨hb, by simpa using hident⟩
        exact ⟨[], b :: s, rfl, rfl, Nat.le_refl _, hends, fun _ _ hr => identRest_endsWord hr⟩
      rw [if_neg hb] at h
      rcases hd : Rune.decode? (b :: s) with _ | ⟨c, k⟩
      · simp only [hd] at h
        cases h
      simp only [hd] at h
      split at h
      · cases h
      rename_i hc
      obtain ⟨hpos, hk⟩ := Rune.length_le_of_decode? hd
      refine hstep (k - 1) (by simp only [List.length_cons] at hk; omega) h (by omega) ?_
      rintro x r' length' hx ⟨r, rfl⟩
      have hd' : Rune.decode? (b :: (x ++ r')) = some (c, k) := by
        rw [← List.cons_append] at hd ⊢
        exact Rune.decode?_append hd (by simp only [List.length_cons]; omega)
      rw [identRest, if_neg hident, if_neg hb]
      simp only [hd', if_neg hc]
    · refine hstep skip (by simp only [List.length_cons] at hskip; omega) h (by omega) ?_
      intro x r' length' _ _
      rw [identRest]

/-- An identifier ends where it does not go on. -/
theorem ident_eq_ok_iff :
    ident s = .ok n ↔ ∃ x r, s = x ++ r ∧ n = x.length ∧ IsIdent x ∧ EndsWord r := by
  have hsplit : ∀ {s n}, ident s = .ok n →
      ∃ x r, s = x ++ r ∧ n = x.length ∧ EndsWord r ∧ ∀ r', EndsWord r' → ident (x ++ r') = .ok x.length := by
    intro s n h
    rcases s with _ | ⟨b, s⟩
    · cases h
    rw [ident] at h
    split at h
    · rename_i hb
      obtain ⟨x, r, rfl, rfl, -, hr, hstable⟩ := exists_of_identRest (Nat.zero_le _) h
      refine ⟨b :: x, r, rfl, Nat.add_comm _ _, hr, ?_⟩
      intro r' hr'
      rw [List.cons_append, ident, if_pos hb, hstable 1 r' hr', List.length_cons, Nat.add_comm]
    · cases h
  constructor
  · intro h
    obtain ⟨x, r, hs, hn, hr, hstable⟩ := hsplit h
    have hx := hstable [] endsWord_nil
    rw [List.append_nil] at hx
    exact ⟨x, r, hs, hn, hx, hr⟩
  · rintro ⟨x, r, rfl, rfl, hx, hr⟩
    obtain ⟨y, r', hxy, hlen, -, hstable⟩ := hsplit hx
    obtain rfl : r' = [] := by
      have := congrArg List.length hxy
      simp only [List.length_append] at this
      exact List.length_eq_zero_iff.1 (by omega)
    rw [List.append_nil] at hxy
    subst hxy
    exact hstable r hr

theorem ident_append (hx : IsIdent x) (hr : EndsWord r) : ident (x ++ r) = .ok x.length :=
  ident_eq_ok_iff.2 ⟨x, r, rfl, rfl, hx, hr⟩

theorem fits_ident : Fits ident := by
  intro s n h
  obtain ⟨x, r, rfl, rfl, -, -⟩ := ident_eq_ok_iff.1 h
  simp

theorem isIdent_cons (hx : IsIdent x) : ∃ b y, x = b :: y ∧ isIdentStart b = true := by
  rcases x with _ | ⟨b, y⟩
  · cases hx
  · rw [IsIdent, ident] at hx
    split at hx
    · exact ⟨b, y, rfl, ‹_›⟩
    · cases hx

theorem byte_of_identRest {length skip : Nat} (h : identRest length skip s = .ok (length + s.length)) :
    ∀ b ∈ s.drop skip, isIdentByte b = true ∨ 0x80 ≤ b.toNat := by
  induction s generalizing length skip with
  | nil => simp
  | cons b s ih =>
    have hrest : ∀ {skip'}, identRest (length + 1) skip' s = .ok (length + (b :: s).length) →
        ∀ b ∈ s.drop skip', isIdentByte b = true ∨ 0x80 ≤ b.toNat := by
      intro skip' h
      exact ih (h.trans (by rw [List.length_cons]; congr 1; omega))
    rcases skip with _ | skip
    · rw [List.drop_zero, List.forall_mem_cons]
      rw [identRest] at h
      by_cases hident : isIdentByte b = true
      · rw [if_pos hident] at h
        exact ⟨.inl hident, hrest h⟩
      rw [if_neg hident] at h
      by_cases hb : b < 0x80
      · rw [if_pos hb] at h
        simp at h
      rw [if_neg hb] at h
      have hb' : 0x80 ≤ b.toNat := by simpa [UInt8.lt_iff_toNat_lt] using hb
      rcases hd : Rune.decode? (b :: s) with _ | ⟨c, k⟩
      · simp only [hd] at h
        cases h
      simp only [hd] at h
      split at h
      · cases h
      -- The bytes up to the next character are those of the character just read.
      obtain ⟨r, hs, rfl⟩ := Rune.decode?_eq_some_iff.1 hd
      have hhigh : ∀ b' ∈ Rune.encode c, 0x80 ≤ b'.toNat := by
        refine fun b' => Rune.le_of_mem_encode (Nat.not_lt.1 fun hc => ?_)
        rw [Rune.encode_one hc] at hs
        obtain ⟨rfl, -⟩ := List.cons.inj hs
        rw [Rune.toNat_ofNat_byte (by omega)] at hb'
        omega
      obtain ⟨y, hy⟩ : ∃ y, Rune.encode c = b :: y := by
        rcases hc : Rune.encode c with _ | ⟨b', y⟩
        · exact absurd hc (Rune.encode_ne_nil c)
        · rw [hc, List.cons_append] at hs
          exact ⟨y, by rw [(List.cons.inj hs).1]⟩
      rw [hy] at hs hhigh h
      rw [List.cons_append] at hs
      obtain ⟨-, rfl⟩ := List.cons.inj hs
      have hr := hrest h
      simp only [List.length_cons, Nat.add_sub_cancel, List.drop_left] at hr
      refine ⟨.inr hb', ?_⟩
      intro b' hmem
      rcases List.mem_append.1 hmem with hmem | hmem
      · exact .inr (hhigh b' (List.mem_cons_of_mem b hmem))
      · exact hr b' hmem
    · exact hrest h

/-- An identifier has no other ASCII bytes than letters, digits and underscores. -/
theorem byte_of_isIdent (hx : IsIdent x) : ∀ b ∈ x, isIdentByte b = true ∨ 0x80 ≤ b.toNat := by
  obtain ⟨b, y, rfl, hb⟩ := isIdent_cons hx
  rw [IsIdent, ident, if_pos hb, List.length_cons, Nat.add_comm] at hx
  have hident : isIdentByte b = true := by simp [isIdentByte, hb]
  exact List.forall_mem_cons.2 ⟨.inl hident, byte_of_identRest hx⟩

theorem moves_ident : Moves ident := by
  intro s n h
  obtain ⟨x, r, rfl, rfl, hx, -⟩ := ident_eq_ok_iff.1 h
  obtain ⟨b, y, rfl, -⟩ := isIdent_cons hx
  simp

theorem ident_error (hr : ∀ b ∈ r.head?, isIdentStart b = false) : ident r = .error (0, .ident) := by
  rcases r with _ | ⟨b, r⟩
  · rfl
  · have hb : isIdentStart b = false := hr b rfl
    simp [ident, hb]

/-- Letters, digits and underscores at the front of an identifier do not depend on
    what follows the identifier. -/
theorem keyword_append (hw : ∀ b ∈ w, isIdentByte b = true) (hr : EndsWord r) :
    keyword w (x ++ r) = .ok n ↔ keyword w x = .ok n := by
  have hmem : ∀ {b}, b ∈ r[0]? → isIdentByte b = false := fun {b} hb =>
    (hr b (by rwa [List.head?_eq_getElem?])).2
  rw [keyword_eq_ok_iff, keyword_eq_ok_iff]
  refine and_congr_left fun _ => ⟨?_, ?_⟩
  · rintro ⟨hpre, hend⟩
    have hlen : w.length ≤ x.length := by
      by_contra hlt
      obtain ⟨b, hb⟩ : ∃ b, w[x.length]? = some b := ⟨_, List.getElem?_eq_getElem (by omega)⟩
      have hat : (x ++ r)[x.length]? = some b := by
        obtain ⟨z, hz⟩ := hpre
        rw [← hz, List.getElem?_append_left (by omega), hb]
      rw [List.getElem?_append_right (Nat.le_refl _), Nat.sub_self] at hat
      have hident := hw b (List.mem_of_getElem? hb)
      rw [hmem hat] at hident
      cases hident
    refine ⟨List.prefix_of_prefix_length_le hpre (List.prefix_append x r) hlen, ?_⟩
    intro b hb
    have hlt : w.length < x.length := (List.getElem?_eq_some_iff.1 hb).1
    exact hend b (by rwa [List.getElem?_append_left hlt])
  · rintro ⟨hpre, hend⟩
    refine ⟨hpre.trans (List.prefix_append x r), ?_⟩
    intro b hb
    rcases Nat.lt_or_eq_of_le hpre.length_le with hlt | heq
    · exact hend b (by rwa [List.getElem?_append_left hlt] at hb)
    · rw [heq, List.getElem?_append_right (Nat.le_refl _), Nat.sub_self] at hb
      exact hmem hb

end Token

end Straightline
