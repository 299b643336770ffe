/-
  Characters and their bytes.

  * `Rune.decode?_eq_some_iff`: a text starts with a character iff it starts with
    the bytes of that character;
  * `flatMap_bytes_pieces`: the pieces of a text put together give the text back.
-/
import Mathlib.Data.List.Basic
import Straightline.Text.Rune

namespace Straightline

namespace Rune

variable {c : Char} {s r : Text} {n v : Nat}

theorem toNat_ofNat_byte (h : n < 256) : (UInt8.ofNat n).toNat = n :=
  UInt8.toNat_ofNat_of_lt' h

theorem continuation?_ofNat (h : n < 64) : continuation? (UInt8.ofNat (n + 128)) = some n := by
  have hb : (UInt8.ofNat (n + 128)).toNat = n + 128 := toNat_ofNat_byte (by omega)
  have hrange : (0x80 ≤ UInt8.ofNat (n + 128) && UInt8.ofNat (n + 128) < 0xC0) = true := by
    simp only [UInt8.le_iff_toNat_le, UInt8.lt_iff_toNat_lt, hb, UInt8.reduceToNat, Bool.and_eq_true,
      decide_eq_true_eq]
    omega
  rw [continuation?, if_pos hrange, hb, Nat.add_sub_cancel]

theorem eq_of_continuation? {b : UInt8} (h : continuation? b = some n) :
    n < 64 ∧ b = UInt8.ofNat (n + 128) := by
  simp only [continuation?, UInt8.le_iff_toNat_le, UInt8.lt_iff_toNat_lt, Bool.and_eq_true,
    decide_eq_true_eq, Option.ite_none_right_eq_some, Option.some.injEq, UInt8.reduceToNat] at h
  obtain ⟨hb, rfl⟩ := h
  refine ⟨by omega, ?_⟩
  rw [← UInt8.toNat_inj, toNat_ofNat_byte (by omega)]
  omega

theorem toNat_ofNat_char (h : v.isValidChar) : (Char.ofNat v).toNat = v := by
  rw [Char.ofNat, dif_pos h]; rfl

theorem scalar?_eq_some_iff {least : Nat} :
    scalar? least v = some c ↔ least ≤ v ∧ c.toNat = v := by
  rw [scalar?]
  constructor
  · intro h
    split at h
    · rename_i hv
      cases h
      exact ⟨hv.1, toNat_ofNat_char hv.2⟩
    · cases h
  · rintro ⟨hv, rfl⟩
    rw [if_pos ⟨hv, c.valid⟩, Char.ofNat_toNat]

theorem toNat_lt (c : Char) : c.toNat < 0x110000 := by
  rcases c.valid with h | h
  · exact Nat.lt_trans h (by decide)
  · exact h.2

/-! The bytes of a character, by the size of its number. -/

theorem encode_one (h : c.toNat < 0x80) : encode c = [UInt8.ofNat c.toNat] := by
  have hv : c.val.toNat ≤ 127 := Nat.le_of_lt_succ h
  rw [encode, String.utf8EncodeChar, if_pos hv]; rfl

theorem encode_two (h : 0x80 ≤ c.toNat) (h' : c.toNat < 0x800) :
    encode c = [UInt8.ofNat (c.toNat / 64 + 192), UInt8.ofNat (c.toNat % 64 + 128)] := by
  have hv : ¬ c.val.toNat ≤ 127 := Nat.not_le.2 h
  have hv' : c.val.toNat ≤ 2047 := Nat.le_of_lt_succ h'
  have hlead : c.val.toNat / 64 % 32 = c.toNat / 64 := Nat.mod_eq_of_lt (by omega)
  rw [encode, String.utf8EncodeChar, if_neg hv, if_pos hv', hlead]; rfl

theorem encode_three (h : 0x800 ≤ c.toNat) (h' : c.toNat < 0x10000) :
    encode c = [UInt8.ofNat (c.toNat / 4096 + 224), UInt8.ofNat (c.toNat / 64 % 64 + 128),
      UInt8.ofNat (c.toNat % 64 + 128)] := by
  have hv : ¬ c.val.toNat ≤ 127 := Nat.not_le.2 (Nat.lt_of_lt_of_le (by decide) h)
  have hv' : ¬ c.val.toNat ≤ 2047 := Nat.not_le.2 h
  have hv'' : c.val.toNat ≤ 65535 := Nat.le_of_lt_succ h'
  have hlead : c.val.toNat / 4096 % 16 = c.toNat / 4096 := Nat.mod_eq_of_lt (by omega)
  rw [encode, String.utf8EncodeChar, if_neg hv, if_neg hv', if_pos hv'', hlead]; rfl

theorem encode_four (h : 0x10000 ≤ c.toNat) :
    encode c = [UInt8.ofNat (c.toNat / 262144 + 240), UInt8.ofNat (c.toNat / 4096 % 64 + 128),
      UInt8.ofNat (c.toNat / 64 % 64 + 128), UInt8.ofNat (c.toNat % 64 + 128)] := by
  have hv : ¬ c.val.toNat ≤ 127 := Nat.not_le.2 (Nat.lt_of_lt_of_le (by decide) h)
  have hv' : ¬ c.val.toNat ≤ 2047 := Nat.not_le.2 (Nat.lt_of_lt_of_le (by decide) h)
  have hv'' : ¬ c.val.toNat ≤ 65535 := Nat.not_le.2 h
  have hlt : c.val.toNat < 0x110000 := toNat_lt c
  have hlead : c.val.toNat / 262144 % 8 = c.toNat / 262144 := Nat.mod_eq_of_lt (by omega)
  rw [encode, String.utf8EncodeChar, if_neg hv, if_neg hv', if_neg hv'', hlead]; rfl

theorem encode_ne_nil (c : Char) : encode c ≠ [] := by
  rcases Nat.lt_or_ge c.toNat 0x80 with h₁ | h₁
  · simp [encode_one h₁]
  rcases Nat.lt_or_ge c.toNat 0x800 with h₂ | h₂
  · simp [encode_two h₁ h₂]
  rcases Nat.lt_or_ge c.toNat 0x10000 with h₃ | h₃
  · simp [encode_three h₂ h₃]
  · simp [encode_four h₃]

/-- The bytes of a character outside ASCII are outside ASCII themselves. -/
theorem le_of_mem_encode (h : 0x80 ≤ c.toNat) {b : UInt8} (hb : b ∈ encode c) : 0x80 ≤ b.toNat := by
  have hlt := toNat_lt c
  have hbyte : ∀ {v : Nat}, 0x80 ≤ v → v < 256 → 0x80 ≤ (UInt8.ofNat v).toNat := by
    intro v hv hv'
    rwa [toNat_ofNat_byte hv']
  rcases Nat.lt_or_ge c.toNat 0x800 with h₂ | h₂
  · simp only [encode_two h h₂, List.mem_cons, List.not_mem_nil, or_false] at hb
    rcases hb with rfl | rfl <;> exact hbyte (by omega) (by omega)
  rcases Nat.lt_or_ge c.toNat 0x10000 with h₃ | h₃
  · simp only [encode_three h₂ h₃, List.mem_cons, List.not_mem_nil, or_false] at hb
    rcases hb with rfl | rfl | rfl <;> exact hbyte (by omega) (by omega)
  · simp only [encode_four h₃, List.mem_cons, List.not_mem_nil, or_false] at hb
    rcases hb with rfl | rfl | rfl | rfl <;> exact hbyte (by omega) (by omega)

/-! What a text starts with, by its leading byte. -/

section
variable {a x y z : UInt8} {i j k : Nat}

theorem decode?_one (h : a.toNat < 0x80) : decode? (a :: s) = some (Char.ofNat a.toNat, 1) := by
  simp [decode?, UInt8.lt_iff_toNat_lt, h]

theorem decode?_two (h : 0xC0 ≤ a.toNat) (h' : a.toNat < 0xE0) (hx : continuation? x = some i) :
    decode? (a :: x :: s) = (scalar? 0x80 ((a.toNat - 0xC0) * 64 + i)).map (·, 2) := by
  have h₁ : ¬ a.toNat < 0x80 := by omega
  have h₂ : ¬ a.toNat < 0xC0 := by omega
  simp only [decode?, UInt8.lt_iff_toNat_lt, UInt8.reduceToNat, if_neg h₁, if_neg h₂, if_pos h',
    List.getElem?_cons_zero, Option.bind_some, hx, bind, pure, Option.map_eq_bind, Function.comp_def]

theorem decode?_three (h : 0xE0 ≤ a.toNat) (h' : a.toNat < 0xF0) (hx : continuation? x = some i)
    (hy : continuation? y = some j) : decode? (a :: x :: y :: s) =
      (scalar? 0x800 (((a.toNat - 0xE0) * 64 + i) * 64 + j)).map (·, 3) := by
  have h₁ : ¬ a.toNat < 0x80 := by omega
  have h₂ : ¬ a.toNat < 0xC0 := by omega
  have h₃ : ¬ a.toNat < 0xE0 := by omega
  simp only [decode?, UInt8.lt_iff_toNat_lt, UInt8.reduceToNat, if_neg h₁, if_neg h₂, if_neg h₃, if_pos h',
    List.getElem?_cons_zero, List.getElem?_cons_succ, Option.bind_some, hx, hy, bind, pure,
    Option.map_eq_bind, Function.comp_def]

theorem decode?_four (h : 0xF0 ≤ a.toNat) (h' : a.toNat < 0xF8) (hx : continuation? x = some i)
    (hy : continuation? y = some j) (hz : continuation? z = some k) :
    decode? (a :: x :: y :: z :: s) =
      (scalar? 0x10000 ((((a.toNat - 0xF0) * 64 + i) * 64 + j) * 64 + k)).map (·, 4) := by
  have h₁ : ¬ a.toNat < 0x80 := by omega
  have h₂ : ¬ a.toNat < 0xC0 := by omega
  have h₃ : ¬ a.toNat < 0xE0 := by omega
  have h₄ : ¬ a.toNat < 0xF0 := by omega
  simp only [decode?, UInt8.lt_iff_toNat_lt, UInt8.reduceToNat, if_neg h₁, if_neg h₂, if_neg h₃, if_neg h₄,
    if_pos h', List.getElem?_cons_zero, List.getElem?_cons_succ, Option.bind_some, hx, hy, hz, bind, pure,
    Option.map_eq_bind, Function.comp_def]

end

/-- **The bytes of a character read as that character**, whatever follows. -/
theorem decode?_encode (c : Char) (r : Text) :
    decode? (encode c ++ r) = some (c, (encode c).length) := by
  have hlt := toNat_lt c
  have hmod : ∀ v : Nat, v % 64 < 64 := fun v => Nat.mod_lt v (by decide)
  rcases Nat.lt_or_ge c.toNat 0x80 with h₁ | h₁
  · have hb : (UInt8.ofNat c.toNat).toNat = c.toNat := toNat_ofNat_byte (by omega)
    rw [encode_one h₁]
    refine (decode?_one (by omega)).trans ?_
    rw [hb, Char.ofNat_toNat]; rfl
  rcases Nat.lt_or_ge c.toNat 0x800 with h₂ | h₂
  · have hb : (UInt8.ofNat (c.toNat / 64 + 192)).toNat = c.toNat / 64 + 192 := toNat_ofNat_byte (by omega)
    have hv : (c.toNat / 64 + 192 - 192) * 64 + c.toNat % 64 = c.toNat := by omega
    rw [encode_two h₁ h₂]
    refine (decode?_two (by omega) (by omega) (continuation?_ofNat (hmod _))).trans ?_
    rw [hb, hv, scalar?_eq_some_iff.2 ⟨h₁, rfl⟩]; rfl
  rcases Nat.lt_or_ge c.toNat 0x10000 with h₃ | h₃
  · have hb : (UInt8.ofNat (c.toNat / 4096 + 224)).toNat = c.toNat / 4096 + 224 :=
      toNat_ofNat_byte (by omega)
    have hv : ((c.toNat / 4096 + 224 - 224) * 64 + c.toNat / 64 % 64) * 64 + c.toNat % 64 = c.toNat := by
      omega
    rw [encode_three h₂ h₃]
    refine (decode?_three (by omega) (by omega) (continuation?_ofNat (hmod _))
      (continuation?_ofNat (hmod _))).trans ?_
    rw [hb, hv, scalar?_eq_some_iff.2 ⟨h₂, rfl⟩]; rfl
  · have hb : (UInt8.ofNat (c.toNat / 262144 + 240)).toNat = c.toNat / 262144 + 240 :=
      toNat_ofNat_byte (by omega)
    have hv : (((c.toNat / 262144 + 240 - 240) * 64 + c.toNat / 4096 % 64) * 64 + c.toNat / 64 % 64) * 64 +
        c.toNat % 64 = c.toNat := by omega
    rw [encode_four h₃]
    refine (decode?_four (by omega) (by omega) (continuation?_ofNat (hmod _))
      (continuation?_ofNat (hmod _)) (continuation?_ofNat (hmod _))).trans ?_
    rw [hb, hv, scalar?_eq_some_iff.2 ⟨h₃, rfl⟩]; rfl

/-- What is read as a character are its bytes. -/
theorem exists_of_decode? (h : decode? s = some (c, n)) : ∃ r, s = encode c ++ r ∧ n = (encode c).length := by
  rcases s with _ | ⟨a, s⟩
  · cases h
  have ha : ∀ v, a.toNat = v → a = UInt8.ofNat v := fun v hv => by
    rw [← hv, UInt8.ofNat_toNat]
  simp only [decode?, UInt8.lt_iff_toNat_lt, UInt8.reduceToNat] at h
  split at h
  · rename_i h₁
    cases h
    have hc : (Char.ofNat a.toNat).toNat = a.toNat := toNat_ofNat_char (Or.inl (by omega))
    refine ⟨s, ?_, ?_⟩
    · rw [encode_one (by omega), ← ha _ hc.symm]; rfl
    · rw [encode_one (by omega)]; rfl
  split at h
  · cases h
  split at h
  · simp only [bind, Option.bind_eq_some_iff, pure, Option.some.injEq, Prod.mk.injEq] at h
    obtain ⟨i, ⟨x, hx, hi⟩, c, hc, rfl, rfl⟩ := h
    obtain ⟨hi', rfl⟩ := eq_of_continuation? hi
    obtain ⟨hv, hc⟩ := scalar?_eq_some_iff.1 hc
    rcases s with _ | ⟨b, s⟩
    · cases hx
    cases hx
    rw [encode_two (by omega) (by omega)]
    refine ⟨s, ?_, rfl⟩
    rw [ha (c.toNat / 64 + 192) (by omega), show i = c.toNat % 64 by omega]; rfl
  split at h
  · simp only [bind, Option.bind_eq_some_iff, pure, Option.some.injEq, Prod.mk.injEq] at h
    obtain ⟨i, ⟨x, hx, hi⟩, j, ⟨y, hy, hj⟩, c, hc, rfl, rfl⟩ := h
    obtain ⟨hi', rfl⟩ := eq_of_continuation? hi
    obtain ⟨hj', rfl⟩ := eq_of_continuation? hj
    obtain ⟨hv, hc⟩ := scalar?_eq_some_iff.1 hc
    rcases s with _ | ⟨b, _ | ⟨d, s⟩⟩
    · cases hx
    · cases hy
    cases hx; cases hy
    rw [encode_three (by omega) (by omega)]
    refine ⟨s, ?_, rfl⟩
    rw [ha (c.toNat / 4096 + 224) (by omega), show i = c.toNat / 64 % 64 by omega,
      show j = c.toNat % 64 by omega]; rfl
  split at h
  · simp only [bind, Option.bind_eq_some_iff, pure, Option.some.injEq, Prod.mk.injEq] at h
    obtain ⟨i, ⟨x, hx, hi⟩, j, ⟨y, hy, hj⟩, k, ⟨z, hz, hk⟩, c, hc, rfl, rfl⟩ := h
    obtain ⟨hi', rfl⟩ := eq_of_continuation? hi
    obtain ⟨hj', rfl⟩ := eq_of_continuation? hj
    obtain ⟨hk', rfl⟩ := eq_of_continuation? hk
    obtain ⟨hv, hc⟩ := scalar?_eq_some_iff.1 hc
    rcases s with _ | ⟨b, _ | ⟨d, _ | ⟨e, s⟩⟩⟩
    · cases hx
    · cases hy
    · cases hz
    cases hx; cases hy; cases hz
    rw [encode_four (by omega)]
    refine ⟨s, ?_, rfl⟩
    rw [ha (c.toNat / 262144 + 240) (by omega), show i = c.toNat / 4096 % 64 by omega,
      show j = c.toNat / 64 % 64 by omega, show k = c.toNat % 64 by omega]; rfl
  · cases h

theorem decode?_eq_some_iff : decode? s = some (c, n) ↔ ∃ r, s = encode c ++ r ∧ n = (encode c).length := by
  refine ⟨exists_of_decode?, ?_⟩
  rintro ⟨r, rfl, rfl⟩
  exact decode?_encode c r

/-- A text that is read as starting with a character has all the bytes of it. -/
theorem length_le_of_decode? (h : decode? s = some (c, n)) : 0 < n ∧ n ≤ s.length := by
  obtain ⟨r, rfl, rfl⟩ := decode?_eq_some_iff.1 h
  exact ⟨List.length_pos_iff.2 (encode_ne_nil c), by simp⟩

/-- What follows the bytes of a character does not matter. -/
theorem decode?_append {x : Text} (h : decode? (x ++ s) = some (c, n)) (hn : n ≤ x.length) :
    decode? (x ++ r) = some (c, n) := by
  obtain ⟨r', hsplit, rfl⟩ := decode?_eq_some_iff.1 h
  have hfront : encode c <+: x ++ s := ⟨r', hsplit.symm⟩
  obtain ⟨x', rfl⟩ : encode c <+: x := List.prefix_of_prefix_length_le hfront (List.prefix_append x s) hn
  rw [List.append_assoc]
  exact decode?_encode c (x' ++ r)

end Rune

/-- **The pieces of a text make up the text.** -/
theorem flatMap_bytes_pieces (s : Text) : (pieces s).flatMap Piece.bytes = s := by
  induction hn : s.length using Nat.strongRecOn generalizing s with
  | ind n ih =>
    rcases s with _ | ⟨b, s⟩
    · rfl
    rw [pieces_cons]
    rcases hd : Rune.decode? (b :: s) with _ | ⟨c, k⟩
    · rw [List.flatMap_cons, ih s.length (by simp [← hn]) s rfl]
      rfl
    · obtain ⟨r, hsplit, rfl⟩ := Rune.decode?_eq_some_iff.1 hd
      have hlen := List.length_pos_iff.2 (Rune.encode_ne_nil c)
      have hdrop : s.drop ((Rune.encode c).length - 1) = r := by
        have hsucc : (b :: s).drop ((Rune.encode c).length - 1 + 1) = r := by
          rw [Nat.sub_add_cancel hlen, hsplit, List.drop_left]
        simpa using hsucc
      have hshort : r.length < n := by
        rw [← hn, hsplit, List.length_append]
        omega
      simp only [List.flatMap_cons, hdrop, ih r.length hshort r rfl, Piece.bytes]
      exact hsplit.symm

end Straightline
