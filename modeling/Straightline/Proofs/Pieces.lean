/-
  Texts in parts.

  A text is cut at every occurrence of a byte, or into characters and stray bytes.  A byte
  that begins a character continues none, so that characters are found from either end.

  * `cutAt_eq_iff`: the parts of a text are those without the byte that make up the text when
    they are joined by it;
  * `pieces_append`: a text is cut in front of every byte that may begin a character;
  * `Trims`, `trimmed_eq_iff`: trimming takes away blank characters at both ends, and leaves
    none there.
-/
import Mathlib
import Straightline.Proofs.Rune
import Straightline.Text.Blank

namespace Straightline

/-! ## Cutting at a byte -/

section
variable {mark : UInt8} {s : Text} {parts : List Text}

theorem cutAt_eq_splitOn (mark : UInt8) (s : Text) : cutAt mark s = s.splitOn mark := by
  induction s with
  | nil => rfl
  | cons b s ih =>
    rw [cutAt, ih, List.splitOn_cons_eq_if_modifyHead]
    rcases hparts : s.splitOn mark with _ | ⟨part, rest⟩
    · exact absurd hparts (List.splitOn_ne_nil mark s)
    · simp only [beq_iff_eq, List.modifyHead_cons]

theorem not_mem_of_mem_cutAt {part : Text} (h : part ∈ cutAt mark s) : mark ∉ part := by
  induction s generalizing part with
  | nil => simp_all [cutAt]
  | cons b s ih =>
    rw [cutAt] at h
    split at h
    · rename_i first rest hparts
      rw [hparts] at ih
      split at h
      · rcases List.mem_cons.1 h with rfl | h
        · exact List.not_mem_nil
        · exact ih h
      · rename_i hb
        rcases List.mem_cons.1 h with rfl | h
        · rw [List.mem_cons, not_or]
          exact ⟨Ne.symm hb, ih List.mem_cons_self⟩
        · exact ih (List.mem_cons_of_mem _ h)
    · cases h

/-- **The parts of a text** have no mark in them, and are joined by it. -/
theorem cutAt_eq_iff :
    cutAt mark s = parts ↔ parts ≠ [] ∧ (∀ p ∈ parts, mark ∉ p) ∧ [mark].intercalate parts = s := by
  constructor
  · rintro rfl
    refine ⟨?_, fun p hp => not_mem_of_mem_cutAt hp, ?_⟩
    · rw [cutAt_eq_splitOn]
      exact List.splitOn_ne_nil mark s
    · rw [cutAt_eq_splitOn, List.intercalate_splitOn]
  · rintro ⟨hne, hparts, rfl⟩
    rw [cutAt_eq_splitOn, List.splitOn_intercalate mark hparts hne]

end

/-! ## Characters from either end -/

namespace Rune

variable {b : UInt8}

theorem continuation?_isSome_iff : (continuation? b).isSome = true ↔ 0x80 ≤ b.toNat ∧ b.toNat < 0xC0 := by
  simp [continuation?, UInt8.le_iff_toNat_le, UInt8.lt_iff_toNat_lt]

/-- A character is one byte that continues none, and then bytes that do. -/
theorem exists_encode_eq_cons (c : Char) : ∃ b t, encode c = b :: t ∧ continuation? b = none ∧
    ∀ d ∈ t, (continuation? d).isSome = true := by
  have hlt := toNat_lt c
  have hlead : ∀ {v : Nat}, v < 0x80 ∨ (0xC0 ≤ v ∧ v < 256) → continuation? (UInt8.ofNat v) = none := by
    intro v hv
    rw [← Option.not_isSome_iff_eq_none, continuation?_isSome_iff, toNat_ofNat_byte (by omega)]
    omega
  have hrest : ∀ v : Nat, (continuation? (UInt8.ofNat (v % 64 + 128))).isSome = true := by
    intro v
    rw [continuation?_ofNat (Nat.mod_lt v (by decide))]
    rfl
  rcases Nat.lt_or_ge c.toNat 0x80 with h₁ | h₁
  · exact ⟨_, _, encode_one h₁, hlead (by omega), by simp⟩
  rcases Nat.lt_or_ge c.toNat 0x800 with h₂ | h₂
  · exact ⟨_, _, encode_two h₁ h₂, hlead (by omega), List.forall_mem_singleton.2 (hrest _)⟩
  rcases Nat.lt_or_ge c.toNat 0x10000 with h₃ | h₃
  · exact ⟨_, _, encode_three h₂ h₃, hlead (by omega),
      List.forall_mem_cons.2 ⟨hrest _, List.forall_mem_singleton.2 (hrest _)⟩⟩
  · exact ⟨_, _, encode_four h₃, hlead (by omega),
      List.forall_mem_cons.2 ⟨hrest _, List.forall_mem_cons.2 ⟨hrest _, List.forall_mem_singleton.2 (hrest _)⟩⟩⟩

/-- A text that does not start with a character does not come to do so by a byte that continues
    none, whatever follows it. -/
theorem decode?_append_eq_none {a : UInt8} {z : Text} (h : decode? (a :: z) = none)
    (hb : continuation? b = none) (w : Text) : decode? (a :: z ++ b :: w) = none := by
  have hstart : ∀ c y, a :: z ≠ encode c ++ y := by
    intro c y hy
    rw [hy, decode?_encode] at h
    cases h
  rcases hd : decode? (a :: z ++ b :: w) with _ | ⟨c, n⟩
  · rfl
  obtain ⟨r, hsplit, -⟩ := decode?_eq_some_iff.1 hd
  rcases List.append_eq_append_iff.1 hsplit with ⟨y, hc, hrest⟩ | ⟨y, hy, -⟩
  · rcases y with _ | ⟨d, y⟩
    · rw [List.append_nil] at hc
      exact absurd (by rw [hc, List.append_nil]) (hstart c [])
    · -- the character reaches over the byte, which then continues it
      obtain ⟨e, t, hencode, -, htail⟩ := exists_encode_eq_cons c
      obtain rfl : b = d := List.head_eq_of_cons_eq hrest
      have ht : t = z ++ b :: y := List.tail_eq_of_cons_eq (hencode.symm.trans hc)
      have hb' := htail b (by simp [ht])
      rw [hb] at hb'
      cases hb'
  · exact absurd hy (hstart c y)

end Rune

section
variable {c : Char} {m : Text}

theorem pieces_encode (c : Char) (r : Text) : pieces (Rune.encode c ++ r) = .char c :: pieces r := by
  obtain ⟨b, t, hencode, -⟩ := Rune.exists_encode_eq_cons c
  have hdecode := Rune.decode?_encode c r
  rw [hencode, List.cons_append] at hdecode ⊢
  rw [pieces_cons, hdecode]
  simp

/-- **A text is cut in front of every byte that continues no character.** -/
theorem pieces_append {b : UInt8} (hb : Rune.continuation? b = none) (z w : Text) :
    pieces (z ++ b :: w) = pieces z ++ pieces (b :: w) := by
  induction hn : z.length using Nat.strongRecOn generalizing z with
  | ind n ih =>
    rcases z with _ | ⟨a, z⟩
    · rfl
    rcases hd : Rune.decode? (a :: z) with _ | ⟨c, k⟩
    · have hnone := Rune.decode?_append_eq_none hd hb w
      rw [List.cons_append] at hnone ⊢
      rw [pieces_cons, pieces_cons, hd, hnone]
      simp [ih z.length (by simp [← hn]) z rfl]
    · obtain ⟨r, hsplit, -⟩ := Rune.decode?_eq_some_iff.1 hd
      have hshort : r.length < n := by
        have hpos := List.length_pos_iff.2 (Rune.encode_ne_nil c)
        rw [← hn, hsplit, List.length_append]
        omega
      rw [hsplit, List.append_assoc, pieces_encode, pieces_encode, ih r.length hshort r rfl, List.cons_append]

theorem pieces_append_encode (z : Text) (c : Char) (r : Text) :
    pieces (z ++ (Rune.encode c ++ r)) = pieces z ++ .char c :: pieces r := by
  obtain ⟨b, t, hencode, hb, -⟩ := Rune.exists_encode_eq_cons c
  have hcut := pieces_append hb z (t ++ r)
  rw [← List.cons_append, ← hencode, pieces_encode] at hcut
  exact hcut

/-- The characters around a text are pieces of their own. -/
theorem pieces_between (x y : List Char) (m : Text) :
    pieces (x.flatMap Rune.encode ++ m ++ y.flatMap Rune.encode) =
      x.map Piece.char ++ pieces m ++ y.map Piece.char := by
  have hchars : ∀ y : List Char, pieces (y.flatMap Rune.encode) = y.map Piece.char := by
    intro y
    induction y with
    | nil => rfl
    | cons c y ih => rw [List.flatMap_cons, pieces_encode, ih, List.map_cons]
  induction x with
  | nil =>
    cases y with
    | nil => simp
    | cons c y => simp [pieces_append_encode, hchars]
  | cons c x ih =>
    rw [List.append_assoc] at ih
    rw [List.flatMap_cons, List.append_assoc, List.append_assoc, pieces_encode, ih]
    rfl

theorem head?_pieces_eq_iff : (pieces m).head? = some (.char c) ↔ Rune.encode c <+: m := by
  constructor
  · intro h
    obtain ⟨ps, hps⟩ := List.head?_eq_some_iff.1 h
    refine ⟨ps.flatMap Piece.bytes, ?_⟩
    rw [← flatMap_bytes_pieces m, hps]
    rfl
  · rintro ⟨r, rfl⟩
    rw [pieces_encode, List.head?_cons]

theorem getLast?_pieces_eq_iff : (pieces m).getLast? = some (.char c) ↔ Rune.encode c <:+ m := by
  constructor
  · intro h
    obtain ⟨ps, hps⟩ := List.getLast?_eq_some_iff.1 h
    refine ⟨ps.flatMap Piece.bytes, ?_⟩
    rw [← flatMap_bytes_pieces m, hps]
    simp [Piece.bytes]
  · rintro ⟨z, rfl⟩
    have hcut := pieces_append_encode z c []
    rw [List.append_nil] at hcut
    rw [hcut]
    simp [pieces, piecesAfter]

end

/-! ## Trimming -/

/-- The text `m` is `s` without the blank characters at its ends. -/
structure Trims (s m : Text) : Prop where
  ends : ∃ x y : List Char, (∀ c ∈ x, isBlank c = true) ∧ (∀ c ∈ y, isBlank c = true) ∧
    s = x.flatMap Rune.encode ++ m ++ y.flatMap Rune.encode
  front : ∀ c, isBlank c = true → ¬ Rune.encode c <+: m
  back : ∀ c, isBlank c = true → ¬ Rune.encode c <:+ m

section
variable {α : Type} {p : α → Bool} {s m : Text}

/-- What is dropped at both ends of a list is all that has the property there. -/
theorem rdropWhile_dropWhile_between {x l y : List α} (hx : ∀ a ∈ x, p a = true) (hy : ∀ a ∈ y, p a = true)
    (hhead : ∀ a, l.head? = some a → ¬ p a = true) (hlast : ∀ a, l.getLast? = some a → ¬ p a = true) :
    ((x ++ l ++ y).dropWhile p).rdropWhile p = l := by
  rw [List.append_assoc, List.dropWhile_append_of_pos hx]
  rcases l with _ | ⟨a, l⟩
  · rw [List.nil_append, List.dropWhile_eq_nil_iff.2 hy]
    rfl
  · have hkeep : ((a :: l).reverse).dropWhile p = (a :: l).reverse := by
      rw [List.dropWhile_eq_self_iff]
      intro hpos
      apply hlast
      rw [← List.head?_reverse, List.head?_eq_getElem?, List.getElem?_eq_getElem hpos]
    have hy' : ∀ a ∈ y.reverse, p a = true := fun a ha => hy a (List.mem_reverse.1 ha)
    rw [List.cons_append, List.dropWhile_cons_of_neg (hhead a rfl), ← List.cons_append, List.rdropWhile,
      List.reverse_append, List.dropWhile_append_of_pos hy', hkeep, List.reverse_reverse]

theorem not_of_head?_rdropWhile {l : List α} {a : α} (h : ((l.dropWhile p).rdropWhile p).head? = some a) :
    ¬ p a = true := by
  obtain ⟨r, hr⟩ := List.rdropWhile_prefix p (l.dropWhile p)
  have hhead : (l.dropWhile p).head? = some a := by rw [← hr, List.head?_append, h, Option.some_or]
  have hnot := List.head?_dropWhile_not p l
  rw [hhead] at hnot
  simpa using hnot

theorem not_of_getLast?_rdropWhile {l : List α} {a : α} (h : (l.rdropWhile p).getLast? = some a) :
    ¬ p a = true := by
  obtain ⟨hne, rfl⟩ := List.mem_getLast?_eq_getLast h
  exact List.rdropWhile_last_not p l hne

theorem exists_chars_of_isBlank {ps : List Piece} (h : ∀ q ∈ ps, q.isBlank = true) :
    ∃ x : List Char, (∀ c ∈ x, isBlank c = true) ∧ ps = x.map Piece.char := by
  induction ps with
  | nil => exact ⟨[], by simp, rfl⟩
  | cons q ps ih =>
    obtain ⟨hq, hps⟩ := List.forall_mem_cons.1 h
    obtain ⟨x, hx, rfl⟩ := ih hps
    cases q with
    | char c => exact ⟨c :: x, List.forall_mem_cons.2 ⟨hq, hx⟩, rfl⟩
    | stray b => cases hq

theorem trimmed_of_trims (h : Trims s m) : trimmed s = m := by
  obtain ⟨x, y, hx, hy, rfl⟩ := h.ends
  have hx' : ∀ q ∈ x.map Piece.char, q.isBlank = true := List.forall_mem_map.2 hx
  have hy' : ∀ q ∈ y.map Piece.char, q.isBlank = true := List.forall_mem_map.2 hy
  have hcore := rdropWhile_dropWhile_between (l := pieces m) hx' hy' ?_ ?_
  · rw [← pieces_between] at hcore
    have htrimmed := congrArg (List.flatMap Piece.bytes) hcore
    rwa [flatMap_bytes_pieces] at htrimmed
  · rintro (c | b) hhead hblank
    · exact h.front c hblank (head?_pieces_eq_iff.1 hhead)
    · cases hblank
  · rintro (c | b) hlast hblank
    · exact h.back c hblank (getLast?_pieces_eq_iff.1 hlast)
    · cases hblank

theorem trims_trimmed (s : Text) : Trims s (trimmed s) := by
  let front := (pieces s).dropWhile Piece.isBlank
  let mid := front.rdropWhile Piece.isBlank
  have hfirst : ∀ q ∈ (pieces s).takeWhile Piece.isBlank, q.isBlank = true := fun _ => List.mem_takeWhile_imp
  have hlast : ∀ q ∈ front.rtakeWhile Piece.isBlank, q.isBlank = true := fun _ => List.mem_rtakeWhile_imp
  obtain ⟨x, hx, hx'⟩ := exists_chars_of_isBlank hfirst
  obtain ⟨y, hy, hy'⟩ := exists_chars_of_isBlank hlast
  have hsplit : pieces s = x.map Piece.char ++ mid ++ y.map Piece.char := by
    rw [← hx', ← hy', List.append_assoc, List.rdropWhile_append_rtakeWhile, List.takeWhile_append_dropWhile]
  have htext : s = x.flatMap Rune.encode ++ trimmed s ++ y.flatMap Rune.encode := by
    have hbytes := congrArg (List.flatMap Piece.bytes) hsplit
    rw [flatMap_bytes_pieces, List.flatMap_append, List.flatMap_append, List.flatMap_map, List.flatMap_map]
      at hbytes
    exact hbytes
  -- what is left is cut as it was cut in the whole text
  have hmid : pieces (trimmed s) = mid := by
    have hbetween := pieces_between x y (trimmed s)
    rw [← htext, hsplit] at hbetween
    exact (List.append_cancel_left (List.append_cancel_right hbetween)).symm
  refine ⟨⟨x, y, hx, hy, htext⟩, fun c hc hfront => ?_, fun c hc hback => ?_⟩
  · rw [← head?_pieces_eq_iff, hmid] at hfront
    exact not_of_head?_rdropWhile hfront hc
  · rw [← getLast?_pieces_eq_iff, hmid] at hback
    exact not_of_getLast?_rdropWhile hback hc

/-- **Trimming** takes away the blank characters at both ends, and nothing else. -/
theorem trimmed_eq_iff : trimmed s = m ↔ Trims s m :=
  ⟨fun h => h ▸ trims_trimmed s, trimmed_of_trims⟩

end

end Straightline
