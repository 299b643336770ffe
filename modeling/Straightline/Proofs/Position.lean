/-
  Places and the offsets they stand for.

  A place names a file, a line and a column.  From the start of the file, the start of the
  line and the column the offset is found again, so that nothing is lost.

  * `lineStart` finds the start of a line by its number;
  * `Position.Marks`: what a place says about an offset of a file;
  * `placeIn_marks`: the place that is computed says so, and `Marks.before`: in one file places
    come in the order of their offsets;
  * `placeAmong_inside`, `placeAmong_behind`: of several files, the one with the byte at the
    offset is found, or else the last;
  * `placesOffsets`: all this together, for every source.
-/
import Mathlib.Data.List.Induction
import Straightline.Syntax.Source

namespace Straightline

/-! ## Lines -/

/-- The start of a line, lines being counted from one: one newline ends each line before it. -/
def lineStart : (line : Nat) → Text → Nat
  | line + 2, b :: s => 1 + lineStart (if b = newline then line + 1 else line + 2) s
  | _, _ => 0

theorem lineStart_one (s : Text) : lineStart 1 s = 0 := by
  cases s <;> rfl

/-- A line starts behind the newline that ends the one before. -/
theorem lineStart_break (t s : Text) : lineStart (t.count newline + 2) (t ++ newline :: s) = t.length + 1 := by
  induction t with
  | nil => simp [lineStart, lineStart_one]
  | cons b t ih =>
    by_cases hb : b = newline
    · have hcount : (b :: t).count newline = t.count newline + 1 := by simp [hb]
      rw [hcount, List.cons_append, lineStart, if_pos hb, ih, List.length_cons, Nat.add_comm]
    · have hcount : (b :: t).count newline = t.count newline := List.count_cons_of_ne hb
      rw [hcount, List.cons_append, lineStart, if_neg hb, ih, List.length_cons, Nat.add_comm]

/-- The start of the last line of a text and the length of that line give the length of the text. -/
theorem lineStart_add_length (t s : Text) :
    lineStart (1 + t.count newline) (t ++ s) + (t.reverse.takeWhile (· != newline)).length = t.length := by
  induction t using List.reverseRecOn generalizing s with
  | nil => simp [lineStart_one]
  | append_singleton t b ih =>
    by_cases hb : b = newline
    · have hcount : 1 + (t ++ [b]).count newline = t.count newline + 2 := by
        rw [List.count_append, hb, List.count_singleton_self, Nat.add_comm]
      have hlast : (t ++ [b]).reverse.takeWhile (· != newline) = [] := by simp [hb]
      rw [hcount, hlast, List.append_assoc, List.singleton_append, hb, lineStart_break]
      simp
    · have hcount : (t ++ [b]).count newline = t.count newline := by simp [hb]
      have hlast : (t ++ [b]).reverse.takeWhile (· != newline) =
          b :: t.reverse.takeWhile (· != newline) := by simp [hb]
      rw [hcount, hlast, List.append_assoc, List.length_cons, ← Nat.add_assoc, ih, List.length_append]
      rfl

/-! ## Places in one file -/

namespace Position

/-- The place is on an earlier line, or further left on the same one. -/
def Before (p q : Position) : Prop :=
  p.line < q.line ∨ (p.line = q.line ∧ p.col < q.col)

/-- The place is that of an offset, in a file that starts at the offset `base`. -/
structure Marks (p : Position) (base : Nat) (f : SourceFile) (off : Nat) : Prop where
  file : p.file = f.name
  /-- The line is one more than the newlines of the file before the offset. -/
  line : p.line = 1 + (f.text.take (off - base)).count newline
  /-- The offset is found again: columns are counted from one. -/
  offset : base + lineStart p.line f.text + p.col = off + 1

variable {p q : Position} {base off off' : Nat} {f : SourceFile}

/-- Line and column determine the offset. -/
theorem Marks.offset_unique (hp : p.Marks base f off) (hq : q.Marks base f off') (hline : p.line = q.line)
    (hcol : p.col = q.col) : off = off' := by
  have hoff := hp.offset
  rw [hline, hcol, hq.offset] at hoff
  omega

/-- Places come in the order of their offsets. -/
theorem Marks.before (hp : p.Marks base f off) (hq : q.Marks base f off') (h : off < off') : p.Before q := by
  have hle : p.line ≤ q.line := by
    have hsub : (f.text.take (off - base)).Sublist (f.text.take (off' - base)) :=
      (List.take_prefix_take_left (by omega)).sublist
    rw [hp.line, hq.line]
    exact Nat.add_le_add_left (hsub.count_le newline) 1
  rcases Nat.lt_or_eq_of_le hle with hlt | heq
  · exact .inl hlt
  · have hoff := hp.offset
    have hoff' := hq.offset
    rw [heq] at hoff
    exact .inr ⟨heq, by omega⟩

end Position

namespace Source

variable {fs : List SourceFile} {f g : SourceFile} {i j n off : Nat}

theorem placeIn_marks (base : Nat) (hn : n ≤ f.text.length) :
    (placeIn f n).Marks base f (base + n) := by
  have hlength := lineStart_add_length (f.text.take n) (f.text.drop n)
  rw [List.take_append_drop, List.length_take, Nat.min_eq_left hn] at hlength
  refine ⟨rfl, ?_, ?_⟩
  · rw [Nat.add_sub_cancel_left]
    rfl
  · simp only [placeIn]
    omega

/-! ## Places among files -/

/-- The offset at which a file starts: the length of the text before it. -/
def base (fs : List SourceFile) (i : Nat) : Nat :=
  (joined (fs.take i)).length

/-- The byte at an offset is in the file with this index. -/
structure InFile (fs : List SourceFile) (i : Nat) (f : SourceFile) (off : Nat) : Prop where
  file : fs[i]? = some f
  le : base fs i ≤ off
  lt : off < base fs i + f.text.length

theorem joined_cons (f : SourceFile) (fs : List SourceFile) : joined (f :: fs) = f.text ++ joined fs := by
  cases fs with
  | nil => simp [joined]
  | cons g fs => rfl

theorem base_succ (f : SourceFile) (fs : List SourceFile) (i : Nat) :
    base (f :: fs) (i + 1) = f.text.length + base fs i := by
  simp [base, joined_cons]

theorem base_zero (fs : List SourceFile) : base fs 0 = 0 := rfl

/-- A file ends before those behind it start. -/
theorem base_add_length_le (hf : fs[i]? = some f) (hij : i < j) : base fs i + f.text.length ≤ base fs j := by
  induction fs generalizing i j with
  | nil => cases hf
  | cons g fs ih =>
    obtain ⟨j, rfl⟩ : ∃ k, j = k + 1 := ⟨j - 1, by omega⟩
    cases i with
    | zero =>
      cases hf
      rw [base_succ, base_zero]
      omega
    | succ i =>
      have hrest := ih hf (Nat.lt_of_succ_lt_succ hij)
      rw [base_succ, base_succ]
      omega

/-- A byte is in one file only. -/
theorem InFile.unique (hf : InFile fs i f off) (hg : InFile fs j g off) : j = i := by
  rcases Nat.lt_trichotomy i j with hij | hij | hij
  · have hend := base_add_length_le hf.file hij
    have hlt := hf.lt
    have hle := hg.le
    omega
  · exact hij.symm
  · have hend := base_add_length_le hg.file hij
    have hlt := hg.lt
    have hle := hf.le
    omega

theorem InFile.cons (h : InFile fs i f (off - g.text.length)) (hoff : g.text.length ≤ off) :
    InFile (g :: fs) (i + 1) f off := by
  have hle := h.le
  have hlt := h.lt
  exact ⟨h.file, by rw [base_succ]; omega, by rw [base_succ]; omega⟩

/-- The byte at an offset of the text is the one that the file has there. -/
theorem InFile.getElem?_joined (h : InFile fs i f off) : (joined fs)[off]? = f.text[off - base fs i]? := by
  induction fs generalizing i off with
  | nil => cases h.file
  | cons g fs ih =>
    obtain ⟨hfile, hle, hlt⟩ := h
    cases i with
    | zero =>
      obtain rfl : g = f := Option.some.inj hfile
      rw [base_zero, Nat.zero_add] at hlt
      rw [joined_cons, List.getElem?_append_left hlt, base_zero, Nat.sub_zero]
    | succ i =>
      rw [base_succ] at hle hlt
      have hrest : InFile fs i f (off - g.text.length) := ⟨hfile, by omega, by omega⟩
      rw [joined_cons, List.getElem?_append_right (by omega), ih hrest, base_succ, Nat.sub_sub]

theorem InFile.lt_length (h : InFile fs i f off) : off < (joined fs).length := by
  have hi : i < fs.length := (List.getElem?_eq_some_iff.1 h.file).1
  have hend := base_add_length_le h.file hi
  have hall : base fs fs.length = (joined fs).length := by rw [base, List.take_length]
  exact Nat.lt_of_lt_of_le h.lt (hall ▸ hend)

/-- **An offset in the text is placed in the file that has its byte.** -/
theorem placeAmong_inside (h : off < (joined fs).length) :
    ∃ i f, InFile fs i f off ∧ placeAmong fs off = placeIn f (off - base fs i) := by
  fun_induction placeAmong fs off with
  | case1 off => simp [joined] at h
  | case2 f off =>
    exact ⟨0, f, ⟨rfl, Nat.zero_le off, by simpa [base_zero, joined] using h⟩, rfl⟩
  | case3 f g rest off hlt =>
    exact ⟨0, f, ⟨rfl, Nat.zero_le off, by simpa [base_zero] using hlt⟩, rfl⟩
  | case4 f g rest off hge ih =>
    rw [joined_cons, List.length_append] at h
    obtain ⟨i, e, he, hplace⟩ := ih (by omega)
    refine ⟨i + 1, e, he.cons (by omega), ?_⟩
    rw [hplace, base_succ, Nat.sub_sub]

/-- **An offset behind the text is placed at the end of the last file.** -/
theorem placeAmong_behind (hlast : fs.getLast? = some f) (h : (joined fs).length ≤ off) :
    placeAmong fs off = placeIn f f.text.length ∧
      base fs (fs.length - 1) + f.text.length = (joined fs).length := by
  fun_induction placeAmong fs off with
  | case1 off => cases hlast
  | case2 e off =>
    obtain rfl : e = f := Option.some.inj hlast
    have hend : e.text.take off = e.text.take e.text.length := by
      rw [List.take_length]
      exact List.take_of_length_le h
    exact ⟨by simp only [placeIn, hend], Nat.zero_add _⟩
  | case3 e g rest off hlt =>
    rw [joined_cons, List.length_append] at h
    omega
  | case4 e g rest off hge ih =>
    rw [joined_cons, List.length_append] at h
    rw [List.getLast?_cons_cons] at hlast
    obtain ⟨hplace, hend⟩ := ih hlast (by omega)
    have hindex : (e :: g :: rest).length - 1 = (g :: rest).length - 1 + 1 := by simp
    refine ⟨hplace, ?_⟩
    rw [hindex, base_succ, joined_cons, List.length_append]
    omega

variable {s : Source}

/-- The place of an offset in a file marks it there. -/
theorem positionAt_marks (h : InFile s.files i f off) : (s.positionAt off).Marks (base s.files i) f off := by
  obtain ⟨j, g, hg, hplace⟩ := placeAmong_inside h.lt_length
  obtain rfl : j = i := h.unique hg
  obtain rfl : g = f := Option.some.inj (hg.file.symm.trans h.file)
  have hle := hg.le
  have hlt := hg.lt
  have hmarks := placeIn_marks (base s.files j) (show off - base s.files j ≤ g.text.length by omega)
  rw [← hplace, Nat.add_sub_of_le hle] at hmarks
  exact hmarks

/-- What the places of the offsets of a source say. -/
structure PlacesOffsets (s : Source) : Prop where
  /-- An offset in the text is in the range of one file, which has its byte; and its place marks it
      there. -/
  inside : ∀ off < s.text.length, ∃ i f p, InFile s.files i f off ∧ (∀ j g, InFile s.files j g off → j = i) ∧
    s.text[off]? = f.text[off - base s.files i]? ∧ s.position off = .ok p ∧ p.Marks (base s.files i) f off
  /-- In one file different offsets have different lines or columns, and greater ones later places. -/
  ordered : ∀ i f off off' p q, InFile s.files i f off → InFile s.files i f off' →
    s.position off = .ok p → s.position off' = .ok q →
      (off ≠ off' → (p.line, p.col) ≠ (q.line, q.col)) ∧ (off < off' → p.Before q)
  /-- Behind the text there is the end of the last file. -/
  behind : ∀ f, s.files.getLast? = some f → ∀ off ≥ s.text.length, ∃ p, s.position off = .ok p ∧
    p.Marks (base s.files (s.files.length - 1)) f s.text.length
  /-- Without files there is only the first place of a file without a name. -/
  nowhere : s.files = [] → ∀ off : Nat, s.position off = .ok ⟨[], 1, 1⟩

/-- **Places and offsets determine each other**, whatever files were added one after the other, empty
    ones included. -/
theorem placesOffsets (s : Source) : s.PlacesOffsets where
  inside := by
    intro off hoff
    obtain ⟨i, f, hin, -⟩ := placeAmong_inside hoff
    refine ⟨i, f, s.positionAt off, hin, ?_, hin.getElem?_joined, rfl, positionAt_marks hin⟩
    intro j g hg
    exact hin.unique hg
  ordered := by
    intro i f off off' p q hp hq hoff hoff'
    obtain rfl : s.positionAt off = p := Except.ok.inj hoff
    obtain rfl : s.positionAt off' = q := Except.ok.inj hoff'
    have hp := positionAt_marks hp
    have hq := positionAt_marks hq
    refine ⟨?_, hp.before hq⟩
    intro hne hsame
    exact hne (hp.offset_unique hq (congrArg Prod.fst hsame) (congrArg Prod.snd hsame))
  behind := by
    intro f hlast off hoff
    obtain ⟨hplace, hend⟩ := placeAmong_behind hlast hoff
    refine ⟨s.positionAt off, rfl, ?_⟩
    rw [positionAt, hplace, text, ← hend]
    exact placeIn_marks _ (Nat.le_refl _)
  nowhere := by
    intro hnone off
    show Except.ok (placeAmong s.files off) = _
    rw [hnone]
    rfl

-- an empty file between two others has no offset of its own
example : (Source.mk [⟨[97], [120, 10]⟩, ⟨[98], []⟩, ⟨[99], [121, 10, 122]⟩]).position 4 = .ok ⟨[99], 2, 1⟩ := by
  decide

end Source

end Straightline
