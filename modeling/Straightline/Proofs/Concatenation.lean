/-
  Texts one behind the other.

  The parts of a derivation look at what follows them.  If a text ends with a newline, what
  they look at is in the text, so that nothing changes when another text is put behind it;
  except that the blanks at its end go on with the blanks in front of the other one.

  * `Part.Stable`: a part stays one when more follows, the text up to there having ended
    with a newline;
  * `Part.Extends`: a part at the end of a text takes more blanks along, which holds of
    lines and blocks (`line_extends`, `block_extends`);
  * `File.Derives.append`: so the derivations of two texts make one of both;
  * `load_append`: hence the blocks of two texts are those of both in a row, and so are
    their outputs (`allocateText_append`), the second text being allocated after the first
    by the same spiller; this makes a difference if the spiller remembers what it was
    asked (`not_allocateText_append`).
-/
import Mathlib
import Straightline.Proofs.Errors
import Straightline.Proofs.RegisterListing
import Straightline.Proofs.Wording

namespace Straightline

/-! ## Ends of texts -/

/-- The text ends with a newline. -/
def Terminated (s : Text) : Prop :=
  ∃ z, s = z ++ [newline]

section
variable {x y s : Text}

theorem Terminated.append (x : Text) (h : Terminated y) : Terminated (x ++ y) := by
  obtain ⟨z, rfl⟩ := h
  exact ⟨x ++ z, by rw [List.append_assoc]⟩

theorem Terminated.mem (h : Terminated s) : newline ∈ s := by
  obtain ⟨z, rfl⟩ := h
  simp

theorem Terminated.ne_nil (h : Terminated s) : s ≠ [] :=
  List.ne_nil_of_mem h.mem

theorem Terminated.right (h : Terminated (x ++ y)) (hy : y ≠ []) : Terminated y := by
  obtain ⟨z, hz⟩ := h
  obtain ⟨y', b, rfl⟩ := (List.eq_nil_or_concat' y).resolve_left hy
  rw [← List.append_assoc] at hz
  obtain ⟨-, hb⟩ := List.append_inj' hz rfl
  exact ⟨y', by rw [hb]⟩

theorem Terminated.nil_or (h : Terminated (x ++ y)) : y = [] ∨ Terminated y :=
  or_iff_not_imp_left.2 h.right

/-- What does not end with a newline is not all of a text that does. -/
theorem Terminated.of_not (h : Terminated (x ++ y)) (hx : ¬ Terminated x) : Terminated y := by
  refine h.right fun hy => hx ?_
  rwa [hy, List.append_nil] at h

end

namespace Lexical

open Token (EndsWord)

variable {x y r w s : Text}

theorem endsWord_append (h : EndsWord r) (hr : r ≠ []) (t : Text) : EndsWord (r ++ t) := by
  rw [EndsWord, List.head?_append_of_ne_nil r hr]
  exact h

theorem wordEnds_append (hr : r ≠ []) (t : Text) : WordEnds (r ++ t) ↔ WordEnds r := by
  rw [WordEnds, WordEnds, List.head?_append_of_ne_nil r hr]

/-- Whether a word stands at the front of a text does not depend on what comes behind a
    newline. -/
theorem Opens.of_append {t : Text} (h : Opens w (s ++ t)) (hw : newline ∉ w) (hs : newline ∈ s) :
    Opens w s := by
  obtain ⟨r, hr, hend⟩ := h
  rcases List.append_eq_append_iff.1 hr with ⟨z, rfl, -⟩ | ⟨z, rfl, rfl⟩
  · exact absurd (List.mem_append_left z hs) hw
  · have hz : z ≠ [] := by
      rintro rfl
      rw [List.append_nil] at hs
      exact hw hs
    exact ⟨z, rfl, (wordEnds_append hz t).1 hend⟩

/-- The end of a line that is not the end of the text has a newline, so anything may follow. -/
theorem LineEnd.of_terminated (h : LineEnd x r) (hend : Terminated (x ++ r)) (r' : Text) : LineEnd x r' := by
  obtain ⟨blanks, comment, stop, rfl, hblanks, hcomment, rfl | ⟨rfl, rfl⟩⟩ := h
  · exact ⟨blanks, comment, [newline], rfl, hblanks, hcomment, .inl rfl⟩
  · have hmem := hend.mem
    simp only [List.append_nil, List.mem_append] at hmem
    have hne : ¬ (newline = 32 ∨ newline = 9 ∨ newline = 13) ∧ newline ≠ commentMark := by decide
    rcases hmem with hmem | hmem
    · exact absurd (hblanks _ hmem) hne.1
    · rcases hcomment with rfl | ⟨y, rfl, hy⟩
      · cases hmem
      · exact absurd rfl (hy newline ((List.mem_cons.1 hmem).resolve_left hne.2))

/-! Blanks. -/

/-- Blanks end with a byte, or they go on behind it, whatever follows. -/
theorem blankCount_cons (c : Bool) (b : UInt8) : (∀ s, blankCount c (b :: s) = 0) ∨
    ∃ c', ∀ s, blankCount c (b :: s) = 1 + blankCount c' s := by
  cases c with
  | true => exact .inr ⟨_, fun s => rfl⟩
  | false =>
    by_cases hb : Spaces.all.contains b = true
    · exact .inr ⟨false, fun s => by rw [blankCount, if_pos hb]⟩
    by_cases hmark : b = commentMark
    · exact .inr ⟨true, fun s => by rw [blankCount, if_neg hb, if_pos hmark]⟩
    · exact .inl fun s => by rw [blankCount, if_neg hb, if_neg hmark]

theorem blankCount_append_of_lt {c : Bool} (h : blankCount c s < s.length) (t : Text) :
    blankCount c (s ++ t) = blankCount c s := by
  induction s generalizing c with
  | nil => cases h
  | cons b s ih =>
    rcases blankCount_cons c b with hstop | ⟨c', hgo⟩
    · rw [List.cons_append, hstop, hstop]
    · rw [hgo, List.length_cons] at h
      rw [List.cons_append, hgo, hgo, ih (by omega)]

/-- No comment goes on behind a newline. -/
theorem blankCount_newline {c : Bool} {z : Text} (h : blankCount c (z ++ [newline]) = z.length + 1)
    (s : Text) : blankCount c (z ++ newline :: s) = z.length + 1 + blankCount false s := by
  induction z generalizing c with
  | nil =>
    cases c with
    | true => rfl
    | false => exact if_pos (show Spaces.all.contains newline = true by decide)
  | cons b z ih =>
    rw [List.cons_append, List.length_cons] at h
    rcases blankCount_cons c b with hstop | ⟨c', hgo⟩
    · rw [hstop] at h
      omega
    · rw [hgo] at h
      rw [List.cons_append, hgo, ih (by omega), List.length_cons]
      omega

theorem blank_append (h : Longest BlankRun x r) (hr : r ≠ []) (t : Text) : Longest BlankRun x (r ++ t) := by
  rw [blank_iff] at h ⊢
  have hlt : blankCount false (x ++ r) < (x ++ r).length := by
    have hpos := List.length_pos_iff.2 hr
    rw [h, List.length_append]
    omega
  rw [← List.append_assoc, blankCount_append_of_lt hlt, h]

/-- The blanks at the end of a text go on with those behind it. -/
theorem blank_extend (h : Longest BlankRun x []) (hend : x = [] ∨ Terminated x) (hy : Longest BlankRun y r) :
    Longest BlankRun (x ++ y) r := by
  rcases hend with rfl | ⟨z, rfl⟩
  · exact hy
  · rw [blank_iff] at h hy ⊢
    rw [List.append_nil, List.length_append] at h
    have hcount := blankCount_newline h (y ++ r)
    rw [hy] at hcount
    rw [List.length_append, List.length_append, List.append_assoc, List.append_assoc]
    exact hcount

end Lexical

namespace Derivation

open Lexical
open Program (blockWord)

/-! ## Parts that end with no newline -/

/-- The texts of the part are not empty, and do not end with a newline. -/
def Part.Shut {α β : Type} (P : Part α β) : Prop :=
  ∀ ⦃a r⦄, P.At a r → P.text a ≠ [] ∧ ¬ Terminated (P.text a)

section
variable {α β : Type} {P : Part α β}

theorem Part.Shut.append (hP : P.Shut) {a : α} {r : Text} (h : P.At a r) (x : Text) :
    ¬ Terminated (x ++ P.text a) :=
  fun hend => (hP h).2 (hend.right (hP h).1)

theorem Part.Shut.gapped (hP : P.Shut) : P.gapped.Shut := by
  rintro ⟨gap, a⟩ r ⟨-, h⟩
  exact ⟨List.append_ne_nil_of_right_ne_nil gap (hP h).1, hP.append h gap⟩

theorem Part.Shut.listAt (hP : P.Shut) {as : List α} {r x : Text} (h : P.ListAt as r) (hx : ¬ Terminated x) :
    ¬ Terminated (x ++ P.listText as) := by
  induction as generalizing x with
  | nil => rwa [listText_nil, List.append_nil]
  | cons a as ih =>
    rw [listText_cons, ← List.append_assoc]
    exact ih h.2 (hP.append h.1 x)

end

theorem newline_not_mem_ident {x : Text} (h : Token.IsIdent x) : newline ∉ x := by
  intro hmem
  rcases Token.byte_of_isIdent h newline hmem with hbyte | hbyte
  · revert hbyte
    decide
  · revert hbyte
    decide

theorem ident_shut : ident.Shut := by
  intro x r h
  obtain ⟨hident, -⟩ := ident_iff.1 h
  obtain ⟨b, z, hz, -⟩ := ident_begins h
  exact ⟨hz ▸ List.cons_ne_nil b z, fun hend => newline_not_mem_ident hident hend.mem⟩

theorem newline_not_mem_int {x : Text} (h : IsInt x) : newline ∉ x := by
  obtain ⟨sign, d, y, rfl, hsign, hd, hy⟩ := h
  intro hmem
  rw [List.mem_append, List.mem_cons] at hmem
  rcases hmem with hmem | hmem | hmem
  · rcases hsign with rfl | rfl | rfl <;> revert hmem <;> decide
  · rw [← hmem] at hd
    revert hd
    decide
  · have hbyte := hy newline hmem
    revert hbyte
    decide

theorem arg_shut : arg.Shut := by
  intro a r h
  obtain ⟨b, z, hz, -⟩ := arg_begins h
  refine ⟨hz ▸ List.cons_ne_nil b z, fun hend => ?_⟩
  cases a with
  | ident x => exact (ident_shut h).2 hend
  | int x => exact newline_not_mem_int h.mem hend.mem
  | string x =>
    obtain ⟨y, rfl, -⟩ := h.mem
    have hlast : Terminated [Quoted.quote] := by
      rw [← List.singleton_append, ← List.append_assoc] at hend
      exact hend.right (List.cons_ne_nil _ _)
    have hquote := List.mem_singleton.1 hlast.mem
    revert hquote
    decide

theorem operator_shut : operator.Shut := by
  refine Part.Shut.gapped fun g r h => ?_
  exact ⟨List.append_ne_nil_of_right_ne_nil _ (ident_shut.gapped h).1, ident_shut.gapped.append h equals⟩

/-- None of the three words has a newline. -/
theorem newline_not_mem : ∀ w ∈ [blockWord, liveWord, outWord], newline ∉ w := by
  decide +kernel

theorem stmt_not_terminated {st : Stmt} {r : Text} (h : stmt.At st r) : ¬ Terminated (stmt.text st) := by
  have hword : ∀ w ∈ [blockWord, liveWord, outWord], ¬ Terminated w :=
    fun w hw hend => newline_not_mem w hw hend.mem
  rcases st with ns | ns | ⟨head, op, as⟩
  · exact ident_shut.gapped.listAt h.2 (hword liveWord (by simp))
  · exact ident_shut.gapped.listAt h.2 (hword outWord (by simp))
  · obtain ⟨-, hhead, hop, has⟩ := h
    have hfront : ¬ Terminated (head ++ operatorText op) := by
      rcases op with _ | g
      · rw [show operatorText none = [] from rfl, List.append_nil]
        exact (ident_shut hhead).2
      · exact operator_shut.append (hop g rfl) head
    have hall := arg_shut.gapped.listAt has hfront
    rwa [List.append_assoc] at hall

/-! ## Parts with more behind them -/

/-- The part stays one if more follows, as what followed ended with a newline. -/
def Part.Stable {α β : Type} (P : Part α β) : Prop :=
  ∀ ⦃a r⦄, P.At a r → Terminated r → ∀ t, P.At a (r ++ t)

section
variable {α β : Type} {P : Part α β}

theorem Part.Stable.gapped (hP : P.Stable) : P.gapped.Stable :=
  fun _ _ h hr t => ⟨h.1, hP h.2 hr t⟩

theorem Part.Stable.list (hP : P.Stable) : P.list.Stable := by
  intro as r h hr t
  change P.ListAt as (r ++ t)
  induction as with
  | nil => trivial
  | cons a as ih =>
    refine ⟨?_, ih h.2⟩
    rw [← List.append_assoc]
    exact hP h.1 (hr.append _) t

end

theorem ident_stable : ident.Stable := by
  intro x r h hr t
  obtain ⟨hident, hends⟩ := ident_iff.1 h
  exact ident_iff.2 ⟨hident, endsWord_append hends hr.ne_nil t⟩

theorem arg_stable : arg.Stable := by
  intro a r h hr t
  cases a with
  | ident x => exact ident_stable h hr t
  | int x =>
    obtain ⟨hint, hends⟩ := int_iff.1 h
    exact int_iff.2 ⟨hint, (wordEnds_append hr.ne_nil t).2 hends⟩
  | string x => exact string_iff.2 (string_iff.1 h)

theorem names_stable : names.Stable :=
  ident_stable.gapped.list

theorem args_stable : args.Stable :=
  arg_stable.gapped.list

theorem directive_stable (word : Text) : (directive word).Stable := by
  intro ns r h hr t
  refine ⟨?_, names_stable h.2 hr t⟩
  rw [← List.append_assoc, wordEnds_append (hr.append _).ne_nil]
  exact h.1

theorem operator_stable : operator.Stable :=
  Part.Stable.gapped fun _ _ h hr t => ident_stable.gapped h hr t

theorem instr_stable : instr.Stable := by
  rintro ⟨head, op, as⟩ r ⟨hhead, hop, has⟩ hr t
  have hargs : Terminated (args.text as ++ r) := hr.append _
  refine ⟨?_, fun g hg => ?_, args_stable has hr t⟩
  · have h := ident_stable hhead (hargs.append _) t
    rwa [List.append_assoc, List.append_assoc] at h
  · have h := operator_stable (hop g hg) hargs t
    rwa [List.append_assoc] at h

theorem stmt_stable : stmt.Stable := by
  intro st r h hr t
  cases st with
  | live ns => exact directive_stable liveWord h hr t
  | out ns => exact directive_stable outWord h hr t
  | instr i =>
    refine ⟨fun w hw hopens => h.1 w hw ?_, instr_stable h.2 hr t⟩
    rw [← List.append_assoc] at hopens
    exact hopens.of_append (newline_not_mem w hw) (hr.append _).mem

theorem line_stable : line.Stable := by
  rintro ⟨st, stop, blank⟩ r ⟨hst, hstop, hblank⟩ hr t
  have hend : Terminated (stop ++ (blank ++ r)) := (hr.append _).append _
  refine ⟨?_, hstop.of_terminated hend _, blank_append hblank hr.ne_nil t⟩
  have h := stmt_stable hst hend t
  rwa [List.append_assoc, List.append_assoc] at h

/-- The header of a block stays one with more behind it. -/
theorem header_stable {gap name stop s : Text} (hword : WordEnds (gap ++ (name ++ (stop ++ s))))
    (hname : Ident name (stop ++ s)) (hstop : LineEnd stop s) (hend : Terminated (stop ++ s)) (t : Text) :
    WordEnds (gap ++ (name ++ (stop ++ (s ++ t)))) ∧ Ident name (stop ++ (s ++ t)) ∧ LineEnd stop (s ++ t) := by
  refine ⟨?_, ?_, hstop.of_terminated hend _⟩
  · rw [← wordEnds_append ((hend.append _).append _).ne_nil t] at hword
    simpa using hword
  · have h := ident_stable hname hend t
    rwa [List.append_assoc] at h

theorem block_stable : block.Stable := by
  rintro ⟨gap, name, stop, blank, ls⟩ r ⟨hword, hgap, hname, hstop, hblank, hls⟩ hr t
  have hlines : Terminated (line.listText ls ++ r) := hr.append _
  obtain ⟨hword', hname', hstop'⟩ := header_stable hword hname hstop ((hlines.append _).append _) t
  rw [List.append_assoc, List.append_assoc] at hword' hname' hstop'
  have hblank' := blank_append hblank hlines.ne_nil t
  rw [List.append_assoc] at hblank'
  exact ⟨hword', hgap, hname', hstop', hblank', line_stable.list hls hr t⟩

/-! ## Parts with more blanks at the end -/

/-- At the end of a text, the part takes the blanks `x` along that stand before `s`, and has
    the same words. -/
def Part.Extends {α β γ : Type} (P : Part α β) (words : α → γ) (x s : Text) : Prop :=
  ∀ ⦃a⦄, P.At a [] → Terminated (P.text a) → ∃ a', P.text a' = P.text a ++ x ∧ P.At a' s ∧ words a' = words a

section
variable {α β γ : Type} {P : Part α β} {words : α → γ} {x s : Text}

/-- The last of several parts takes the blanks along. -/
theorem Part.Extends.cons (hE : P.Extends words x s) (hP : P.Stable)
    (hne : ∀ ⦃a r⦄, P.At a r → P.text a ≠ []) {a : α} {as : List α} (h : P.ListAt (a :: as) [])
    (hend : Terminated (P.listText (a :: as))) : ∃ as', P.listText as' = P.listText (a :: as) ++ x ∧
      P.ListAt as' s ∧ as'.map words = (a :: as).map words := by
  induction as generalizing a with
  | nil =>
    rw [listText_cons, listText_nil, List.append_nil] at hend
    obtain ⟨a', htext, hat, hwords⟩ := hE h.1 hend
    exact ⟨[a'], by simp [htext], ⟨hat, trivial⟩, by simp [hwords]⟩
  | cons b bs ih =>
    rw [listText_cons] at hend
    have hbs : Terminated (P.listText (b :: bs)) := by
      refine hend.right ?_
      rw [listText_cons]
      exact List.append_ne_nil_of_left_ne_nil (hne h.2.1) _
    obtain ⟨bs', htext, hat, hwords⟩ := ih h.2 hbs
    have ha := h.1
    rw [List.append_nil] at ha
    have ha' := hP ha hbs (x ++ s)
    rw [← List.append_assoc, ← htext] at ha'
    refine ⟨a :: bs', ?_, ⟨ha', hat⟩, ?_⟩
    · rw [listText_cons, htext, listText_cons P a, List.append_assoc]
    · rw [List.map_cons, hwords, List.map_cons (a := a)]

/-- Blanks and parts behind them, at the end of a text, take the blanks along. -/
theorem Part.Extends.list (hE : P.Extends words x s) (hP : P.Stable)
    (hne : ∀ ⦃a r⦄, P.At a r → P.text a ≠ []) (hx : Longest BlankRun x s) {blank : Text} {as : List α}
    (hblank : Longest BlankRun blank (P.listText as)) (has : P.ListAt as [])
    (hend : blank ++ P.listText as = [] ∨ Terminated (blank ++ P.listText as)) :
    ∃ blank' as', blank' ++ P.listText as' = blank ++ P.listText as ++ x ∧
      Longest BlankRun blank' (P.listText as' ++ s) ∧ P.ListAt as' s ∧ as'.map words = as.map words := by
  rcases as with _ | ⟨a, as⟩
  · rw [listText_nil, List.append_nil] at hend
    exact ⟨blank ++ x, [], by simp, blank_extend hblank hend hx, trivial, rfl⟩
  · have htext : P.listText (a :: as) ≠ [] := by
      rw [listText_cons]
      exact List.append_ne_nil_of_left_ne_nil (hne has.1) _
    have hended := (hend.resolve_left (List.append_ne_nil_of_right_ne_nil _ htext)).right htext
    obtain ⟨as', htext', has', hwords⟩ := hE.cons hP hne has hended
    refine ⟨blank, as', by rw [htext', List.append_assoc], ?_, has', hwords⟩
    rw [htext', List.append_assoc]
    exact blank_append hblank htext (x ++ s)

end

theorem line_ne_nil ⦃l : Line⦄ ⦃r : Text⦄ (h : line.At l r) : line.text l ≠ [] :=
  List.append_ne_nil_of_left_ne_nil (stmt_text_ne_nil h.1) _

theorem block_ne_nil ⦃b : Block⦄ ⦃r : Text⦄ (_ : block.At b r) : block.text b ≠ [] := by
  have hword : blockWord ≠ [] := by decide +kernel
  exact List.append_ne_nil_of_left_ne_nil (List.append_ne_nil_of_left_ne_nil hword _) _

section
variable {x s : Text} (hx : Longest BlankRun x s)
include hx

theorem line_extends : line.Extends (·.stmt.words) x s := by
  rintro ⟨st, stop, blank⟩ ⟨hst, hstop, hblank⟩ hend
  have hstops : Terminated (stop ++ blank) := hend.of_not (stmt_not_terminated hst)
  rw [List.append_nil] at hst hstop
  refine ⟨⟨st, stop, blank ++ x⟩, by simp [line], ⟨?_, hstop.of_terminated hstops _, ?_⟩, rfl⟩
  · have h := stmt_stable hst hstops (x ++ s)
    simpa using h
  · exact blank_extend hblank hstops.nil_or hx

theorem block_extends : block.Extends Block.words x s := by
  rintro ⟨gap, name, stop, blank, ls⟩ ⟨hword, hgap, hname, hstop, hblank, hls⟩ hend
  -- the header and the name in it do not end with a newline, so the line does
  have hopen : ¬ Terminated (blockWord ++ (gap ++ name)) := by
    rw [← List.append_assoc]
    exact ident_shut.append hname _
  have hinside : Terminated (stop ++ (blank ++ line.listText ls)) := by
    refine Terminated.of_not ?_ hopen
    simpa [block, Block.header] using hend
  rw [List.append_nil] at hword hname hstop hblank
  obtain ⟨blank', ls', htext, hblank', hls', hwords⟩ :=
    (line_extends hx).list line_stable line_ne_nil hx hblank hls hinside.nil_or
  obtain ⟨hword', hname', hstop'⟩ := header_stable hword hname hstop hinside (x ++ s)
  rw [← List.append_assoc _ x s, ← htext, List.append_assoc] at hword' hname' hstop'
  refine ⟨⟨gap, name, stop, blank', ls'⟩, ?_, ⟨hword', hgap, hname', hstop', hblank', hls'⟩, ?_⟩
  · simp [block, Block.header, htext]
  · simp [Block.words, hwords]

end

theorem Part.listAt_append {α β : Type} (P : Part α β) {as bs : List α} {r : Text}
    (has : P.ListAt as (P.listText bs ++ r)) (hbs : P.ListAt bs r) : P.ListAt (as ++ bs) r := by
  induction as with
  | nil => exact hbs
  | cons a as ih =>
    refine ⟨?_, ih has.2⟩
    have ha := has.1
    rwa [← List.append_assoc, listText, listText, ← List.flatMap_append] at ha

/-- **Derivations of two texts make one of both**, with the words of the first and then those
    of the second. -/
theorem File.Derives.append {f₁ f₂ : File} {t₁ t₂ : Text} (h₁ : f₁.Derives t₁) (h₂ : f₂.Derives t₂)
    (hend : Terminated t₁) : ∃ f : File, f.Derives (t₁ ++ t₂) ∧ f.words = f₁.words ++ f₂.words := by
  have hended : Terminated f₁.text := h₁.text ▸ hend
  obtain ⟨blank, bs, htext, hblank, hbs, hwords⟩ := (block_extends h₂.blank).list block_stable block_ne_nil
    h₂.blank h₁.blank h₁.blocks (.inr hended)
  have hall : block.listText (bs ++ f₂.blocks) = block.listText bs ++ block.listText f₂.blocks :=
    List.flatMap_append
  refine ⟨⟨blank, bs ++ f₂.blocks⟩, ⟨?_, ?_, ?_⟩, ?_⟩
  · rw [File.text, hall, ← List.append_assoc, htext, h₁.text, h₂.text, List.append_assoc]
    rfl
  · rw [hall]
    exact hblank
  · refine block.listAt_append ?_ h₂.blocks
    rwa [List.append_nil]
  · rw [File.words, List.map_append, hwords]
    rfl

end Derivation

/-! ## Loading and allocating -/

theorem intercalate_append {sep : Text} {xs ys : List Text} (hxs : xs ≠ []) (hys : ys ≠ []) :
    sep.intercalate (xs ++ ys) = sep.intercalate xs ++ (sep ++ sep.intercalate ys) := by
  induction xs with
  | nil => exact absurd rfl hxs
  | cons x xs ih =>
    rcases xs with _ | ⟨x', xs⟩
    · rw [List.singleton_append, List.intercalate_cons_of_ne_nil hys, List.intercalate_singleton,
        List.append_assoc]
    · rw [List.cons_append, List.intercalate_cons_of_ne_nil (by simp), ih (by simp), List.intercalate_cons_cons]
      simp only [List.append_assoc]

section
variable {n₁ n₂ t₁ t₂ : Text} {bs₁ bs₂ : List LoweredBlock}

/-- **What is loaded from two texts is loaded from both in a row**, if the first one ends with
    a newline and no block of the one has the name of a block of the other. -/
theorem load_append (h₁ : load n₁ t₁ = .ok bs₁) (h₂ : load n₂ t₂ = .ok bs₂) (hend : Terminated t₁)
    (hnames : ∀ b₁ ∈ bs₁, ∀ b₂ ∈ bs₂, b₁.block.name ≠ b₂.block.name) (name : Text) :
    load name (t₁ ++ t₂) = .ok (bs₁ ++ bs₂) := by
  obtain ⟨f₁, hf₁, hnodup₁, hloads₁⟩ := load_eq_ok_iff.1 h₁
  obtain ⟨f₂, hf₂, hnodup₂, hloads₂⟩ := load_eq_ok_iff.1 h₂
  obtain ⟨f, hf, hwords⟩ := hf₁.append hf₂ hend
  refine load_eq_ok_iff.2 ⟨f, hf, ?_, ?_⟩
  · rw [hwords, List.map_append, List.nodup_append]
    refine ⟨hnodup₁, hnodup₂, ?_⟩
    rw [names_of_loads hloads₁, names_of_loads hloads₂]
    intro x₁ hx₁ x₂ hx₂
    obtain ⟨b₁, hb₁, rfl⟩ := List.mem_map.1 hx₁
    obtain ⟨b₂, hb₂, rfl⟩ := List.mem_map.1 hx₂
    exact hnames b₁ hb₁ b₂ hb₂
  · rw [hwords]
    exact List.rel_append hloads₁ hloads₂

section
variable {cfg : TextConfig} {requests between last : List SpillRequest} {outs outs₁ outs₂ : List Text}

theorem allocateBlocks_cons_eq_ok_iff {b : LoweredBlock} {bs : List LoweredBlock} :
    allocateBlocks cfg requests (b :: bs) = ⟨last, .ok outs⟩ ↔
    ∃ next a rest, allocateAfter (cfg.forBlock b.block) requests b.block = ⟨next, .ok a⟩ ∧
      allocateBlocks cfg next bs = ⟨last, .ok rest⟩ ∧ outs = cfg.render b.block a :: rest := by
  rw [allocateBlocks]
  rcases allocateAfter (cfg.forBlock b.block) requests b.block with ⟨next, e | a⟩
  · simp
  · rcases hrest : allocateBlocks cfg next bs with ⟨last', e | rest⟩
    · simp [hrest, Except.map]
    · simp [hrest, Except.map, eq_comm]

/-- Blocks in a row: those of the second list come after the requests for the first. -/
theorem allocateBlocks_append (h₁ : allocateBlocks cfg requests bs₁ = ⟨between, .ok outs₁⟩)
    (h₂ : allocateBlocks cfg between bs₂ = ⟨last, .ok outs₂⟩) :
    allocateBlocks cfg requests (bs₁ ++ bs₂) = ⟨last, .ok (outs₁ ++ outs₂)⟩ := by
  induction bs₁ generalizing requests outs₁ with
  | nil =>
    cases h₁
    exact h₂
  | cons b bs₁ ih =>
    obtain ⟨next, a, rest, hb, hrest, rfl⟩ := allocateBlocks_cons_eq_ok_iff.1 h₁
    exact allocateBlocks_cons_eq_ok_iff.2 ⟨next, a, rest ++ outs₂, hb, ih hrest, rfl⟩

theorem length_of_allocateBlocks (h : allocateBlocks cfg requests bs₁ = ⟨last, .ok outs⟩) :
    outs.length = bs₁.length := by
  induction bs₁ generalizing requests outs with
  | nil =>
    cases h
    rfl
  | cons b bs₁ ih =>
    obtain ⟨next, a, rest, -, hrest, rfl⟩ := allocateBlocks_cons_eq_ok_iff.1 h
    rw [List.length_cons, List.length_cons, ih hrest]

/-- Two texts in a row, the second one with the spiller as the first one left it. -/
theorem allocateTextAfter_append {name out₁ out₂ : Text} (h₁ : load n₁ t₁ = .ok bs₁) (h₂ : load n₂ t₂ = .ok bs₂)
    (hload : load name (t₁ ++ t₂) = .ok (bs₁ ++ bs₂)) (hne₁ : bs₁ ≠ []) (hne₂ : bs₂ ≠ [])
    (hrun₁ : allocateTextAfter cfg requests n₁ t₁ = ⟨between, .ok out₁⟩)
    (hrun₂ : allocateTextAfter cfg between n₂ t₂ = ⟨last, .ok out₂⟩) :
    allocateTextAfter cfg requests name (t₁ ++ t₂) = ⟨last, .ok (out₁ ++ newline :: out₂)⟩ := by
  obtain ⟨outs₁, houts₁, rfl⟩ := (allocateTextAfter_eq_ok_iff h₁).1 hrun₁
  obtain ⟨outs₂, houts₂, rfl⟩ := (allocateTextAfter_eq_ok_iff h₂).1 hrun₂
  refine (allocateTextAfter_eq_ok_iff hload).2 ⟨_, allocateBlocks_append houts₁ houts₂, ?_⟩
  rw [← List.length_pos_iff, ← length_of_allocateBlocks houts₁, List.length_pos_iff] at hne₁
  rw [← List.length_pos_iff, ← length_of_allocateBlocks houts₂, List.length_pos_iff] at hne₂
  rw [intercalate_append hne₁ hne₂]
  rfl

end

/-- **Texts one behind the other are allocated one behind the other**: their blocks are those
    of the first and then those of the second, and so are the outputs, with a newline in
    between if there are blocks in both. The spiller comes to the second text as it left
    the first, which makes no difference if it remembers nothing. -/
theorem allocateText_append (h₁ : load n₁ t₁ = .ok bs₁) (h₂ : load n₂ t₂ = .ok bs₂) (hend : Terminated t₁)
    (hnames : ∀ b₁ ∈ bs₁, ∀ b₂ ∈ bs₂, b₁.block.name ≠ b₂.block.name) (name : Text) :
    load name (t₁ ++ t₂) = .ok (bs₁ ++ bs₂) ∧
    ∀ cfg out₁ out₂, bs₁ ≠ [] → bs₂ ≠ [] →
      (∀ requests between last, allocateTextAfter cfg requests n₁ t₁ = ⟨between, .ok out₁⟩ →
        allocateTextAfter cfg between n₂ t₂ = ⟨last, .ok out₂⟩ →
        allocateTextAfter cfg requests name (t₁ ++ t₂) = ⟨last, .ok (out₁ ++ newline :: out₂)⟩) ∧
      ((∀ spiller ∈ cfg.spiller, spiller.Memoryless) → (allocateText cfg n₁ t₁).result = .ok out₁ →
        (allocateText cfg n₂ t₂).result = .ok out₂ →
        (allocateText cfg name (t₁ ++ t₂)).result = .ok (out₁ ++ newline :: out₂)) := by
  have hload := load_append h₁ h₂ hend hnames name
  refine ⟨hload, ?_⟩
  intro cfg out₁ out₂ hne₁ hne₂
  refine ⟨fun _ _ _ => allocateTextAfter_append h₁ h₂ hload hne₁ hne₂, ?_⟩
  intro hspill hout₁ hout₂
  rcases hrun₁ : allocateText cfg n₁ t₁ with ⟨between, r₁⟩
  rw [hrun₁] at hout₁
  obtain rfl : r₁ = .ok out₁ := hout₁
  rw [allocateText, result_allocateTextAfter hspill [] between] at hout₂
  rcases hrun₂ : allocateTextAfter cfg between n₂ t₂ with ⟨last, r₂⟩
  rw [hrun₂] at hout₂
  obtain rfl : r₂ = .ok out₂ := hout₂
  rw [allocateText, allocateTextAfter_append h₁ h₂ hload hne₁ hne₂ hrun₁ hrun₂]

end

/-- Blocks of two texts that have one block each. -/
theorem distinct_of_names {bs₁ bs₂ : List LoweredBlock} {x₁ x₂ : Text} (h₁ : bs₁.map (·.block.name) = [x₁])
    (h₂ : bs₂.map (·.block.name) = [x₂]) (hne : x₁ ≠ x₂) :
    ∀ b₁ ∈ bs₁, ∀ b₂ ∈ bs₂, b₁.block.name ≠ b₂.block.name := by
  intro b₁ hb₁ b₂ hb₂
  have hb₁ := List.mem_map_of_mem (f := (·.block.name)) hb₁
  have hb₂ := List.mem_map_of_mem (f := (·.block.name)) hb₂
  rw [h₁, List.mem_singleton] at hb₁
  rw [h₂, List.mem_singleton] at hb₂
  rwa [hb₁, hb₂]

theorem ne_nil_of_names {bs : List LoweredBlock} {x : Text} (h : bs.map (·.block.name) = [x]) : bs ≠ [] := by
  rintro rfl
  cases h

/-- A text with a comment at its end. -/
def firstText : Text := utf8 "block a\n\tx = imm4 1\n# end\n"

/-- A text with blanks in front. -/
def secondText : Text := utf8 "\t\nblock b\n\ty = imm4 2\n"

theorem allocateText_append_first_second : ∃ bs₁ bs₂, load (utf8 "a.tac") firstText = .ok bs₁ ∧
    load (utf8 "b.tac") secondText = .ok bs₂ ∧
    load (utf8 "c.tac") (firstText ++ secondText) = .ok (bs₁ ++ bs₂) ∧
    (allocateText twoRegisters (utf8 "c.tac") (firstText ++ secondText)).result =
      .ok (utf8 "block a\n\tr0 = imm4 1\n" ++ newline :: utf8 "block b\n\tr0 = imm4 2\n") := by
  have hnames₁ : (load (utf8 "a.tac") firstText).toOption.map (List.map (·.block.name)) =
      some [utf8 "a"] := by cbv
  have hnames₂ : (load (utf8 "b.tac") secondText).toOption.map (List.map (·.block.name)) =
      some [utf8 "b"] := by cbv
  have hout₁ : (allocateText twoRegisters (utf8 "a.tac") firstText).result =
      .ok (utf8 "block a\n\tr0 = imm4 1\n") := by cbv
  have hout₂ : (allocateText twoRegisters (utf8 "b.tac") secondText).result =
      .ok (utf8 "block b\n\tr0 = imm4 2\n") := by cbv
  obtain ⟨bs₁, h₁, hnames₁⟩ := exists_of_toOption_map hnames₁
  obtain ⟨bs₂, h₂, hnames₂⟩ := exists_of_toOption_map hnames₂
  have hend : Terminated firstText := ⟨firstText.dropLast, by decide +kernel⟩
  have hdistinct := distinct_of_names hnames₁ hnames₂ (by decide +kernel)
  obtain ⟨hload, hall⟩ := allocateText_append h₁ h₂ hend hdistinct (utf8 "c.tac")
  refine ⟨bs₁, bs₂, h₁, h₂, hload, ?_⟩
  exact (hall twoRegisters _ _ (ne_nil_of_names hnames₁) (ne_nil_of_names hnames₂)).2
    (memoryless_of_none rfl) hout₁ hout₂

/-- One register, and a spiller that helps once: it takes the code out of the first block, and
    gives up on the second. -/
def helpingOnce : TextConfig :=
  { oneRegister with
    spiller := some fun earlier r =>
      if earlier.isEmpty then .ok { r.block with code := [] } else .error (utf8 "once only") }

/-- A block that needs two registers. -/
def keepText : Text := utf8 "block a\nx = imm4 1\ny = imm4 2\nout x\n"

/-- Another one. -/
def keepAgainText : Text := utf8 "block b\nx = imm4 1\ny = imm4 2\nout x\n"

/-- **A spiller that remembers may help with each of two texts and not with both in a row**, so
    that the outputs of the two say nothing about them in a row. -/
theorem not_allocateText_append : ¬ ∀ (cfg : TextConfig) (n₁ n₂ name t₁ t₂ : Text)
    (bs₁ bs₂ : List LoweredBlock) (out₁ out₂ : Text), load n₁ t₁ = .ok bs₁ → load n₂ t₂ = .ok bs₂ →
    Terminated t₁ → (∀ b₁ ∈ bs₁, ∀ b₂ ∈ bs₂, b₁.block.name ≠ b₂.block.name) → bs₁ ≠ [] → bs₂ ≠ [] →
    (allocateText cfg n₁ t₁).result = .ok out₁ → (allocateText cfg n₂ t₂).result = .ok out₂ →
    (allocateText cfg name (t₁ ++ t₂)).result = .ok (out₁ ++ newline :: out₂) := by
  intro hall
  have hnames₁ : (load (utf8 "a.tac") keepText).toOption.map (List.map (·.block.name)) =
      some [utf8 "a"] := by cbv
  have hnames₂ : (load (utf8 "b.tac") keepAgainText).toOption.map (List.map (·.block.name)) =
      some [utf8 "b"] := by cbv
  have hout₁ : (allocateText helpingOnce (utf8 "a.tac") keepText).result = .ok (utf8 "block a\n") := by cbv
  have hout₂ : (allocateText helpingOnce (utf8 "b.tac") keepAgainText).result =
      .ok (utf8 "block b\n") := by cbv
  have hfails : (allocateText helpingOnce (utf8 "c.tac") (keepText ++ keepAgainText)).result.isOk = false := by
    cbv
  obtain ⟨bs₁, h₁, hnames₁⟩ := exists_of_toOption_map hnames₁
  obtain ⟨bs₂, h₂, hnames₂⟩ := exists_of_toOption_map hnames₂
  have hend : Terminated keepText := ⟨keepText.dropLast, by decide +kernel⟩
  have hdistinct := distinct_of_names hnames₁ hnames₂ (by decide +kernel)
  rw [hall helpingOnce _ _ (utf8 "c.tac") _ _ _ _ _ _ h₁ h₂ hend hdistinct (ne_nil_of_names hnames₁)
    (ne_nil_of_names hnames₂) hout₁ hout₂] at hfails
  cases hfails

end Straightline
