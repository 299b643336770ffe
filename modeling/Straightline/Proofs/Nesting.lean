/-
  Spans of syntax trees.

  The spans of a tree that was read lie in the text.  Those of the parts of a node lie in the
  span of the node, one behind the other, and a word is read again from where it starts.

  * `Laid`: spans that stand in a row between two offsets;
  * `Tree.File.Nested`: the parts of every node of the tree are laid out in its span, and its
    words can be read again;
  * `Parser.Lays`: what a parser reads stands between where it starts and where it ends, with one
    lemma for each way to put parsers together;
  * `Source.parse_nested`: so the trees of sources are nested, and all their spans lie in the text.
-/
import Mathlib
import Straightline.Proofs.Bounds

namespace Straightline

/-! ## Spans in a row -/

/-- The spans stand between two offsets, none of them empty, one behind the other. -/
structure Laid (lo : Int) (ss : List Span) (hi : Int) : Prop where
  inside : ∀ s ∈ ss, lo ≤ s.start ∧ s.start < s.stop ∧ s.stop ≤ hi
  apart : ss.Pairwise fun s s' => s.stop ≤ s'.start

namespace Laid

variable {lo lo' mid hi hi' : Int} {s : Span} {ss ss' : List Span}

theorem nil (lo hi : Int) : Laid lo [] hi :=
  ⟨by simp, .nil⟩

theorem single (hlo : lo ≤ s.start) (hs : s.start < s.stop) (hhi : s.stop ≤ hi) : Laid lo [s] hi :=
  ⟨by simpa using ⟨hlo, hs, hhi⟩, List.pairwise_singleton _ _⟩

theorem mono (h : Laid lo ss hi) (hlo : lo' ≤ lo) (hhi : hi ≤ hi') : Laid lo' ss hi' := by
  refine ⟨fun s hs => ?_, h.apart⟩
  obtain ⟨hstart, hlt, hstop⟩ := h.inside s hs
  exact ⟨hlo.trans hstart, hlt, hstop.trans hhi⟩

theorem append (h : Laid lo ss mid) (h' : Laid mid ss' hi) (hlo : lo ≤ mid) (hhi : mid ≤ hi) :
    Laid lo (ss ++ ss') hi := by
  refine ⟨fun s hs => ?_, List.pairwise_append.2 ⟨h.apart, h'.apart, fun s hs s' hs' => ?_⟩⟩
  · rcases List.mem_append.1 hs with hs | hs
    · exact (h.mono le_rfl hhi).inside s hs
    · exact (h'.mono hlo le_rfl).inside s hs
  · exact (h.inside s hs).2.2.trans (h'.inside s' hs').1

end Laid

/-! ## Nested trees -/

namespace Tree

/-- The span of an argument, if it has one. -/
def Arg.own : Arg → List Span
  | ident s | int s | string s => [s]
  | stray n => n.span?.toList

/-- The span of a statement, if it has one. -/
def Stmt.own : Stmt → List Span
  | instr i => [i.span]
  | live d | out d => [d.span]
  | stray n => n.span?.toList

/-- The spans of the parts of an instruction, in the order in which they are written. -/
def Instr.parts (i : Instr) : List Span :=
  i.dst.toList ++ i.op :: i.args.flatMap Arg.own

/-- The spans of the parts of a block. -/
def Block.parts (b : Block) : List Span :=
  b.name :: b.stmts.flatMap Stmt.own

/-- All spans of a statement. -/
def Stmt.spans : Stmt → List Span
  | instr i => i.span :: i.parts
  | live d | out d => d.span :: d.temps
  | stray n => n.span?.toList

/-- All spans of a block. -/
def Block.spans (b : Block) : List Span :=
  b.span :: b.name :: b.stmts.flatMap Stmt.spans

/-- All spans of a file. -/
def File.spans (f : File) : List Span :=
  f.span :: f.blocks.flatMap Block.spans

variable (t : Text)

/-- The argument is a word, and reading a word of its kind from where it starts gives it again. -/
def Arg.Reread : Arg → Prop
  | ident s => Grammar.ident.parseAt t s.start = .ok ⟨s.stop, .ok (.arg (.ident s))⟩
  | int s => Grammar.int.parseAt t s.start = .ok ⟨s.stop, .ok (.arg (.int s))⟩
  | string s => Grammar.string.parseAt t s.start = .ok ⟨s.stop, .ok (.arg (.string s))⟩
  | stray _ => False

/-- Destination, operator and arguments are laid out in the instruction. -/
structure Instr.Nested (i : Instr) : Prop where
  parts : Laid i.span.start i.parts i.span.stop
  dst : ∀ s ∈ i.dst, (Arg.ident s).Reread t
  op : (Arg.ident i.op).Reread t
  args : ∀ a ∈ i.args, a.Reread t

/-- The names are laid out in the directive. -/
structure Directive.Nested (d : Directive) : Prop where
  temps : Laid d.span.start d.temps d.span.stop
  names : ∀ s ∈ d.temps, (Arg.ident s).Reread t

/-- The parts of the statement are laid out in it. -/
def Stmt.Nested : Stmt → Prop
  | instr i => i.Nested t
  | live d | out d => d.Nested t
  | stray _ => False

/-- The name and the statements are laid out in the block. -/
structure Block.Nested (b : Block) : Prop where
  parts : Laid b.span.start b.parts b.span.stop
  name : (Arg.ident b.name).Reread t
  stmts : ∀ s ∈ b.stmts, s.Nested t

/-- The blocks are laid out in the file, which is all of the text. -/
structure File.Nested (f : File) : Prop where
  span : f.span = ⟨0, t.length⟩
  parts : Laid f.span.start (f.blocks.map (·.span)) f.span.stop
  blocks : ∀ b ∈ f.blocks, b.Nested t

end Tree

/-! ## All spans lie in the text -/

/-- The span lies between two offsets. -/
def Span.Within (lo hi : Int) (s : Span) : Prop :=
  lo ≤ s.start ∧ s.start ≤ s.stop ∧ s.stop ≤ hi

section
variable {lo hi : Int} {t : Text} {s : Span} {ss : List Span}

theorem Span.Within.trans {s' : Span} (h : s.Within lo hi) (h' : s'.Within s.start s.stop) : s'.Within lo hi :=
  ⟨h.1.trans h'.1, h'.2.1, h'.2.2.trans h.2.2⟩

theorem Laid.within (h : Laid lo ss hi) (hs : s ∈ ss) : s.Within lo hi :=
  ⟨(h.inside s hs).1, (h.inside s hs).2.1.le, (h.inside s hs).2.2⟩

/-- The parts of a node lie where the node lies. -/
theorem Laid.within_of {outer : Span} (h : Laid outer.start ss outer.stop) (houter : outer.Within lo hi) :
    ∀ s ∈ outer :: ss, s.Within lo hi :=
  List.forall_mem_cons.2 ⟨houter, fun _ hs => houter.trans (h.within hs)⟩

theorem Tree.Stmt.Nested.within {st : Tree.Stmt} (h : st.Nested t) (hown : ∀ s ∈ st.own, s.Within lo hi) :
    ∀ s ∈ st.spans, s.Within lo hi := by
  cases st with
  | instr i => exact h.parts.within_of (hown i.span (List.mem_singleton.2 rfl))
  | live d => exact h.temps.within_of (hown d.span (List.mem_singleton.2 rfl))
  | out d => exact h.temps.within_of (hown d.span (List.mem_singleton.2 rfl))
  | stray n => exact h.elim

theorem Tree.Block.Nested.within {b : Tree.Block} (h : b.Nested t) (hspan : b.span.Within lo hi) :
    ∀ s ∈ b.spans, s.Within lo hi := by
  have hparts := h.parts.within_of hspan
  rw [Tree.Block.parts, List.forall_mem_cons, List.forall_mem_cons] at hparts
  obtain ⟨-, hname, hstmts⟩ := hparts
  refine List.forall_mem_cons.2 ⟨hspan, List.forall_mem_cons.2 ⟨hname, fun s hs => ?_⟩⟩
  obtain ⟨st, hst, hs⟩ := List.mem_flatMap.1 hs
  refine (h.stmts st hst).within (fun s' hs' => ?_) s hs
  exact hstmts s' (List.mem_flatMap.2 ⟨st, hst, hs'⟩)

theorem Tree.File.Nested.within {f : Tree.File} (h : f.Nested t) : ∀ s ∈ f.spans, s.Within 0 t.length := by
  have hspan : f.span.Within 0 t.length := by
    rw [h.span]
    exact ⟨le_rfl, Int.natCast_nonneg _, le_rfl⟩
  refine List.forall_mem_cons.2 ⟨hspan, fun s hs => ?_⟩
  obtain ⟨b, hb, hs⟩ := List.mem_flatMap.1 hs
  have hmem : b.span ∈ f.blocks.map (·.span) := List.mem_map.2 ⟨b, hb, rfl⟩
  exact (h.blocks b hb).within (hspan.trans (h.parts.within hmem)) s hs

end

/-! ## What is read is laid out -/

namespace Parser

variable {α β : Type} {t : Text} {p : Parser α} {f : α → List Span} {P : α → Prop} {c c' : Cursor}

theorem Bounded.reaches (hp : p.Bounded) {a : α} (h : p.Reads c a c') : c.Reaches c' := by
  have hend := hp c
  rw [h] at hend
  exact hend

/-- What the parser reads has the property, and its spans are laid out between the points where
    the parser starts and ends. -/
def Lays (t : Text) (p : Parser α) (f : α → List Span) (P : α → Prop) : Prop :=
  ∀ ⦃c a c'⦄, c.On t → p.Reads c a c' → P a ∧ Laid c.offset (f a) c'.offset

theorem Lays.spaced (h : Lays t p f P) (s : Spaces) (k : Kind) : Lays t (spaced s k p) f P := by
  intro c a c' hc hread
  obtain ⟨ha, hlaid⟩ := h (hc.skip s) (reads_spaced.1 hread)
  have hskip := (Cursor.reaches_skip s c).offset_le
  exact ⟨ha, hlaid.mono (by omega) le_rfl⟩

theorem Bounded.repeats (hp : p.Bounded) {as : List α} (h : Repeats p.Reads c as c') : c.Reaches c' := by
  induction h with
  | nil c => exact .refl c
  | cons head _ ih => exact (hp.reaches head).trans ih

theorem Lays.repeats (h : Lays t p f P) (hp : p.Bounded) {as : List α} (hc : c.On t)
    (hreads : Repeats p.Reads c as c') : (∀ a ∈ as, P a) ∧ Laid c.offset (as.flatMap f) c'.offset := by
  induction hreads with
  | nil c => exact ⟨by simp, .nil _ _⟩
  | @cons c m c' a as head tail ih =>
    have hhead := hp.reaches head
    have htail := hp.repeats tail
    obtain ⟨ha, hfirst⟩ := h hc head
    obtain ⟨has, hrest⟩ := ih (hhead.on hc)
    refine ⟨List.forall_mem_cons.2 ⟨ha, has⟩, ?_⟩
    rw [List.flatMap_cons]
    exact hfirst.append hrest (Int.ofNat_le.2 hhead.offset_le) (Int.ofNat_le.2 htail.offset_le)

theorem Lays.many (h : Lays t p f P) (hp : p.Bounded) (hadv : p.Advances) :
    Lays t (many p) (List.flatMap f) (∀ a ∈ ·, P a) := by
  intro c as c' hc hread
  exact h.repeats hp hc ((reads_many hadv).1 hread).1

end Parser

namespace Program

open Straightline.Parser

variable {t : Text} {c c' : Cursor}

/-- A token that is not empty is laid out where it is read. -/
theorem lays_token {scan : Text → Token.Scan} {P : Span → Prop} (hmoves : Token.Moves scan)
    (hP : ∀ ⦃c s c'⦄, c.On t → (token scan).Reads c s c' → P s) : Lays t (token scan) (fun s => [s]) P := by
  intro c s c' hc h
  refine ⟨hP hc h, ?_⟩
  obtain ⟨n, hn, rfl, rfl⟩ := reads_token.1 h
  have hpos := hmoves hn
  exact .single le_rfl (by simp only; omega) le_rfl

/-- A word is read again from where it starts. -/
theorem reread_of_reads {g : Grammar} {p : Parser Span} {f : Span → Tree.Arg} {s : Span} {n : Nat}
    (hg : g.parser = (fun s => .arg (f s)) <$> p) (hc : c.On t) (h : p.Reads c s (c.advance n)) :
    g.parseAt t c.offset = .ok ⟨((c.offset + n : Nat) : Int), .ok (.arg (f s))⟩ := by
  refine (Grammar.parseAt_eq_ok_iff hc.le).2 ⟨c.advance n, ?_, rfl⟩
  rw [hg, ← hc.eq_ofOffset]
  exact reads_map.2 ⟨s, h, rfl⟩

theorem lays_ident : Lays t ident (fun s => [s]) fun s => (Tree.Arg.ident s).Reread t := by
  refine lays_token Token.moves_ident fun c s c' hc h => ?_
  obtain ⟨n, -, rfl, rfl⟩ := reads_token.1 h
  exact reread_of_reads (f := .ident) rfl hc h

theorem lays_int : Lays t int (fun s => [s]) fun s => (Tree.Arg.int s).Reread t := by
  refine lays_token (fun _ _ h => (Token.int_ok h).1) fun c s c' hc h => ?_
  obtain ⟨n, -, rfl, rfl⟩ := reads_token.1 h
  exact reread_of_reads (f := .int) rfl hc h

theorem lays_string : Lays t string (fun s => [s]) fun s => (Tree.Arg.string s).Reread t := by
  refine lays_token (fun _ _ h => (Token.string_ok h).1) fun c s c' hc h => ?_
  obtain ⟨n, -, rfl, rfl⟩ := reads_token.1 h
  exact reread_of_reads (f := .string) rfl hc h

theorem lays_name : Lays t name (fun s => [s]) fun s => (Tree.Arg.ident s).Reread t :=
  lays_ident.spaced .tab .ident

theorem lays_names : Lays t (many name) id (∀ s ∈ ·, (Tree.Arg.ident s).Reread t) := by
  intro c ss c' hc h
  obtain ⟨hss, hlaid⟩ := lays_name.many bounded_name advances_name hc h
  rw [List.flatMap_singleton'] at hlaid
  exact ⟨hss, hlaid⟩

theorem lays_arg : Lays t arg Tree.Arg.own fun a => a.Reread t := by
  intro c a c' hc h
  rcases reads_arg h with ⟨s, hs, rfl⟩ | ⟨s, hs, rfl⟩ | ⟨s, hs, rfl⟩
  · exact lays_ident hc hs
  · exact lays_int hc hs
  · exact lays_string hc hs

theorem lays_args : Lays t (many (spaced .tab .arg arg)) (List.flatMap Tree.Arg.own) (∀ a ∈ ·, a.Reread t) :=
  (lays_arg.spaced .tab .arg).many (bounded_arg.spaced .tab .arg) advances_arg.spaced

theorem lays_operator : Lays t operator (fun s => [s]) fun s => (Tree.Arg.ident s).Reread t := by
  intro c s c' hc h
  obtain ⟨e, m, heq, hname⟩ := reads_context.1 h
  have hm := ((bounded_const _).spaced .tab .const).reaches heq
  obtain ⟨hs, hlaid⟩ := lays_name (hm.on hc) hname
  exact ⟨hs, hlaid.mono (Int.ofNat_le.2 hm.offset_le) le_rfl⟩

/-- The span of what is read is laid out between the points where it starts and ends. -/
theorem laid_of_advances {α : Type} {p : Parser α} {a : α} (hp : p.Bounded) (hadv : p.Advances)
    (h : p.Reads c a c') : Laid c.offset [⟨c.offset, c'.offset⟩] c'.offset := by
  have hlt := (hp.reaches h).offset_lt (hadv h)
  exact .single le_rfl (Int.ofNat_lt.2 hlt) le_rfl

theorem lays_instr : Lays t instr (fun i => [i.span]) fun i => i.Nested t := by
  intro c i c' hc h
  have hspan := laid_of_advances bounded_instr advances_instr h
  obtain ⟨head, m, op, m', args, hhead, hop, hargs, rfl⟩ := reads_instr.1 h
  refine ⟨?_, hspan⟩
  have hm := bounded_ident.reaches hhead
  have hm' := bounded_operator.optional.reaches hop
  have hc' := (bounded_arg.spaced .tab .arg).many.reaches hargs
  obtain ⟨hreread, hfirst⟩ := lays_ident hc hhead
  obtain ⟨hall, hrest⟩ := lays_args (hm'.on (hm.on hc)) hargs
  have h₁ := Int.ofNat_le.2 hm.offset_le
  have h₂ := Int.ofNat_le.2 hm'.offset_le
  have h₃ := Int.ofNat_le.2 hc'.offset_le
  rcases reads_optional.1 hop with ⟨s, rfl, hs⟩ | ⟨rfl, rfl, -⟩
  · obtain ⟨hop, hsecond⟩ := lays_operator (hm.on hc) hs
    refine ⟨hfirst.append (hsecond.append hrest h₂ h₃) h₁ (h₂.trans h₃), ?_, hop, hall⟩
    rintro _ ⟨⟩
    exact hreread
  · refine ⟨hfirst.append hrest h₁ h₃, ?_, hreread, hall⟩
    rintro _ ⟨⟩

theorem lays_directive {w : Text} (hw : w ≠ []) :
    Lays t (directive w) (fun d => [d.span]) fun d => d.Nested t := by
  intro c d c' hc h
  have hspan := laid_of_advances (bounded_directive w) (advances_directive hw) h
  obtain ⟨s, m, ss, hword, hnames, rfl⟩ := reads_directive.1 h
  have hm := (bounded_keyword w).reaches hword
  obtain ⟨hall, hlaid⟩ := lays_names (hm.on hc) hnames
  exact ⟨⟨hlaid.mono (Int.ofNat_le.2 hm.offset_le) le_rfl, hall⟩, hspan⟩

theorem lays_stmt : Lays t stmt Tree.Stmt.own fun s => s.Nested t := by
  intro c s c' hc h
  rcases reads_stmt h with ⟨d, hd, rfl⟩ | ⟨d, hd, rfl⟩ | ⟨i, hi, rfl, -⟩
  · exact lays_directive (by decide) hc hd
  · exact lays_directive (by decide) hc hd
  · exact lays_instr hc hi

/-- The statements of a block are laid out up to the end of the last line. -/
theorem lays_lines {ss : List Tree.Stmt} {last : Nat} (hc : c.On t) (h : Lines c ss last c') :
    (∀ s ∈ ss, s.Nested t) ∧ Laid c.offset (ss.flatMap Tree.Stmt.own) last ∧ c.offset ≤ last ∧ last ≤ c'.offset := by
  induction h with
  | @atEnd c _ => exact ⟨by simp, .nil _ _, le_rfl, (Cursor.reaches_skipBlank c).offset_le⟩
  | atBlock => exact ⟨by simp, .nil _ _, le_rfl, le_rfl⟩
  | @line c m c' s ss last _ _ head tail ih =>
    obtain ⟨n, e, hs, he⟩ := reads_stmtLine.1 head
    have hstart := Cursor.reaches_skipBlank c
    have hn := bounded_stmt.reaches hs
    have hm := bounded_eol.reaches he
    obtain ⟨hnested, hfirst⟩ := lays_stmt (hstart.on hc) hs
    obtain ⟨hall, hrest, hle, hle'⟩ := ih (hm.on (hn.on (hstart.on hc)))
    have h₁ := (hstart.trans (hn.trans hm)).offset_le
    have h₂ := hm.offset_le
    have hline : Laid c.offset s.own m.offset :=
      hfirst.mono (Int.ofNat_le.2 hstart.offset_le) (Int.ofNat_le.2 h₂)
    refine ⟨List.forall_mem_cons.2 ⟨hnested, hall⟩, ?_, h₁.trans hle, hle'⟩
    rw [List.flatMap_cons]
    exact hline.append hrest (Int.ofNat_le.2 h₁) (Int.ofNat_le.2 hle)

theorem lays_block : Lays t block (fun b => [b.span]) fun b => b.Nested t := by
  intro c b c' hc h
  obtain ⟨s, m, ss, last, hheader, hlines, rfl⟩ := reads_block.1 h
  obtain ⟨w, m₁, m₂, e, hw, hname, he⟩ := reads_header.1 hheader
  have hm₁ := (bounded_keyword blockWord).reaches hw
  have hm₂ := bounded_name.reaches hname
  have hm := bounded_eol.reaches he
  obtain ⟨hreread, hfirst⟩ := lays_name (hm₁.on hc) hname
  obtain ⟨hall, hrest, hle, hle'⟩ := lays_lines (hm.on (hm₂.on (hm₁.on hc))) hlines
  have h₁ := hm₁.offset_lt (advances_token (Token.fits_keyword blockWord) (Token.moves_keyword (by decide)) hw)
  have h₂ := hm₂.offset_le
  have h₃ := hm.offset_le
  have hnamed : Laid c.offset [s] m.offset := hfirst.mono (by omega) (by omega)
  have hparts : Laid c.offset ([s] ++ ss.flatMap Tree.Stmt.own) last :=
    hnamed.append hrest (by omega) (by omega)
  exact ⟨⟨hparts, hreread, hall⟩, .single le_rfl (by simp only; omega) (by simp only; omega)⟩

theorem lays_blocks {bs : List Tree.Block} (hc : c.On t) (h : Blocks c bs c') :
    (∀ b ∈ bs, b.Nested t) ∧ Laid c.offset (bs.map (·.span)) c'.offset ∧ c.Reaches c' := by
  induction h with
  | @nil c _ => exact ⟨by simp, .nil _ _, .refl c⟩
  | @cons c m c' b bs head tail ih =>
    have hm := (bounded_block.reaches head).trans (Cursor.reaches_skipBlank m)
    obtain ⟨hb, hfirst⟩ := lays_block hc head
    obtain ⟨hbs, hrest, hreach⟩ := ih (hm.on hc)
    have hblank := Int.ofNat_le.2 (Cursor.reaches_skipBlank m).offset_le
    refine ⟨List.forall_mem_cons.2 ⟨hb, hbs⟩, ?_, hm.trans hreach⟩
    exact (hfirst.mono le_rfl hblank).append hrest (Int.ofNat_le.2 hm.offset_le) (Int.ofNat_le.2 hreach.offset_le)

end Program

namespace Source

open Straightline.Program

variable {src : Source} {f : Tree.File}

/-- **The trees of sources are nested.**  Every span lies in the text; the blocks of the file, the
    name and the statements of a block, and the words of a statement stand in their node one behind
    the other; and each word is read again, with the same end, from where it starts. -/
theorem parse_nested (h : src.parse = .ok f) :
    f.Nested src.text ∧ ∀ s ∈ f.spans, s.Within 0 src.text.length := by
  have hnested : f.Nested src.text := by
    obtain ⟨c', hfile⟩ := parse_eq_ok_iff.1 h
    obtain ⟨hblocks, hspan⟩ := reads_file.1 hfile
    have hstart := (Cursor.on_ofText src.text).skipBlank
    obtain ⟨hbs, hlaid, hreach⟩ := lays_blocks hstart hblocks
    have hend : c'.offset = src.text.length := by
      have hlen := (hreach.on hstart).length_rest
      rw [hblocks.rest_eq_nil] at hlen
      exact hlen
    refine ⟨by rw [hspan, hend]; rfl, ?_, hbs⟩
    rw [hspan]
    exact hlaid.mono (Int.natCast_nonneg _) le_rfl
  exact ⟨hnested, hnested.within⟩

/-- A block with a destination, words of each kind, a directive and blanks behind its last line. -/
def nestedText : Text := utf8 "block b\n\tx = add y -1 \"\"\nlive x\n\n"

theorem parse_nested_words : ∃ f, (ofText [] nestedText).parse = .ok f ∧ f.spans.length = 11 ∧
    f.Nested nestedText ∧ ∀ s ∈ f.spans, s.Within 0 nestedText.length := by
  have hcount : ((ofText [] nestedText).parse).toOption.map (·.spans.length) = some 11 := by cbv
  rcases hparse : (ofText [] nestedText).parse with e | f
  · rw [hparse] at hcount
    cases hcount
  · rw [hparse] at hcount
    exact ⟨f, rfl, Option.some.inj hcount, parse_nested hparse⟩

end Source

end Straightline
