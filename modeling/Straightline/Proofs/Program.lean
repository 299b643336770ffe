/-
  Files as they are read.

  `Lines` and `Blocks` say how the lines of a block and the blocks of a file follow
  each other; `reads_lines` and `reads_blocks` say that this is how they are read.

  * `Source.parse_spells`: what is read as a file is made of words;
  * `Source.parse_yields`: plain blocks, printed with an empty line between two, are
    read as these blocks;
  * `Source.syntaxError_of_parse`: a text that is read at all is read to its end.
-/
import Straightline.Proofs.Printed

namespace Straightline

namespace Parser

variable {α : Type} {p : Parser α} {c c' : Cursor}

/-- The parser does not go back. -/
def Stays (p : Parser α) : Prop :=
  ∀ ⦃c a c'⦄, p.Reads c a c' → c'.rest.length ≤ c.rest.length

theorem Advances.stays (hp : p.Advances) : p.Stays :=
  fun _ _ _ h => Nat.le_of_lt (hp h)

theorem stays_token (scan : Text → Token.Scan) : (token scan).Stays := by
  intro c s c' h
  obtain ⟨n, -, rfl, -⟩ := reads_token.1 h
  simp

theorem stays_many (hp : p.Advances) : (many p).Stays := by
  intro c as c' h
  obtain ⟨hreads, -⟩ := (reads_many hp).1 h
  clear h
  induction hreads with
  | nil => exact Nat.le_refl _
  | cons head tail ih => exact Nat.le_trans ih (hp.stays head)

theorem Stays.optional (hp : p.Stays) : p.optional.Stays := by
  intro c o c' h
  rcases reads_optional.1 h with ⟨a, -, ha⟩ | ⟨-, rfl, -⟩
  · exact hp ha
  · exact Nat.le_refl _

end Parser

namespace Program

open Straightline.Parser Straightline.Token

variable {src : Source} {c c' m : Cursor} {r : Text}

/-! ## Statements take up text -/

theorem stays_operator : operator.Stays := by
  intro c s c' h
  obtain ⟨e, m, heq, hname⟩ := reads_context.1 h
  have h₁ := stays_token _ (reads_spaced.1 heq)
  have h₂ := advances_name hname
  have h₃ := c.length_skip_le .tab
  omega

theorem advances_instr : instr.Advances := by
  intro c i c' h
  obtain ⟨head, m, op, m', args, hhead, hop, hargs, -⟩ := reads_instr.1 h
  have h₁ := advances_ident hhead
  have h₂ := stays_operator.optional hop
  have h₃ := stays_many advances_arg.spaced hargs
  omega

theorem advances_directive {w : Text} (hw : w ≠ []) : (directive w).Advances := by
  intro c d c' h
  obtain ⟨s, m, ss, hword, hnames, -⟩ := reads_directive.1 h
  have h₁ := advances_token (fits_keyword w) (moves_keyword hw) hword
  have h₂ := stays_many advances_name hnames
  omega

theorem advances_stmt : stmt.Advances := by
  intro c s c' h
  rcases reads_stmt h with ⟨d, hd, -⟩ | ⟨d, hd, -⟩ | ⟨i, hi, -⟩
  · exact advances_directive (by decide) hd
  · exact advances_directive (by decide) hd
  · exact advances_instr hi

theorem reads_stmtLine {s : Tree.Stmt} :
    stmtLine.Reads c s c' ↔ ∃ m e, stmt.Reads c s m ∧ eol.Reads m e c' := by
  simp only [stmtLine, reads_bind, reads_within, reads_pure]
  constructor
  · rintro ⟨s, m, hs, e, m', he, rfl, rfl⟩
    exact ⟨m, e, hs, he⟩
  · rintro ⟨m, e, hs, he⟩
    exact ⟨s, m, hs, e, c', he, rfl, rfl⟩

theorem advances_stmtLine : stmtLine.Advances := by
  intro c s c' h
  obtain ⟨m, e, hs, he⟩ := reads_stmtLine.1 h
  exact Nat.lt_of_le_of_lt (stays_token _ he) (advances_stmt hs)

/-! ## Lines -/

/-- The lines of a block from `c` to `c'`, and where the last of them ends. -/
inductive Lines : Cursor → List Tree.Stmt → Nat → Cursor → Prop where
  | atEnd {c : Cursor} (hrest : c.skipBlank.rest = []) : Lines c [] c.offset c.skipBlank
  | atBlock {c : Cursor} (hblock : opensBlock c.skipBlank = true) : Lines c [] c.offset c
  | line {c m c' : Cursor} {s : Tree.Stmt} {ss : List Tree.Stmt} {last : Nat}
      (hrest : c.skipBlank.rest ≠ []) (hblock : opensBlock c.skipBlank = false)
      (head : stmtLine.Reads c.skipBlank s m) (tail : Lines m ss last c') : Lines c (s :: ss) last c'

theorem opensBlock_nil (h : c.rest = []) : opensBlock c = false := by
  rw [opensBlock, h]; rfl

theorem lines_of_linesFrom {count : Nat} {ss : List Tree.Stmt} {last : Nat}
    (h : linesFrom count c = ⟨c', .ok (ss, last)⟩) : Lines c ss last c' := by
  induction hn : c.rest.length using Nat.strongRecOn generalizing c count ss with
  | ind n ih =>
    rw [linesFrom] at h
    split at h
    · rename_i hrest
      cases h
      exact .atEnd (List.isEmpty_iff.1 hrest)
    split at h
    · cases h
      exact .atBlock ‹_›
    rename_i hrest hblock
    have hrest' : c.skipBlank.rest ≠ [] := fun hnil => hrest (List.isEmpty_iff.2 hnil)
    rcases hs : stmtLine.within (.line count) c.skipBlank with ⟨m, e | s⟩
    · rw [hs] at h
      cases h
    · have hreads : stmtLine.Reads c.skipBlank s m := reads_within.1 hs
      have hlt : m.rest.length < c.rest.length :=
        Nat.lt_of_lt_of_le (advances_stmtLine hreads) c.length_skipBlank_le
      simp only [hs, hlt, if_true] at h
      rcases hrec : linesFrom (count + 1) m with ⟨m', e | ⟨rest, last'⟩⟩
      · rw [hrec] at h
        cases h
      · rw [hrec] at h
        cases h
        exact .line hrest' (Bool.eq_false_iff.2 hblock) hreads (ih _ (hn ▸ hlt) hrec rfl)

theorem linesFrom_of_lines {ss : List Tree.Stmt} {last : Nat} (h : Lines c ss last c') (count : Nat) :
    linesFrom count c = ⟨c', .ok (ss, last)⟩ := by
  induction h generalizing count with
  | atEnd hrest => simp [linesFrom, hrest]
  | @atBlock c hblock =>
    have hrest : c.skipBlank.rest ≠ [] := fun hnil => by simp [opensBlock_nil hnil] at hblock
    simp [linesFrom, hrest, hblock]
  | @line c m c' s ss last hrest hblock head tail ih =>
    have hlt : m.rest.length < c.rest.length :=
      Nat.lt_of_lt_of_le (advances_stmtLine head) c.length_skipBlank_le
    have hs : stmtLine.within (.line count) c.skipBlank = ⟨m, .ok s⟩ := reads_within.2 head
    simp [linesFrom, hrest, hblock, hs, hlt, ih]

theorem reads_lines {count : Nat} {ss : List Tree.Stmt} {last : Nat} :
    Reads (linesFrom count) c (ss, last) c' ↔ Lines c ss last c' :=
  ⟨lines_of_linesFrom, fun h => linesFrom_of_lines h count⟩

theorem Lines.length_le {ss : List Tree.Stmt} {last : Nat} (h : Lines c ss last c') :
    c'.rest.length ≤ c.rest.length := by
  induction h with
  | @atEnd c hrest => exact c.length_skipBlank_le
  | atBlock => exact Nat.le_refl _
  | @line c m c' s ss last hrest hblock head tail ih =>
    have h₁ := advances_stmtLine head
    have h₂ := c.length_skipBlank_le
    omega

/-! ## Blocks -/

theorem reads_header {s : Span} : header.Reads c s c' ↔
    ∃ w m m' e, (keyword blockWord).Reads c w m ∧ name.Reads m s m' ∧ eol.Reads m' e c' := by
  simp only [header, reads_bind, reads_within, reads_pure]
  constructor
  · rintro ⟨w, m, hw, s, m', hs, e, m'', he, rfl, rfl⟩
    exact ⟨w, m, m', e, hw, hs, he⟩
  · rintro ⟨w, m, m', e, hw, hs, he⟩
    exact ⟨w, m, hw, s, m', hs, e, c', he, rfl, rfl⟩

theorem reads_block {b : Tree.Block} : block.Reads c b c' ↔
    ∃ s m ss last, header.Reads c s m ∧ Lines m ss last c' ∧ b = ⟨⟨c.offset, last⟩, s, ss⟩ := by
  simp only [block, reads_bind, reads_here, Prod.exists]
  constructor
  · rintro ⟨_, _, ⟨rfl, rfl⟩, s, m, hs, ss, last, m', hlines, h⟩
    obtain ⟨rfl, rfl⟩ := reads_pure.1 h
    exact ⟨s, m, ss, last, hs, reads_lines.1 hlines, rfl⟩
  · rintro ⟨s, m, ss, last, hs, hlines, rfl⟩
    exact ⟨c, c, ⟨rfl, rfl⟩, s, m, hs, ss, last, c', reads_lines.2 hlines, reads_pure.2 ⟨rfl, rfl⟩⟩

theorem advances_block : block.Advances := by
  intro c b c' h
  obtain ⟨s, m, ss, last, hs, hlines, -⟩ := reads_block.1 h
  obtain ⟨w, m₁, m₂, e, hw, hname, he⟩ := reads_header.1 hs
  have h₁ := advances_token (fits_keyword blockWord) (moves_keyword (by decide)) hw
  have h₂ := advances_name hname
  have h₃ := stays_token _ he
  have h₄ := hlines.length_le
  omega

/-- The blocks of a file from `c` to its end. -/
inductive Blocks : Cursor → List Tree.Block → Cursor → Prop where
  | nil {c : Cursor} (hrest : c.rest = []) : Blocks c [] c
  | cons {c m c' : Cursor} {b : Tree.Block} {bs : List Tree.Block}
      (head : block.Reads c b m) (tail : Blocks m.skipBlank bs c') : Blocks c (b :: bs) c'

theorem Blocks.rest_eq_nil {bs : List Tree.Block} (h : Blocks c bs c') : c'.rest = [] := by
  induction h with
  | nil hrest => exact hrest
  | cons _ _ ih => exact ih

theorem reads_blocks {count : Nat} {bs : List Tree.Block} :
    Reads (blocksFrom count) c bs c' ↔ Blocks c bs c' := by
  induction hn : c.rest.length using Nat.strongRecOn generalizing c count bs with
  | ind n ih =>
    rw [Reads, blocksFrom]
    by_cases hempty : c.rest = []
    · simp only [hempty, List.isEmpty_nil, if_true]
      constructor
      · rintro ⟨⟩
        exact .nil hempty
      · intro h
        cases h with
        | nil => rfl
        | cons head tail => exact absurd (advances_block head) (by simp [hempty])
    rw [if_neg (by simpa using hempty)]
    rcases hb : block.within (.block count) c with ⟨m, e | b⟩
    · constructor
      · rintro ⟨⟩
      · intro h
        cases h with
        | nil hrest => exact absurd hrest hempty
        | cons head tail => exact absurd (reads_within.2 head) (Fails.not_reads ⟨m, e, hb⟩)
    · have hreads : block.Reads c b m := reads_within.1 hb
      have hlt : m.skipBlank.rest.length < c.rest.length :=
        Nat.lt_of_le_of_lt m.length_skipBlank_le (advances_block hreads)
      have hmore : ∀ rest, Reads (blocksFrom (count + 1)) m.skipBlank rest c' ↔ Blocks m.skipBlank rest c' :=
        fun rest => ih _ (hn ▸ hlt) rfl
      simp only [hlt, if_true]
      constructor
      · intro hall
        rcases hrest : blocksFrom (count + 1) m.skipBlank with ⟨m', e | rest⟩
        · rw [hrest] at hall
          cases hall
        · rw [hrest] at hall
          cases hall
          exact .cons hreads ((hmore rest).1 hrest)
      · intro h
        cases h with
        | nil hrest => exact absurd hrest hempty
        | cons head tail =>
          obtain ⟨rfl, rfl⟩ := hreads.unique head
          have hrest : blocksFrom (count + 1) m.skipBlank = _ := (hmore _).2 tail
          rw [hrest]

theorem reads_file {f : Tree.File} :
    file.Reads c f c' ↔ Blocks c.skipBlank f.blocks c' ∧ f.span = ⟨c.offset, c'.offset⟩ := by
  rcases h : blocksFrom 0 c.skipBlank with ⟨m, e | bs⟩
  · have hno : ¬ Blocks c.skipBlank f.blocks c' := fun hb =>
      Fails.not_reads ⟨m, e, h⟩ (reads_blocks.2 hb)
    simp [Reads, file, h, hno]
  · have hreads : Reads (blocksFrom 0) c.skipBlank f.blocks c' ↔ _ := reads_blocks
    have hiff : Blocks c.skipBlank f.blocks c' ↔ m = c' ∧ bs = f.blocks := by
      rw [← hreads, Reads, h]
      simp
    obtain ⟨span, blocks⟩ := f
    simp only [Reads, file, h, hiff, Outcome.mk.injEq, Except.ok.injEq, Tree.File.mk.injEq]
    constructor
    · rintro ⟨rfl, rfl, rfl⟩
      exact ⟨⟨rfl, rfl⟩, rfl⟩
    · rintro ⟨⟨rfl, rfl⟩, rfl⟩
      exact ⟨rfl, rfl, rfl⟩

/-! ## What is read -/

theorem lines_spell {ss : List Tree.Stmt} {last : Nat} (hc : c.On src.text) (h : Lines c ss last c') :
    (∃ ws, List.Forall₂ (Tree.Stmt.Spells src) ss ws ∧ ∀ w ∈ ws, w.Lexical) ∧ c'.On src.text := by
  induction h with
  | atEnd => exact ⟨⟨[], .nil, by simp⟩, hc.skipBlank⟩
  | atBlock => exact ⟨⟨[], .nil, by simp⟩, hc⟩
  | line hrest hblock head tail ih =>
    obtain ⟨m, e, hs, he⟩ := reads_stmtLine.1 head
    obtain ⟨⟨w, hw, hlex⟩, hm⟩ := stmt_spells hc.skipBlank hblock hs
    obtain ⟨-, hm'⟩ := gives_token fits_eol hm he
    obtain ⟨⟨ws, hws, hlexs⟩, hc'⟩ := ih hm'
    exact ⟨⟨w :: ws, .cons hw hws, List.forall_mem_cons.2 ⟨hlex, hlexs⟩⟩, hc'⟩

theorem block_spells : Gives src block fun b => ∃ w, b.Spells src w ∧ w.Lexical := by
  intro c b c' hc h
  obtain ⟨s, m, ss, last, hs, hlines, rfl⟩ := reads_block.1 h
  obtain ⟨w, m₁, m₂, e, hword, hname, he⟩ := reads_header.1 hs
  obtain ⟨-, hm₁⟩ := gives_token (fits_keyword blockWord) hc hword
  obtain ⟨⟨x, hx, hident⟩, hm₂⟩ := name_spells hm₁ hname
  obtain ⟨-, hm⟩ := gives_token fits_eol hm₂ he
  obtain ⟨⟨ws, hws, hlex⟩, hc'⟩ := lines_spell hm hlines
  exact ⟨⟨⟨x, ws⟩, ⟨hx, hws⟩, ⟨hident, hlex⟩⟩, hc'⟩

theorem blocks_spell {bs : List Tree.Block} (hc : c.On src.text) (h : Blocks c bs c') :
    ∀ b ∈ bs, ∃ w, b.Spells src w ∧ w.Lexical := by
  induction h with
  | nil => simp
  | cons head tail ih =>
    obtain ⟨hb, hm⟩ := block_spells hc head
    exact List.forall_mem_cons.2 ⟨hb, ih hm.skipBlank⟩

end Program

namespace Source

open Straightline.Parser Straightline.Program

variable {src : Source} {f : Tree.File}

/-- Nothing is left behind the last block. -/
theorem parse_eq (src : Source) : src.parse =
    match file (.ofText src.text) with
    | ⟨_, .ok f⟩ => .ok f
    | ⟨stop, .error e⟩ => .error (.syntaxError (src.positionAt stop.offset) e) := by
  rw [parse, readAll]
  rcases h : file (.ofText src.text) with ⟨m, e | f⟩
  · rfl
  · have hrest : m.rest = [] := (reads_file.1 h).1.rest_eq_nil
    have hskip : (m.skip .all).rest = [] := by simp [Cursor.skip, Cursor.advance, hrest]
    simp [hskip]

theorem parse_eq_ok_iff : src.parse = .ok f ↔ ∃ c', file.Reads (.ofText src.text) f c' := by
  rw [parse_eq]
  rcases h : file (.ofText src.text) with ⟨m, e | g⟩ <;> simp [Reads, h]

/-- **A text that is no file fails to follow the grammar**; it is never read in part. -/
theorem syntaxError_of_parse {e : ParseError} (h : src.parse = .error e) :
    ∃ p failure, e = .syntaxError p failure := by
  rw [parse_eq] at h
  split at h
  · cases h
  · cases h
    exact ⟨_, _, rfl⟩

/-- **What is read as a file is made of words.** -/
theorem parse_spells (h : src.parse = .ok f) :
    ∃ ws, List.Forall₂ (Tree.Block.Spells src) f.blocks ws ∧ ∀ w ∈ ws, w.Lexical := by
  obtain ⟨c', hf⟩ := parse_eq_ok_iff.1 h
  obtain ⟨hblocks, -⟩ := reads_file.1 hf
  exact exists_forall₂ (blocks_spell (Cursor.on_ofText _).skipBlank hblocks)

end Source

/-! ## Printed programs -/

namespace Written

open Token (IsIdent)

/-- A block, its header on a line of its own. -/
def Block.text (b : Block) : Text :=
  utf8 "block " ++ b.name ++ [newline] ++ b.stmts.flatMap Stmt.line

/-- The block can be printed. -/
structure Block.Plain (b : Block) : Prop where
  name : IsIdent b.name
  stmts : ∀ s ∈ b.stmts, s.Plain

/-- Blocks with an empty line between two. -/
def program (bs : List Block) : Text :=
  [newline].intercalate (bs.map Block.text)

/-- What follows a block if the blocks `bs` come behind it. -/
def separated : List Block → Text
  | [] => []
  | bs => newline :: program bs

theorem program_cons (b : Block) (bs : List Block) : program (b :: bs) = b.text ++ separated bs := by
  cases bs with
  | nil => simp [program, separated, List.intercalate]
  | cons b' bs => simp [program, separated, List.intercalate]

theorem block_text_append (b : Block) (r : Text) :
    b.text ++ r = Program.blockWord ++ (spacedText b.name ++ newline :: (b.stmts.flatMap Stmt.line ++ r)) := by
  have hword : utf8 "block " = Program.blockWord ++ utf8 " " := rfl
  simp [Block.text, hword, spacedText]

/-- A printed program opens with a block, if it has any. -/
theorem program_opens {bs : List Block} (hbs : bs ≠ []) {c : Cursor} (hc : c.rest = program bs) :
    Program.opensBlock c = true := by
  obtain ⟨b, bs, rfl⟩ := List.exists_cons_of_ne_nil hbs
  rw [program_cons, block_text_append] at hc
  have hword : Token.keyword Program.blockWord c.rest = .ok Program.blockWord.length := by
    rw [hc]
    refine Token.keyword_eq_ok_iff.2 ⟨⟨List.prefix_append _ _, ?_⟩, rfl⟩
    rintro _ ⟨⟩
    decide
  rw [Program.opensBlock, hword]
  rfl

theorem program_startsFull (bs : List Block) : StartsFull (program bs) := by
  cases bs with
  | nil => simp [program, StartsFull]
  | cons b bs =>
    rw [program_cons, block_text_append]
    rintro _ ⟨⟩
    decide +kernel

end Written

namespace Program

open Straightline.Parser Straightline.Token

variable {src : Source} {c : Cursor}

theorem lines_yield {ws : List Written.Stmt} {bs : List Written.Block} (hws : ∀ w ∈ ws, w.Plain)
    (hc : c.On src.text) (hrest : c.rest = ws.flatMap Written.Stmt.line ++ Written.separated bs) :
    ∃ ss last c', Lines c ss last c' ∧ List.Forall₂ (Tree.Stmt.Spells src) ss ws ∧ c'.On src.text ∧
      c'.skipBlank.rest = Written.program bs := by
  induction ws generalizing c with
  | nil =>
    simp only [List.flatMap_nil, List.nil_append] at hrest
    cases bs with
    | nil =>
      have hskip : ∀ {c : Cursor}, c.rest = [] → c.skipBlank.rest = [] := by
        intro c h
        simp [Cursor.skipBlank, Cursor.advance, h]
      exact ⟨[], _, _, .atEnd (hskip hrest), .nil, hc.skipBlank, hskip (hskip hrest)⟩
    | cons b bs =>
      have hskip : c.skipBlank.rest = Written.program (b :: bs) :=
        Cursor.rest_skipBlank (x := [newline]) hrest (by decide +kernel) (Written.program_startsFull _)
      exact ⟨[], _, c, .atBlock (Written.program_opens (by simp) hskip), .nil, hc, hskip⟩
  | cons w ws ih =>
    obtain ⟨hw, hws⟩ := List.forall_mem_cons.1 hws
    obtain ⟨x, y, htext, hx, hblock⟩ :=
      stmt_text_starts hw (ws.flatMap Written.Stmt.line ++ Written.separated bs)
    have hline : c.rest = indented (x ++ y) := by
      rw [hrest, List.flatMap_cons, List.append_assoc, ← htext]
      simp [Written.Stmt.line, indented]
    have hfull : StartsFull (x ++ y) := by
      obtain ⟨b, z, rfl, hb, hmark, -⟩ := Written.start_of_isIdent hx
      rintro _ ⟨⟩
      exact ⟨hb, hmark⟩
    have hskip : c.skipBlank.rest = x ++ y :=
      Cursor.rest_skipBlank (x := [9]) hline (by decide +kernel) hfull
    obtain ⟨s, m, hs, hspells, hm, hrest'⟩ :=
      stmtLine_yields hw hc.skipBlank (by rw [hskip, htext])
    obtain ⟨ss, last, c', hlines, hss, hc', hend⟩ := ih hws hm hrest'
    refine ⟨s :: ss, last, c', .line ?_ ?_ hs hlines, .cons hspells hss, hc', hend⟩
    · rw [hskip]
      obtain ⟨b, z, rfl, -⟩ := isIdent_cons hx
      simp
    · rw [opensBlock, hskip]
      cases hk : Token.keyword blockWord (x ++ y) with
      | ok n => exact absurd hk (hblock n)
      | error e => rfl

theorem block_yields {w : Written.Block} {ws : List Written.Block} (hw : w.Plain) (hc : c.On src.text)
    (hrest : c.rest = w.text ++ Written.separated ws) :
    ∃ b c', block.Reads c b c' ∧ b.Spells src w ∧ c'.On src.text ∧ c'.skipBlank.rest = Written.program ws := by
  rw [Written.block_text_append] at hrest
  have hword : Yields src (keyword blockWord) (fun s => src.slice s = .ok blockWord) c _ :=
    token_yields hc hrest (keyword_eq_ok_iff.2 ⟨⟨List.prefix_append _ _, by rintro _ ⟨⟩; decide⟩, rfl⟩)
  obtain ⟨s, m, hs, -, hm, hrest₁⟩ := hword
  obtain ⟨s', m', hs', hname, hm', hrest₂⟩ :=
    name_yields hw.name hm hrest₁ (Written.breaks_newline _).endsWord
  have hend : Yields src eol (fun e => src.slice e = .ok [newline]) m' _ :=
    token_yields hm' hrest₂ (eol_newline _)
  obtain ⟨e, m'', he, -, hm'', hrest₃⟩ := hend
  obtain ⟨ss, last, c', hlines, hss, hc', hskip⟩ := lines_yield hw.stmts hm'' hrest₃
  exact ⟨_, c', reads_block.2 ⟨s', m'', ss, last, reads_header.2 ⟨s, m, m', e, hs, hs', he⟩, hlines, rfl⟩,
    ⟨hname, hss⟩, hc', hskip⟩

theorem blocks_yield {ws : List Written.Block} (hws : ∀ w ∈ ws, w.Plain) (hc : c.On src.text)
    (hrest : c.rest = Written.program ws) :
    ∃ bs c', Blocks c bs c' ∧ List.Forall₂ (Tree.Block.Spells src) bs ws := by
  induction ws generalizing c with
  | nil => exact ⟨[], c, .nil hrest, .nil⟩
  | cons w ws ih =>
    obtain ⟨hw, hws⟩ := List.forall_mem_cons.1 hws
    rw [Written.program_cons] at hrest
    obtain ⟨b, m, hb, hspells, hm, hrest'⟩ := block_yields hw hc hrest
    obtain ⟨bs, c', hbs, hspell⟩ := ih hws hm.skipBlank hrest'
    exact ⟨b :: bs, c', .cons hb hbs, .cons hspells hspell⟩

end Program

/-- **A printed program is read as what was printed.** -/
theorem Source.parse_yields (src : Source) {ws : List Written.Block} (hws : ∀ w ∈ ws, w.Plain)
    (htext : src.text = Written.program ws) :
    ∃ f, src.parse = .ok f ∧ List.Forall₂ (Tree.Block.Spells src) f.blocks ws := by
  have hstart : (Cursor.ofText src.text).skipBlank.rest = Written.program ws :=
    Cursor.rest_skipBlank (x := []) htext (by simp) (Written.program_startsFull ws)
  obtain ⟨bs, c', hbs, hspell⟩ := Program.blocks_yield hws (Cursor.on_ofText _).skipBlank hstart
  exact ⟨⟨⟨0, c'.offset⟩, bs⟩, Source.parse_eq_ok_iff.2 ⟨c', Program.reads_file.2 ⟨hbs, rfl⟩⟩, hspell⟩

end Straightline
