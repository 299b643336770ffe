/-
  Newlines in statements.

  Between the words of a statement stand spaces, tabs and an equals sign, and no word has a newline
  in it but a string, where a backslash takes along whatever follows.  So a statement stands on one
  line, up to the newlines that its strings escape.  Such a string is no literal, so a statement that
  is lowered stands on one line.

  * `Lexical.IsString.getElem?_eq_newline_iff`: the newlines of a string;
  * `Parser.Words`: every newline that a parser passes stands in one of the words that it reads,
    with one lemma for each way to put parsers together;
  * `Quoted.newline_not_mem_body`: literals have no newlines;
  * `Source.parse_breaks`: the newlines in the statements of a source.
-/
import Mathlib
import Straightline.Proofs.Nesting
import Straightline.Proofs.Concatenation
import Straightline.Proofs.Loading

namespace Straightline

/-! ## Strings -/

namespace Lexical

open Quoted (quote backslash)

variable {x : Text} {k : Nat}

/-- A newline between quotes is one that a backslash takes along. -/
theorem StringBody.newline_escaped (h : StringBody x) (hk : x[k]? = some newline) :
    ∃ y z, x = y ++ backslash :: newline :: z ∧ StringBody y ∧ StringBody z ∧ k = y.length + 1 := by
  induction h generalizing k with
  | nil => cases hk
  | @escape b x hx ih =>
    rcases k with _ | _ | k
    · cases hk
    · obtain rfl : b = newline := Option.some.inj hk
      exact ⟨[], x, rfl, .nil, hx, rfl⟩
    · obtain ⟨y, z, rfl, hy, hz, rfl⟩ := ih hk
      exact ⟨backslash :: b :: y, z, rfl, .escape hy, hz, rfl⟩
  | @plain b x hquote hback hline _ ih =>
    rcases k with _ | k
    · exact absurd (Option.some.inj hk) hline
    · obtain ⟨y, z, rfl, hy, hz, rfl⟩ := ih hk
      exact ⟨b :: y, z, rfl, .plain hquote hback hline hy, hz, rfl⟩

theorem IsString.getElem?_eq_newline_iff (h : IsString x) : x[k]? = some newline ↔
    ∃ y z, x = quote :: (y ++ backslash :: newline :: (z ++ [quote])) ∧ StringBody y ∧ StringBody z ∧
      k = y.length + 2 := by
  constructor
  · intro hk
    obtain ⟨body, rfl, hbody⟩ := h
    rcases k with _ | k
    · cases hk
    rw [List.getElem?_cons_succ] at hk
    rcases Nat.lt_or_ge k body.length with hlt | hle
    · rw [List.getElem?_append_left hlt] at hk
      obtain ⟨y, z, rfl, hy, hz, rfl⟩ := hbody.newline_escaped hk
      exact ⟨y, z, by simp, hy, hz, rfl⟩
    · rw [List.getElem?_append_right hle] at hk
      have hquote : newline = quote := List.mem_singleton.1 (List.mem_of_getElem? hk)
      cases hquote
  · rintro ⟨y, z, rfl, -, -, rfl⟩
    simp

end Lexical

/-! ## Newlines in spans -/

/-- A newline stands at the offset, in the span. -/
def Span.BreaksAt (t : Text) (s : Span) (k : Nat) : Prop :=
  s.start ≤ k ∧ k < s.stop ∧ t[k]? = some newline

section
variable {t x r : Text} {c : Cursor} {k : Nat}

theorem Span.BreaksAt.split {lo hi : Int} (h : (Span.mk lo hi).BreaksAt t k) (mid : Int) :
    (Span.mk lo mid).BreaksAt t k ∨ (Span.mk mid hi).BreaksAt t k := by
  obtain ⟨hlo, hhi, hk⟩ := h
  rcases lt_or_ge (k : Int) mid with hmid | hmid
  · exact .inl ⟨hlo, hmid, hk⟩
  · exact .inr ⟨hmid, hhi, hk⟩

theorem Span.BreaksAt.mono {s : Span} {lo hi : Int} (h : s.BreaksAt t k) (hs : s.Within lo hi) :
    (Span.mk lo hi).BreaksAt t k :=
  ⟨hs.1.trans h.1, h.2.1.trans_le hs.2.2, h.2.2⟩

theorem not_breaksAt_self (n : Int) (k : Nat) : ¬ (Span.mk n n).BreaksAt t k :=
  fun h => absurd (h.1.trans_lt h.2.1) (lt_irrefl n)

/-- The newlines that stand in the next bytes. -/
theorem breaksAt_iff (hc : c.On t) (hrest : c.rest = x ++ r) :
    (Span.mk c.offset (c.offset + x.length : Nat)).BreaksAt t k ↔
      ∃ j, k = c.offset + j ∧ x[j]? = some newline := by
  have hget : ∀ j, t[c.offset + j]? = (x ++ r)[j]? := fun j => by
    rw [← hrest, hc.rest, List.getElem?_drop]
  constructor
  · rintro ⟨hlo, hhi, hk⟩
    simp only at hlo hhi
    obtain ⟨j, rfl⟩ := Nat.exists_eq_add_of_le (Int.ofNat_le.1 hlo)
    rw [hget, List.getElem?_append_left (by omega)] at hk
    exact ⟨j, rfl, hk⟩
  · rintro ⟨j, rfl, hj⟩
    have hlt : j < x.length := (List.getElem?_eq_some_iff.1 hj).1
    refine ⟨by simp, by simp only; omega, ?_⟩
    rw [hget, List.getElem?_append_left hlt, hj]

theorem not_breaksAt (hc : c.On t) (hrest : c.rest = x ++ r) (hx : newline ∉ x) :
    ¬ (Span.mk c.offset (c.offset + x.length : Nat)).BreaksAt t k := by
  rw [breaksAt_iff hc hrest]
  rintro ⟨j, -, hj⟩
  exact hx (List.mem_of_getElem? hj)

/-- Spaces and tabs are on one line. -/
theorem skip_not_breaksAt (hc : c.On t) : ¬ (Span.mk c.offset (c.skip .tab).offset).BreaksAt t k := by
  refine not_breaksAt hc (List.takeWhile_append_dropWhile (p := Spaces.tab.contains)).symm fun hmem => ?_
  have hblank : Spaces.tab.contains newline = true := List.mem_takeWhile_imp hmem
  revert hblank
  decide +kernel

end

/-- The newline at the offset is one that a backslash of the string takes along. -/
def Source.EscapesAt (src : Source) (s : Span) (k : Nat) : Prop :=
  ∃ y z, src.slice s =
      .ok (Quoted.quote :: (y ++ Quoted.backslash :: newline :: (z ++ [Quoted.quote]))) ∧
    Lexical.StringBody y ∧ Lexical.StringBody z ∧ (k : Int) = s.start + (y.length + 2 : Nat)

namespace Tree

/-- A newline stands at the offset, in the argument. -/
def Arg.BreaksAt (t : Text) (a : Arg) (k : Nat) : Prop :=
  ∃ s ∈ a.own, s.BreaksAt t k

/-- A newline stands at the offset, in the statement. -/
def Stmt.BreaksAt (t : Text) (st : Stmt) (k : Nat) : Prop :=
  ∃ s ∈ st.own, s.BreaksAt t k

/-- The words of an instruction. -/
def Instr.words (i : Instr) : List Arg :=
  i.dst.toList.map .ident ++ .ident i.op :: i.args

/-- The words of a directive, without the one that it starts with. -/
def Directive.words (d : Directive) : List Arg :=
  d.temps.map .ident

/-- The words of a statement. -/
def Stmt.words : Stmt → List Arg
  | instr i => i.words
  | live d | out d => d.words
  | stray _ => []

/-- The newlines in the argument are those that it escapes, if it is a string. -/
def Arg.Kept (src : Source) (a : Arg) : Prop :=
  ∀ k, a.BreaksAt src.text k ↔ ∃ s, a = .string s ∧ src.EscapesAt s k

theorem Directive.mem_spans {a : Arg} {s : Span} (d : Directive) (ha : a ∈ d.words) (hs : s ∈ a.own) :
    s ∈ d.span :: d.temps := by
  obtain ⟨r, hr, rfl⟩ := List.mem_map.1 ha
  rw [List.mem_singleton.1 hs]
  exact List.mem_cons_of_mem _ hr

theorem Stmt.mem_spans {st : Stmt} {a : Arg} {s : Span} (ha : a ∈ st.words) (hs : s ∈ a.own) : s ∈ st.spans := by
  cases st with
  | instr i =>
    refine List.mem_cons_of_mem _ ?_
    simp only [words, Instr.words, List.mem_append, List.mem_map, List.mem_cons] at ha
    rcases ha with ⟨r, hr, rfl⟩ | rfl | ha
    · rw [List.mem_singleton.1 hs]
      exact List.mem_append_left _ hr
    · rw [List.mem_singleton.1 hs]
      exact List.mem_append_right _ List.mem_cons_self
    · exact List.mem_append_right _ (List.mem_cons_of_mem _ (List.mem_flatMap.2 ⟨a, ha, hs⟩))
  | live d => exact d.mem_spans ha hs
  | out d => exact d.mem_spans ha hs
  | stray n => cases ha

end Tree

/-! ## What parsers pass -/

/-- The newlines of the words are escaped in strings, and every newline between the offsets stands
    in one of the words. -/
structure Passes (src : Source) (lo : Int) (ws : List Tree.Arg) (hi : Int) : Prop where
  kept : ∀ w ∈ ws, w.Kept src
  covered : ∀ k, (Span.mk lo hi).BreaksAt src.text k → ∃ w ∈ ws, w.BreaksAt src.text k

namespace Passes

variable {src : Source} {lo mid hi : Int} {ws ws' : List Tree.Arg}

theorem nil (h : ∀ k, ¬ (Span.mk lo hi).BreaksAt src.text k) : Passes src lo [] hi :=
  ⟨by simp, fun k hk => absurd hk (h k)⟩

theorem append (h : Passes src lo ws mid) (h' : Passes src mid ws' hi) : Passes src lo (ws ++ ws') hi := by
  refine ⟨List.forall_mem_append.2 ⟨h.kept, h'.kept⟩, fun k hk => ?_⟩
  rcases hk.split mid with hk | hk
  · obtain ⟨w, hw, hbreak⟩ := h.covered k hk
    exact ⟨w, List.mem_append_left _ hw, hbreak⟩
  · obtain ⟨w, hw, hbreak⟩ := h'.covered k hk
    exact ⟨w, List.mem_append_right _ hw, hbreak⟩

end Passes

namespace Parser

variable {α : Type} {src : Source} {p : Parser α} {f : α → List Tree.Arg} {c c' : Cursor}

/-- Every newline that the parser passes is one that a string among the words that it reads
    escapes. -/
def Words (src : Source) (p : Parser α) (f : α → List Tree.Arg) : Prop :=
  ∀ ⦃c a c'⦄, c.On src.text → p.Reads c a c' → Passes src c.offset (f a) c'.offset

theorem Words.spaced (h : Words src p f) (k : Kind) : Words src (spaced .tab k p) f := by
  intro c a c' hc hread
  have hskip : Passes src c.offset [] (c.skip .tab).offset := .nil fun _ => skip_not_breaksAt hc
  exact hskip.append (h (hc.skip .tab) (reads_spaced.1 hread))

theorem Words.repeats (h : Words src p f) (hp : p.Bounded) {as : List α} (hc : c.On src.text)
    (hreads : Repeats p.Reads c as c') : Passes src c.offset (as.flatMap f) c'.offset := by
  induction hreads with
  | nil c => exact .nil (not_breaksAt_self _)
  | @cons c m c' a as head tail ih =>
    rw [List.flatMap_cons]
    exact (h hc head).append (ih ((hp.reaches head).on hc))

theorem Words.many (h : Words src p f) (hp : p.Bounded) (hadv : p.Advances) :
    Words src (many p) (List.flatMap f) := by
  intro c as c' hc hread
  exact h.repeats hp hc ((reads_many hadv).1 hread).1

end Parser

namespace Program

open Straightline.Parser

variable {src : Source} {c c' : Cursor}

/-- A word is all that its parser passes. -/
theorem words_token {scan : Text → Token.Scan} {f : Span → Tree.Arg} (hown : ∀ s, (f s).own = [s])
    (hkept : ∀ ⦃c : Cursor⦄ ⦃n⦄, c.On src.text → scan c.rest = .ok n →
      (f ⟨c.offset, (c.offset + n : Nat)⟩).Kept src) : Words src (token scan) fun s => [f s] := by
  intro c s c' hc h
  obtain ⟨n, hn, rfl, rfl⟩ := reads_token.1 h
  refine ⟨List.forall_mem_singleton.2 (hkept hc hn), fun k hk => ⟨_, List.mem_singleton.2 rfl, ?_⟩⟩
  rw [Tree.Arg.BreaksAt, hown]
  exact ⟨_, List.mem_singleton.2 rfl, hk⟩

/-- A scanner of words without newlines. -/
def Flat (scan : Text → Token.Scan) : Prop :=
  ∀ ⦃s n⦄, scan s = .ok n → ∃ x r, s = x ++ r ∧ n = x.length ∧ newline ∉ x

theorem words_flat {scan : Text → Token.Scan} {f : Span → Tree.Arg} (hown : ∀ s, (f s).own = [s])
    (hplain : ∀ s s', f s ≠ .string s') (hscan : Flat scan) : Words src (token scan) fun s => [f s] := by
  refine words_token hown fun c n hc hn k => ?_
  obtain ⟨x, r, hrest, rfl, hx⟩ := hscan hn
  refine iff_of_false ?_ ?_
  · rintro ⟨s, hs, hbreak⟩
    rw [hown, List.mem_singleton] at hs
    subst hs
    exact not_breaksAt hc hrest hx hbreak
  · rintro ⟨s, hs, -⟩
    exact hplain _ s hs

/-- A word that leaves nothing behind, such as the one that starts a directive. -/
theorem words_sign {scan : Text → Token.Scan} (hscan : Flat scan) : Words src (token scan) fun _ => [] := by
  intro c s c' hc h
  obtain ⟨n, hn, rfl, rfl⟩ := reads_token.1 h
  obtain ⟨x, r, hrest, rfl, hx⟩ := hscan hn
  exact .nil fun _ => not_breaksAt hc hrest hx

theorem words_ident : Words src ident fun s => [.ident s] := by
  refine words_flat (fun _ => rfl) (fun _ _ h => by cases h) fun s n h => ?_
  obtain ⟨x, r, rfl, rfl, hx, -⟩ := Token.ident_eq_ok_iff.1 h
  exact ⟨x, r, rfl, rfl, Derivation.newline_not_mem_ident hx⟩

theorem words_int : Words src int fun s => [.int s] := by
  refine words_flat (fun _ => rfl) (fun _ _ h => by cases h) fun s n h => ?_
  obtain ⟨x, r, rfl, rfl, hx, -⟩ := Lexical.int_eq_ok_iff.1 h
  exact ⟨x, r, rfl, rfl, Derivation.newline_not_mem_int hx⟩

theorem words_string : Words src string fun s => [.string s] := by
  refine words_token (fun _ => rfl) fun c n hc hn k => ?_
  obtain ⟨x, r, hrest, rfl, hx⟩ := Lexical.string_eq_ok_iff.1 hn
  have hslice : src.slice ⟨c.offset, (c.offset + x.length : Nat)⟩ = .ok x := by
    rw [slice_of_on hc (by simp [hrest]), hrest, List.take_left]
  constructor
  · rintro ⟨s, hs, hbreak⟩
    rw [List.mem_singleton.1 hs, breaksAt_iff hc hrest] at hbreak
    obtain ⟨j, rfl, hj⟩ := hbreak
    obtain ⟨y, z, hsplit, hy, hz, rfl⟩ := hx.getElem?_eq_newline_iff.1 hj
    exact ⟨_, rfl, y, z, hsplit ▸ hslice, hy, hz, by simp⟩
  · rintro ⟨_, ⟨⟩, y, z, htext, hy, hz, hk⟩
    have hsplit := Except.ok.inj (hslice.symm.trans htext)
    simp only at hk
    refine ⟨_, List.mem_singleton.2 rfl, (breaksAt_iff hc hrest).2 ⟨y.length + 2, by omega, ?_⟩⟩
    exact hx.getElem?_eq_newline_iff.2 ⟨y, z, hsplit, hy, hz, rfl⟩

theorem words_const {w : Text} (hw : newline ∉ w) : Words src (const w) fun _ => [] := by
  refine words_sign fun s n h => ?_
  obtain ⟨⟨r, rfl⟩, rfl⟩ := Token.const_eq_ok_iff.1 h
  exact ⟨w, r, rfl, rfl, hw⟩

theorem words_keyword {w : Text} (hw : newline ∉ w) : Words src (keyword w) fun _ => [] := by
  refine words_sign fun s n h => ?_
  obtain ⟨⟨r, rfl, -⟩, rfl⟩ := Lexical.keyword_iff.1 h
  exact ⟨w, r, rfl, rfl, hw⟩

theorem words_name : Words src name fun s => [.ident s] :=
  words_ident.spaced .ident

theorem words_names : Words src (many name) (List.map .ident) := by
  intro c ss c' hc h
  have hpass := words_name.many bounded_name advances_name hc h
  rwa [← List.map_eq_flatMap] at hpass

theorem words_arg : Words src arg fun a => [a] := by
  intro c a c' hc h
  rcases reads_arg h with ⟨s, hs, rfl⟩ | ⟨s, hs, rfl⟩ | ⟨s, hs, rfl⟩
  · exact words_ident hc hs
  · exact words_int hc hs
  · exact words_string hc hs

theorem words_args : Words src (many (spaced .tab .arg arg)) id := by
  intro c as c' hc h
  have hpass := (words_arg.spaced .arg).many (bounded_arg.spaced .tab .arg) advances_arg.spaced hc h
  rwa [List.flatMap_singleton'] at hpass

theorem words_operator : Words src operator fun s => [.ident s] := by
  intro c s c' hc h
  obtain ⟨e, m, heq, hname⟩ := reads_context.1 h
  have hm := ((bounded_const _).spaced .tab .const).reaches heq
  have hsign := (words_const (by decide)).spaced .const hc heq
  exact hsign.append (words_name (hm.on hc) hname)

theorem words_instr : Words src instr Tree.Instr.words := by
  intro c i c' hc h
  obtain ⟨head, m, op, m', args, hhead, hop, hargs, rfl⟩ := reads_instr.1 h
  have hm := (bounded_ident.reaches hhead).on hc
  have hm' := (bounded_operator.optional.reaches hop).on hm
  have hfirst := words_ident hc hhead
  have hrest := words_args hm' hargs
  rcases reads_optional.1 hop with ⟨s, rfl, hs⟩ | ⟨rfl, rfl, -⟩
  · exact hfirst.append ((words_operator hm hs).append hrest)
  · exact hfirst.append hrest

theorem words_directive {w : Text} (hw : newline ∉ w) : Words src (directive w) Tree.Directive.words := by
  intro c d c' hc h
  obtain ⟨s, m, ss, hword, hnames, rfl⟩ := reads_directive.1 h
  have hm := ((bounded_keyword w).reaches hword).on hc
  exact (words_keyword hw hc hword).append (words_names hm hnames)

theorem words_stmt : Words src stmt Tree.Stmt.words := by
  intro c s c' hc h
  rcases reads_stmt h with ⟨d, hd, rfl⟩ | ⟨d, hd, rfl⟩ | ⟨i, hi, rfl, -⟩
  · exact words_directive (w := Derivation.liveWord) (Derivation.newline_not_mem _ (by simp)) hc hd
  · exact words_directive (w := Derivation.outWord) (Derivation.newline_not_mem _ (by simp)) hc hd
  · exact words_instr hc hi

theorem own_of_reads {s : Tree.Stmt} (h : stmt.Reads c s c') : s.own = [⟨c.offset, c'.offset⟩] := by
  rcases reads_stmt h with ⟨d, hd, rfl⟩ | ⟨d, hd, rfl⟩ | ⟨i, hi, rfl, -⟩
  · obtain ⟨_, _, _, -, -, rfl⟩ := reads_directive.1 hd
    rfl
  · obtain ⟨_, _, _, -, -, rfl⟩ := reads_directive.1 hd
    rfl
  · obtain ⟨_, _, _, _, _, -, -, -, rfl⟩ := reads_instr.1 hi
    rfl

/-- A statement has the newlines of its words. -/
theorem stmt_breaksAt_iff {s : Tree.Stmt} (hc : c.On src.text) (h : stmt.Reads c s c') {k : Nat} :
    s.BreaksAt src.text k ↔ ∃ a ∈ s.words, a.BreaksAt src.text k := by
  rw [Tree.Stmt.BreaksAt, own_of_reads h]
  constructor
  · rintro ⟨r, hr, hk⟩
    rw [List.mem_singleton.1 hr] at hk
    exact (words_stmt hc h).covered k hk
  · rintro ⟨a, ha, r, hr, hk⟩
    obtain ⟨hnested, hlaid⟩ := lays_stmt hc h
    have hwithin := hnested.within (fun _ hs => hlaid.within hs) r (Tree.Stmt.mem_spans ha hr)
    exact ⟨_, List.mem_singleton.2 rfl, hk.mono hwithin⟩

/-! ## Statements of a source -/

/-- Every statement of a block was read somewhere in the text. -/
theorem reads_of_lines {t : Text} {ss : List Tree.Stmt} {last : Nat} (hc : c.On t) (h : Lines c ss last c') :
    ∀ s ∈ ss, ∃ m m', m.On t ∧ stmt.Reads m s m' := by
  induction h with
  | atEnd => simp
  | atBlock => simp
  | @line c m c' s ss last _ _ head tail ih =>
    obtain ⟨n, e, hs, he⟩ := reads_stmtLine.1 head
    have hstart := hc.skipBlank
    have hn := (bounded_stmt.reaches hs).on hstart
    exact List.forall_mem_cons.2 ⟨⟨_, n, hstart, hs⟩, ih ((bounded_eol.reaches he).on hn)⟩

theorem reads_of_block {t : Text} {b : Tree.Block} (hc : c.On t) (h : block.Reads c b c') :
    ∀ s ∈ b.stmts, ∃ m m', m.On t ∧ stmt.Reads m s m' := by
  obtain ⟨s, m, ss, last, hheader, hlines, rfl⟩ := reads_block.1 h
  obtain ⟨w, m₁, m₂, e, hw, hname, he⟩ := reads_header.1 hheader
  have hm₁ := ((bounded_keyword blockWord).reaches hw).on hc
  have hm₂ := (bounded_name.reaches hname).on hm₁
  exact reads_of_lines ((bounded_eol.reaches he).on hm₂) hlines

theorem reads_of_blocks {t : Text} {bs : List Tree.Block} (hc : c.On t) (h : Blocks c bs c') :
    ∀ b ∈ bs, ∀ s ∈ b.stmts, ∃ m m', m.On t ∧ stmt.Reads m s m' := by
  induction h with
  | nil => simp
  | @cons c m c' b bs head tail ih =>
    have hm := ((bounded_block.reaches head).on hc).skipBlank
    exact List.forall_mem_cons.2 ⟨reads_of_block hc head, ih hm⟩

end Program

/-! ## Literals -/

namespace Quoted

variable {s t u : Text} {mark : UInt8} {n : Nat}

theorem newline_not_mem_digits {value? : UInt8 → Option Nat} {base count acc v : Nat}
    (hvalue : value? newline = none) (h : digits? value? base count acc s = some v) :
    newline ∉ s.take count := by
  induction count generalizing acc s with
  | zero => simp
  | succ count ih =>
    rcases s with _ | ⟨b, s⟩
    · simp
    · obtain ⟨w, hw, h⟩ := Option.bind_eq_some_iff.1 h
      rw [List.take_succ_cons, List.mem_cons, not_or]
      refine ⟨?_, ih h⟩
      rintro rfl
      rw [hvalue] at hw
      cases hw

/-- A letter and hexadecimal digits. -/
theorem newline_not_mem_hex {b : UInt8} {count v : Nat} (hb : newline ≠ b)
    (h : digits? hexValue? 16 count 0 s = some v) : newline ∉ (b :: s).take (count + 1) := by
  rw [List.take_succ_cons, List.mem_cons, not_or]
  exact ⟨hb, newline_not_mem_digits (by decide) h⟩

theorem newline_not_mem_escape (hmark : mark ≠ newline) (h : escape? mark s = some (t, n)) :
    newline ∉ s.take n := by
  revert h
  fun_cases escape? mark s with
  | case1 =>
    intro h
    cases h
  | case10 s =>
    intro h
    obtain ⟨v, hv, h⟩ := Option.bind_eq_some_iff.1 h
    cases h
    exact newline_not_mem_hex (by decide) hv
  | case11 s | case12 s =>
    intro h
    obtain ⟨v, hv, h⟩ := Option.bind_eq_some_iff.1 h
    obtain ⟨c, -, h⟩ := Option.bind_eq_some_iff.1 h
    cases h
    exact newline_not_mem_hex (by decide) hv
  | case13 s =>
    intro h
    rw [if_pos rfl] at h
    cases h
    simpa using hmark.symm
  | case14 b s hb =>
    intro h
    rw [if_neg hb] at h
    obtain ⟨v, hv, h⟩ := Option.bind_eq_some_iff.1 h
    by_cases hlt : v < 256
    · rw [if_pos hlt] at h
      cases h
      exact newline_not_mem_digits (by decide) hv
    · rw [if_neg hlt] at h
      cases h
  | _ =>
    intro h
    cases h
    rw [List.take_succ_cons, List.take_zero]
    decide

theorem newline_not_mem_element (hmark : mark ≠ newline) (h : element? mark s = some (t, n)) :
    0 < n ∧ newline ∉ s.take n := by
  rcases s with _ | ⟨b, s⟩
  · cases h
  rw [element?] at h
  by_cases hend : b = mark ∨ b = newline
  · rw [if_pos hend] at h
    cases h
  have hb : newline ≠ b := fun hb => hend (.inr hb.symm)
  rw [if_neg hend] at h
  by_cases hback : b = backslash
  · rw [if_pos hback] at h
    obtain ⟨⟨t, m⟩, hesc, h⟩ := Option.map_eq_some_iff.1 h
    cases h
    rw [List.take_succ_cons, List.mem_cons, not_or]
    exact ⟨Nat.succ_pos m, hb, newline_not_mem_escape hmark hesc⟩
  · rw [if_neg hback] at h
    rcases hdec : Rune.decode? (b :: s) with _ | ⟨c, m⟩
    · rw [hdec] at h
      cases h
      exact ⟨Nat.one_pos, by simpa using hb⟩
    · rw [hdec] at h
      cases h
      obtain ⟨r, hsplit, rfl⟩ := Rune.decode?_eq_some_iff.1 hdec
      rw [hsplit, List.take_left]
      -- A character in ASCII is its first byte, and the bytes of all others are high.
      refine ⟨List.length_pos_iff.2 (Rune.encode_ne_nil c), fun hmem => ?_⟩
      rcases Nat.lt_or_ge c.toNat 0x80 with hc | hc
      · rw [Rune.encode_one hc] at hsplit hmem
        injection hsplit with hsplit
        exact hb ((List.mem_singleton.1 hmem).trans hsplit.symm)
      · have hhigh := Rune.le_of_mem_encode hc hmem
        revert hhigh
        decide

/-- What is read between quotes has no newline. -/
theorem newline_not_mem_body (h : bodyAfter? 0 s = some u) : newline ∉ s := by
  -- By induction on the length, since each character takes along some bytes.
  induction hn : s.length using Nat.strong_induction_on generalizing s u with
  | _ n ih =>
    rcases s with _ | ⟨b, s⟩
    · simp
    rw [bodyAfter?] at h
    by_cases hb : b = quote
    · rw [if_pos hb] at h
      rcases s with _ | ⟨b', s⟩
      · rw [hb]
        decide
      · cases h
    · rw [if_neg hb] at h
      obtain ⟨⟨t, m⟩, helement, h⟩ := Option.bind_eq_some_iff.1 h
      obtain ⟨v, hrest, -⟩ := Option.bind_eq_some_iff.1 h
      rw [bodyAfter?_eq] at hrest
      obtain ⟨hpos, hfront⟩ := newline_not_mem_element (by decide) helement
      have hback := ih _ (by rw [← hn, List.length_drop, List.length_cons]; omega) hrest rfl
      rw [← Nat.succ_pred_eq_of_pos hpos, List.take_succ_cons, List.mem_cons, not_or] at hfront
      rw [List.mem_cons, ← List.take_append_drop (m - 1) s, List.mem_append, not_or, not_or]
      exact ⟨hfront.1, hfront.2, hback⟩

end Quoted
/-- The strings of an instruction that is lowered are literals. -/
theorem Written.Instr.Means.unquoted {w : Written.Instr} {n : NamedInstr} (h : w.Means n) {x : Text}
    (hx : .string x ∈ w.args) : ∃ s, unquoted? x = some s := by
  obtain ⟨extra, hargs, hextra⟩ := h.args
  rw [hargs, List.mem_append, List.mem_map] at hx
  rcases hx with ⟨_, -, hx⟩ | hx
  · cases hx
  rcases extra with _ | ⟨a, _ | ⟨_, _⟩⟩
  · cases hx
  · obtain rfl := List.mem_singleton.1 hx
    cases hop : n.op.extra with
    | string =>
      rw [hop] at hextra
      exact ⟨_, hextra.2⟩
    | _ =>
      rw [hop] at hextra
      exact hextra.elim
  · have hlen := hextra.length_eq
    rw [List.length_cons, List.length_cons] at hlen
    split at hlen
    · cases hlen
    · omega

theorem Draft.Steps.means {d d' : Draft} {ws : List Written.Stmt} (h : d.Steps ws d') {w : Written.Instr}
    (hw : .instr w ∈ ws) : ∃ n, w.Means n := by
  induction h with
  | nil => cases hw
  | cons head _ ih =>
    rcases List.mem_cons.1 hw with rfl | hw
    · cases head with
      | instr h => exact ⟨_, h⟩
    · exact ih hw

namespace Source

open Straightline.Program

variable {src : Source} {f : Tree.File}

theorem exists_reads (h : src.parse = .ok f) {b : Tree.Block} (hb : b ∈ f.blocks) {s : Tree.Stmt}
    (hs : s ∈ b.stmts) : ∃ c c', c.On src.text ∧ stmt.Reads c s c' := by
  obtain ⟨c', hfile⟩ := parse_eq_ok_iff.1 h
  obtain ⟨hblocks, -⟩ := reads_file.1 hfile
  exact reads_of_blocks (Cursor.on_ofText src.text).skipBlank hblocks b hb s hs

/-- A string that is lowered escapes no newline. -/
theorem not_escapesAt {bs : List LoweredBlock} (h : src.parse = .ok f) (hlower : src.lower f = .ok bs)
    {b : Tree.Block} (hb : b ∈ f.blocks) {s : Tree.Stmt} (hs : s ∈ b.stmts) {r : Span}
    (hr : .string r ∈ s.words) (k : Nat) : ¬ src.EscapesAt r k := by
  rintro ⟨y, z, hslice, -⟩
  obtain ⟨ws, hspell, -⟩ := parse_spells h
  obtain ⟨⟨ds, hdrafts, -⟩, -⟩ := Lowering.blocks_sound hspell hlower
  obtain ⟨wb, hwb, hbs⟩ := exists_of_forall₂_left hspell hb
  obtain ⟨d, -, hd⟩ := exists_of_forall₂_left hdrafts hwb
  obtain ⟨st, hmemSt, hst⟩ := exists_of_forall₂_left hbs.stmts hs
  cases hst with
  | @instr i w hi =>
    have hmem : .string r ∈ i.args := by simpa [Tree.Stmt.words, Tree.Instr.words] using hr
    obtain ⟨v, hv, harg⟩ := exists_of_forall₂_left hi.args hmem
    cases harg with
    | string htext =>
      obtain ⟨n, hn⟩ := Draft.Steps.means hd hmemSt
      obtain ⟨u, hu⟩ := hn.unquoted hv
      rw [Except.ok.inj (htext.symm.trans hslice), unquoted?, if_pos rfl] at hu
      exact Quoted.newline_not_mem_body hu (by simp)
  | live => simp [Tree.Stmt.words, Tree.Directive.words] at hr
  | out => simp [Tree.Stmt.words, Tree.Directive.words] at hr

/-- **Newlines in statements.**  The newlines in a statement are those that its strings escape, and
    no other word has one.  A source with such a newline is not lowered. -/
theorem parse_breaks (h : src.parse = .ok f) :
    (∀ b ∈ f.blocks, ∀ s ∈ b.stmts,
      (∀ k, s.BreaksAt src.text k ↔ ∃ r, .string r ∈ s.words ∧ src.EscapesAt r k) ∧
        ∀ a ∈ s.words, ∀ k, a.BreaksAt src.text k ↔ ∃ r, a = .string r ∧ src.EscapesAt r k) ∧
      ∀ bs, src.lower f = .ok bs → ∀ b ∈ f.blocks, ∀ s ∈ b.stmts, ∀ k, ¬ s.BreaksAt src.text k := by
  have hbreaks : ∀ b ∈ f.blocks, ∀ s ∈ b.stmts, (∀ a ∈ s.words, a.Kept src) ∧
      ∀ k, s.BreaksAt src.text k ↔ ∃ r, .string r ∈ s.words ∧ src.EscapesAt r k := by
    intro b hb s hs
    obtain ⟨c, c', hc, hread⟩ := exists_reads h hb hs
    have hkept := (words_stmt hc hread).kept
    refine ⟨hkept, fun k => ?_⟩
    rw [stmt_breaksAt_iff hc hread]
    constructor
    · rintro ⟨a, ha, hk⟩
      obtain ⟨r, rfl, hr⟩ := (hkept a ha k).1 hk
      exact ⟨r, ha, hr⟩
    · rintro ⟨r, hr, hk⟩
      exact ⟨_, hr, (hkept _ hr k).2 ⟨r, rfl, hk⟩⟩
  refine ⟨fun b hb s hs => (hbreaks b hb s hs).symm, fun bs hlower b hb s hs k hk => ?_⟩
  obtain ⟨r, hr, hescape⟩ := ((hbreaks b hb s hs).2 k).1 hk
  exact not_escapesAt h hlower hb hs hr k hescape

/-- A string with a newline behind a backslash. -/
def brokenText : Text := utf8 "block b\n\ts = strconst \"a\\\nb\"\n"

def brokenInstr : Tree.Instr := ⟨⟨9, 28⟩, some ⟨9, 10⟩, ⟨13, 21⟩, [.string ⟨22, 28⟩]⟩

def brokenFile : Tree.File := ⟨⟨0, 29⟩, [⟨⟨0, 29⟩, ⟨6, 7⟩, [.instr brokenInstr]⟩]⟩

theorem parse_brokenText : (ofText [] brokenText).parse = .ok brokenFile := by cbv

theorem parse_breaks_backslash : (ofText [] brokenText).parse = .ok brokenFile ∧
    (Tree.Stmt.instr brokenInstr).BreaksAt brokenText 25 ∧
      ∀ bs, (ofText [] brokenText).lower brokenFile ≠ .ok bs := by
  obtain ⟨hbreaks, hlower⟩ := parse_breaks parse_brokenText
  obtain ⟨hstmt, -⟩ := hbreaks _ List.mem_cons_self _ List.mem_cons_self
  have hbreak : (Tree.Stmt.instr brokenInstr).BreaksAt brokenText 25 :=
    (hstmt 25).2 ⟨⟨22, 28⟩, by simp [Tree.Stmt.words, Tree.Instr.words, brokenInstr],
      utf8 "a", utf8 "b", by cbv, .plain (by decide) (by decide) (by decide) .nil,
      .plain (by decide) (by decide) (by decide) .nil, by decide⟩
  refine ⟨parse_brokenText, hbreak, fun bs hbs => ?_⟩
  exact hlower bs hbs _ List.mem_cons_self _ List.mem_cons_self 25 hbreak

/-- A statement can have a newline in it. -/
theorem parse_crosses_lines : ¬ ∀ (src : Source) (f : Tree.File), src.parse = .ok f →
    ∀ b ∈ f.blocks, ∀ s ∈ b.stmts, ∀ k, ¬ s.BreaksAt src.text k := by
  intro h
  refine h _ _ parse_brokenText _ List.mem_cons_self _ List.mem_cons_self 25 ?_
  exact ⟨⟨9, 28⟩, List.mem_cons_self, by decide, by decide, by cbv⟩

end Source

end Straightline
