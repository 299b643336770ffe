/-
  Where words end.

  A word such as `live` ends in front of every byte but letters, digits and underscores, while an
  identifier goes on with characters outside ASCII.  So the two agree on where a word ends unless
  such a character follows.

  * `Grammar.keywordAt_iff`, `Grammar.identAt_iff`: what follows a word and an identifier;
  * `Grammar.opens_ident_iff`: when a word stands at the front of an identifier;
  * `Grammar.keyword_boundary`: a word is read where an identifier with this text is, or where a
    byte outside ASCII follows it; and a destination can stand at the front of a line if no word is
    read there.
-/
import Mathlib
import Straightline.Proofs.Bounds
import Straightline.Proofs.Acceptance

namespace Straightline

namespace Grammar

open Straightline.Parser Straightline.Token
open Lexical (Opens WordEnds)
open Program (blockWord)
open Straightline.Derivation (liveWord outWord)

variable {t w x r : Text} {n : Nat}

/-- The word is read at the offset. -/
def KeywordAt (t : Text) (n : Nat) (w : Text) : Prop :=
  ∃ stop node, (keyword w).parseAt t n = .ok ⟨stop, .ok node⟩

/-- An identifier with the text `x` is read at the offset. -/
def IdentAt (t : Text) (n : Nat) (x : Text) : Prop :=
  ident.parseAt t n = .ok ⟨(n + x.length : Nat), .ok (.arg (.ident ⟨n, (n + x.length : Nat)⟩))⟩ ∧
    x <+: t.drop n

/-- The word stands at the offset, and a byte outside ASCII follows it. -/
def RunsOn (t : Text) (n : Nat) (w : Text) : Prop :=
  w <+: t.drop n ∧ ∃ b ∈ (t.drop n)[w.length]?, 0x80 ≤ b

instance : Decidable (RunsOn t n w) :=
  inferInstanceAs (Decidable (_ ∧ _))

/-- The identifier is one of the words that open a line, or it goes on behind one of them with a
    byte outside ASCII. -/
def Shadowed (x : Text) : Prop :=
  ∃ w ∈ [blockWord, liveWord, outWord], w <+: x ∧ ∀ b ∈ x[w.length]?, 0x80 ≤ b

instance : Decidable (Shadowed x) :=
  inferInstanceAs (Decidable (∃ w ∈ [blockWord, liveWord, outWord], _))

theorem keywordAt_iff (hn : n ≤ t.length) : KeywordAt t n w ↔ Opens w (t.drop n) := by
  constructor
  · rintro ⟨stop, node, h⟩
    obtain ⟨c', hread, -⟩ := (parseAt_eq_ok_iff hn).1 h
    obtain ⟨s, hword, -⟩ := reads_map.1 hread
    obtain ⟨k, hk, -⟩ := reads_token.1 hword
    exact (Lexical.keyword_iff.1 hk).1
  · intro h
    have hword := Lexical.keyword_iff.2 ⟨h, rfl⟩
    have hread : (Program.keyword w).Reads (.ofOffset t n) _ _ := reads_token.2 ⟨_, hword, rfl, rfl⟩
    exact ⟨_, _, (parseAt_eq_ok_iff hn).2 ⟨_, reads_map.2 ⟨_, hread, rfl⟩, rfl⟩⟩

/-- A term whose parser wraps what `p` gives reads what `p` reads. -/
theorem parseAt_map_iff {α : Type} {g : Grammar} {f : α → Tree.Node} {p : Parser α} {a : α} {stop : Int}
    (hg : g.parser = f <$> p) (hf : Function.Injective f) (hn : n ≤ t.length) :
    g.parseAt t n = .ok ⟨stop, .ok (f a)⟩ ↔ ∃ c', p.Reads (.ofOffset t n) a c' ∧ stop = c'.offset := by
  rw [parseAt_eq_ok_iff hn, hg]
  refine exists_congr fun c' => and_congr_left fun _ => ?_
  rw [reads_map]
  constructor
  · rintro ⟨b, hread, hb⟩
    rwa [hf hb]
  · intro hread
    exact ⟨a, hread, rfl⟩

/-- What is read as an identifier is one, and no byte of an identifier follows it. -/
theorem isIdent_of_reads {c m : Cursor} {s : Span} (h : Program.ident.Reads c s m)
    (hs : s = ⟨c.offset, (c.offset + x.length : Nat)⟩) (hx : x <+: c.rest) :
    ∃ r, c.rest = x ++ r ∧ IsIdent x ∧ EndsWord r ∧ m = c.advance x.length := by
  obtain ⟨k, hk, rfl, rfl⟩ := reads_token.1 h
  obtain ⟨y, r, hy, rfl, hident, hr⟩ := ident_eq_ok_iff.1 hk
  have hlen : x.length = y.length := by
    injection hs with _ hs
    omega
  have hxy : x = y :=
    (List.prefix_of_prefix_length_le hx ⟨r, hy.symm⟩ hlen.le).eq_of_length hlen
  subst hxy
  exact ⟨r, hy, hident, hr, rfl⟩

theorem parseAt_ident_iff {s : Span} {stop : Int} (hn : n ≤ t.length) :
    ident.parseAt t n = .ok ⟨stop, .ok (.arg (.ident s))⟩ ↔
      ∃ c', Program.ident.Reads (.ofOffset t n) s c' ∧ stop = c'.offset :=
  parseAt_map_iff (f := fun s => .arg (.ident s)) rfl (by rintro _ _ ⟨⟩; rfl) hn

theorem identAt_iff (hn : n ≤ t.length) :
    IdentAt t n x ↔ ∃ r, t.drop n = x ++ r ∧ IsIdent x ∧ EndsWord r := by
  constructor
  · rintro ⟨h, hx⟩
    obtain ⟨c', hread, -⟩ := (parseAt_ident_iff hn).1 h
    obtain ⟨r, hsplit, hident, hr, -⟩ := isIdent_of_reads hread rfl hx
    exact ⟨r, hsplit, hident, hr⟩
  · rintro ⟨r, hsplit, hx, hr⟩
    have hscan : Token.ident (t.drop n) = .ok x.length := by
      rw [hsplit]
      exact ident_append hx hr
    have hread : Program.ident.Reads (.ofOffset t n) _ _ := reads_token.2 ⟨x.length, hscan, rfl, rfl⟩
    exact ⟨(parseAt_ident_iff hn).2 ⟨_, hread, rfl⟩, r, hsplit.symm⟩

/-! ## Words at the front of identifiers -/

theorem isIdentByte_of_high : ∀ b : UInt8, 0x80 ≤ b → isIdentByte b = false :=
  forall_byte (by decide +kernel)

theorem wordEnds_of_endsWord (hr : EndsWord r) : WordEnds r :=
  fun b hb => (hr b hb).2

theorem getElem?_behind : (w ++ r)[w.length]? = r.head? := by
  rw [List.getElem?_append_right le_rfl, Nat.sub_self, List.head?_eq_getElem?]

/-- A word that ends is followed by the end of an identifier or by a byte outside ASCII. -/
theorem opens_iff {s : Text} :
    Opens w s ↔ (∃ r, s = w ++ r ∧ EndsWord r) ∨ (w <+: s ∧ ∃ b ∈ s[w.length]?, 0x80 ≤ b) := by
  constructor
  · rintro ⟨r, rfl, hr⟩
    rcases r with _ | ⟨b, r⟩
    · exact .inl ⟨[], rfl, endsWord_nil⟩
    · by_cases hb : b < 0x80
      · exact .inl ⟨b :: r, rfl, endsWord_cons.2 ⟨hb, hr b rfl⟩⟩
      · exact .inr ⟨List.prefix_append _ _, b, by simp, UInt8.not_lt.1 hb⟩
  · rintro (⟨r, rfl, hr⟩ | ⟨⟨r, rfl⟩, b, hb, hhigh⟩)
    · exact ⟨r, rfl, wordEnds_of_endsWord hr⟩
    · refine ⟨r, rfl, fun b' hb' => ?_⟩
      rw [getElem?_behind] at hb
      obtain rfl := Option.mem_unique hb hb'
      exact isIdentByte_of_high b hhigh

/-- A word stands at the front of an identifier if it is all of it, or if the identifier goes on
    with a byte outside ASCII. -/
theorem opens_ident_iff (hw : ∀ b ∈ w, isIdentByte b = true) (hx : IsIdent x) (hr : EndsWord r) :
    Opens w (x ++ r) ↔ w <+: x ∧ ∀ b ∈ x[w.length]?, 0x80 ≤ b := by
  have hkey : Opens w (x ++ r) ↔ w <+: x ∧ ∀ b ∈ x[w.length]?, isIdentByte b = false := by
    have h := keyword_append (n := w.length) hw hr (x := x)
    rwa [Lexical.keyword_iff, keyword_eq_ok_iff, and_iff_left rfl, and_iff_left rfl] at h
  rw [hkey]
  refine and_congr_right fun _ => forall₂_congr fun b hb => ⟨fun hend => ?_, isIdentByte_of_high b⟩
  rcases byte_of_isIdent hx b (List.mem_of_getElem? hb) with hbyte | hhigh
  · rw [hend] at hbyte
    cases hbyte
  · exact hhigh

/-! ## Destinations -/

/-- An instruction with a destination is read as a statement where no word opens the line. -/
theorem stmt_reads_instr_iff {c c' m : Cursor} {i : Tree.Instr} {s : Span} (hi : Program.instr.Reads c i c')
    (hrest : c.rest = x ++ r) (hx : IsIdent x) (hr : EndsWord r)
    (hop : Program.operator.Reads (c.advance x.length) s m) :
    (¬ Opens blockWord c.rest ∧ Program.stmt.Reads c (.instr i) c') ↔
      ∀ w ∈ [blockWord, liveWord, outWord], ¬ Opens w c.rest := by
  constructor
  · rintro ⟨hblock, hstmt⟩ w hw hopens
    have hnames : ∃ ss m, (Parser.many Program.name).Reads (c.advance x.length) ss m :=
      ⟨_, _, (reads_many Program.advances_name).2 ⟨.nil _, .inr (Program.rejects_name_of_operator hop)⟩⟩
    have hkey : Token.keyword w (x ++ r) = .ok w.length := Lexical.keyword_iff.2 ⟨hrest ▸ hopens, rfl⟩
    have hbytes := Program.bytes_of_reserved w hw
    obtain ⟨d, m, hd⟩ := Program.directive_reads_of_keyword hx hr hrest hnames hbytes
      ((keyword_append hbytes hr).1 hkey)
    obtain ⟨_, _, h⟩ | ⟨_, _, h⟩ | ⟨_, -, -, hlive, hout⟩ := Program.reads_stmt hstmt
    · cases h
    · cases h
    simp only [List.mem_cons, List.not_mem_nil, or_false] at hw
    rcases hw with rfl | rfl | rfl
    · exact hblock hopens
    · exact hlive d m hd
    · exact hout d m hd
  · intro hno
    refine ⟨hno blockWord (by simp), ?_⟩
    simp only [Program.stmt, reads_anyOf_cons, reads_map]
    exact .inr ⟨Derivation.directive_fails (hno liveWord (by simp)),
      .inr ⟨Derivation.directive_fails (hno outWord (by simp)), .inl ⟨i, hi, rfl⟩⟩⟩

/-- Behind a destination stands the operator. -/
theorem operator_of_dst {c c' : Cursor} {i : Tree.Instr} (hi : Program.instr.Reads c i c')
    (hdst : i.dst = some ⟨c.offset, (c.offset + x.length : Nat)⟩) (hx : x <+: c.rest) :
    ∃ r s m, c.rest = x ++ r ∧ IsIdent x ∧ EndsWord r ∧
      Program.operator.Reads (c.advance x.length) s m := by
  obtain ⟨head, m, op, m', args, hhead, hop, -, rfl⟩ := Program.reads_instr.1 hi
  rcases reads_optional.1 hop with ⟨s, rfl, hs⟩ | ⟨rfl, -⟩
  · obtain ⟨r, hsplit, hident, hr, rfl⟩ := isIdent_of_reads hhead (Option.some.inj hdst) hx
    exact ⟨r, s, m', hsplit, hident, hr, hs⟩
  · cases hdst

theorem instr_of_stmt {c c' : Cursor} {i : Tree.Instr} (h : Program.stmt.Reads c (.instr i) c') :
    Program.instr.Reads c i c' := by
  obtain ⟨_, _, hs⟩ | ⟨_, _, hs⟩ | ⟨j, hj, hs, -⟩ := Program.reads_stmt h
  · cases hs
  · cases hs
  · cases hs
    exact hj

theorem parseAt_instr_iff {i : Tree.Instr} {stop : Int} (hn : n ≤ t.length) :
    instr.parseAt t n = .ok ⟨stop, .ok (.stmt (.instr i))⟩ ↔
      ∃ c', Program.instr.Reads (.ofOffset t n) i c' ∧ stop = c'.offset :=
  parseAt_map_iff (f := fun i => .stmt (.instr i)) rfl (by rintro _ _ ⟨⟩; rfl) hn

theorem parseAt_stmt_iff {s : Tree.Stmt} {stop : Int} (hn : n ≤ t.length) :
    stmt.parseAt t n = .ok ⟨stop, .ok (.stmt s)⟩ ↔
      ∃ c', Program.stmt.Reads (.ofOffset t n) s c' ∧ stop = c'.offset :=
  parseAt_map_iff (f := .stmt) rfl (by rintro _ _ ⟨⟩; rfl) hn

/-- **Words and identifiers.**  A word is read at an offset if an identifier with this text is read
    there, or if a byte outside ASCII follows the word, where no such identifier is read.  And an
    instruction with the destination `x` is read where a line starts if `x` is none of the words
    that open a line and does not go on behind one of them with a byte outside ASCII. -/
theorem keyword_boundary (hn : n ≤ t.length) :
    (∀ w, IsIdent w →
      (KeywordAt t n w ↔ IdentAt t n w ∨ RunsOn t n w) ∧ (RunsOn t n w → ¬ IdentAt t n w)) ∧
    ∀ x i stop, instr.parseAt t n = .ok ⟨stop, .ok (.stmt (.instr i))⟩ →
      i.dst = some ⟨n, (n + x.length : Nat)⟩ → x <+: t.drop n →
      ((¬ KeywordAt t n blockWord ∧ stmt.parseAt t n = .ok ⟨stop, .ok (.stmt (.instr i))⟩) ↔
        ¬ Shadowed x) := by
  constructor
  · intro w hw
    rw [keywordAt_iff hn, identAt_iff hn, opens_iff]
    refine ⟨or_congr_left (exists_congr fun r => ?_), ?_⟩
    · rw [and_iff_right hw]
    · rintro ⟨-, b, hb, hhigh⟩ ⟨r, hr, -, hends⟩
      rw [hr, getElem?_behind] at hb
      exact absurd (hends b hb).1 (UInt8.not_lt.2 hhigh)
  · intro x i stop hinstr hdst hx
    obtain ⟨c', hi, rfl⟩ := (parseAt_instr_iff hn).1 hinstr
    obtain ⟨r, s, m, hrest, hident, hr, hop⟩ := operator_of_dst hi hdst hx
    -- The instruction fixes where the reading ends.
    have hstmt : stmt.parseAt t n = .ok ⟨c'.offset, .ok (.stmt (.instr i))⟩ ↔
        Program.stmt.Reads (.ofOffset t n) (.instr i) c' := by
      rw [parseAt_stmt_iff hn]
      refine ⟨?_, fun hread => ⟨c', hread, rfl⟩⟩
      rintro ⟨m, hread, -⟩
      rwa [(hi.unique (instr_of_stmt hread)).2]
    have hshadow : Shadowed x ↔ ∃ w ∈ [blockWord, liveWord, outWord], Opens w (t.drop n) := by
      refine exists_congr fun w => and_congr_right fun hw => ?_
      change t.drop n = x ++ r at hrest
      rw [hrest]
      exact (opens_ident_iff (Program.bytes_of_reserved w hw) hident hr).symm
    rw [keywordAt_iff hn, hstmt, hshadow]
    refine (stmt_reads_instr_iff hi hrest hident hr hop).trans ?_
    simp only [not_exists, not_and]
    rfl

/-- A destination with one of the words at its front. -/
def livenessLine : Text := utf8 "liveness = const 1"

theorem keyword_boundary_liveness : ¬ KeywordAt livenessLine 0 liveWord ∧
    ∃ stop i, stmt.parseAt livenessLine (0 : Nat) = .ok ⟨stop, .ok (.stmt (.instr i))⟩ ∧
      i.dst = some ⟨0, 8⟩ := by
  obtain ⟨hword, hdst⟩ := keyword_boundary (t := livenessLine) (n := 0) (Nat.zero_le _)
  have hident : ident.parseAt livenessLine (0 : Nat) = .ok ⟨8, .ok (.arg (.ident ⟨0, 8⟩))⟩ := by cbv
  have hinstr : instr.parseAt livenessLine (0 : Nat) = .ok ⟨18,
      .ok (.stmt (.instr ⟨⟨0, 18⟩, some ⟨0, 8⟩, ⟨11, 16⟩, [.int ⟨17, 18⟩]⟩))⟩ := by cbv
  constructor
  · rw [(hword liveWord (by cbv)).1]
    rintro (⟨h, -⟩ | h)
    · rw [hident] at h
      cases h
    · revert h
      decide +kernel
  · exact ⟨_, _, ((hdst (utf8 "liveness") _ _ hinstr rfl (by decide +kernel)).2 (by decide +kernel)).2, rfl⟩

/-- A word can be read where an identifier goes on: the identifier `liveé` has `live` at its
    front, and so it is no destination. -/
theorem keyword_runs_on : ¬ ∀ (t w : Text) (n : Nat), n ≤ t.length → IsIdent w → (∀ b ∈ w, b < 0x80) →
    (KeywordAt t n w ↔ IdentAt t n w) := by
  intro h
  have hiff := h (utf8 "liveé = const 1") liveWord 0 (Nat.zero_le _) (by cbv) (by decide +kernel)
  have hkey : KeywordAt (utf8 "liveé = const 1") 0 liveWord := ⟨4, .keyword liveWord, by cbv⟩
  have hident : ident.parseAt (utf8 "liveé = const 1") (0 : Nat) =
      .ok ⟨6, .ok (.arg (.ident ⟨0, 6⟩))⟩ := by cbv
  obtain ⟨hstop, -⟩ := hiff.1 hkey
  rw [hident] at hstop
  cases hstop

end Grammar

end Straightline
