/-
  Statements as they are written.

  A syntax tree knows its words by their spans.  Here statements hold the words
  themselves (`Written.Stmt`), and `Spells` ties a tree to its words.

  * `Program.reads_instr`, `Program.reads_directive`: the parts that statements are
    read in;
  * `Program.stmt_spells`: what is read as a statement is one made of words, and
    none of the words `block`, `live` and `out` stands at the front of an
    instruction that has a destination.
-/
import Mathlib.Data.List.Forall2
import Straightline.Proofs.Reading

namespace Straightline

/-! ## Words -/

namespace Written

/-- An argument of an instruction. -/
inductive Arg where
  | ident (x : Text)
  | int (x : Text)
  | string (x : Text)
  deriving DecidableEq

/-- An instruction `[dst =] op arg*`. -/
structure Instr where
  dst : Option Text
  op : Text
  args : List Arg
  deriving DecidableEq

/-- A line of a block. -/
inductive Stmt where
  | instr (i : Instr)
  | live (names : List Text)
  | out (names : List Text)
  deriving DecidableEq

/-- A block and its lines. -/
structure Block where
  name : Text
  stmts : List Stmt
  deriving DecidableEq

/-- Does a word that opens a header or a directive stand at the front? -/
def reserved (x : Text) : Bool :=
  [Program.blockWord, utf8 "live", utf8 "out"].any fun w => (Token.keyword w x).isOk

open Token (IsIdent)

/-- An argument that is an identifier if it says so. -/
def Arg.Lexical : Arg → Prop
  | ident x => IsIdent x
  | _ => True

/-- The names of an instruction are identifiers, and its destination does not look
    like a header or a directive. -/
structure Instr.Lexical (i : Instr) : Prop where
  dst : ∀ d ∈ i.dst, IsIdent d ∧ reserved d = false
  op : IsIdent i.op
  args : ∀ a ∈ i.args, a.Lexical

/-- The names of a statement are identifiers. -/
def Stmt.Lexical : Stmt → Prop
  | instr i => i.Lexical
  | live xs | out xs => ∀ x ∈ xs, IsIdent x

/-- The names of a block are identifiers. -/
structure Block.Lexical (b : Block) : Prop where
  name : IsIdent b.name
  stmts : ∀ s ∈ b.stmts, s.Lexical

end Written

namespace Tree

variable (src : Source)

/-- The argument has this text. -/
inductive Arg.Spells : Tree.Arg → Written.Arg → Prop where
  | ident {s : Span} {x : Text} (h : src.slice s = .ok x) : Spells (.ident s) (.ident x)
  | int {s : Span} {x : Text} (h : src.slice s = .ok x) : Spells (.int s) (.int x)
  | string {s : Span} {x : Text} (h : src.slice s = .ok x) : Spells (.string s) (.string x)

/-- The parts of the instruction have these texts. -/
structure Instr.Spells (i : Tree.Instr) (w : Written.Instr) : Prop where
  start : 0 ≤ i.span.start
  dst : Option.Rel (fun s x => src.slice s = .ok x) i.dst w.dst
  op : src.slice i.op = .ok w.op
  args : List.Forall₂ (Arg.Spells src) i.args w.args

/-- The names of the directive have these texts. -/
structure Directive.Spells (d : Tree.Directive) (xs : List Text) : Prop where
  start : 0 ≤ d.span.start
  temps : List.Forall₂ (fun s x => src.slice s = .ok x) d.temps xs

/-- The parts of the statement have these texts. -/
inductive Stmt.Spells : Tree.Stmt → Written.Stmt → Prop where
  | instr {i : Tree.Instr} {w : Written.Instr} (h : i.Spells src w) : Spells (.instr i) (.instr w)
  | live {d : Tree.Directive} {xs : List Text} (h : d.Spells src xs) : Spells (.live d) (.live xs)
  | out {d : Tree.Directive} {xs : List Text} (h : d.Spells src xs) : Spells (.out d) (.out xs)

/-- The parts of the block have these texts. -/
structure Block.Spells (b : Tree.Block) (w : Written.Block) : Prop where
  name : src.slice b.name = .ok w.name
  stmts : List.Forall₂ (Stmt.Spells src) b.stmts w.stmts

end Tree

/-! ## What is read -/

namespace Parser

variable {α β : Type} {src : Source} {p : Parser α} {P : α → Prop}

/-- What the parser reads in the source has the property, and it stays in it. -/
def Gives (src : Source) (p : Parser α) (P : α → Prop) : Prop :=
  ∀ ⦃c a c'⦄, c.On src.text → p.Reads c a c' → P a ∧ c'.On src.text

theorem Gives.imp {Q : α → Prop} (h : Gives src p P) (hPQ : ∀ a, P a → Q a) : Gives src p Q := by
  intro c a c' hc hp
  exact (h hc hp).imp_left (hPQ a)

theorem Gives.spaced {s : Spaces} {k : Kind} (h : Gives src p P) : Gives src (spaced s k p) P := by
  intro c a c' hc hp
  exact h (hc.skip s) (reads_spaced.1 hp)

theorem Gives.many (hp : p.Advances) (h : Gives src p P) : Gives src (many p) (∀ a ∈ ·, P a) := by
  intro c as c' hc hmany
  obtain ⟨hreads, -⟩ := (reads_many hp).1 hmany
  clear hmany
  induction hreads with
  | nil c => exact ⟨by simp, hc⟩
  | cons head tail ih =>
    obtain ⟨ha, hm⟩ := h hc head
    obtain ⟨has, hc'⟩ := ih hm
    exact ⟨List.forall_mem_cons.2 ⟨ha, has⟩, hc'⟩

theorem gives_token {scan : Text → Token.Scan} (hfits : Token.Fits scan) :
    Gives src (token scan) fun s => ∃ x r, src.slice s = .ok x ∧ scan (x ++ r) = .ok x.length := by
  intro c s c' hc h
  obtain ⟨n, hn, rfl, rfl⟩ := reads_token.1 h
  have hle := hfits hn
  refine ⟨⟨c.rest.take n, c.rest.drop n, slice_of_on hc hle, ?_⟩, hc.advance hle⟩
  rw [List.take_append_drop, List.length_take, Nat.min_eq_left hle, hn]

end Parser

/-- Choose a list of partners. -/
theorem exists_forall₂ {α β : Type} {R : α → β → Prop} {Q : β → Prop} {as : List α}
    (h : ∀ a ∈ as, ∃ b, R a b ∧ Q b) : ∃ bs, List.Forall₂ R as bs ∧ ∀ b ∈ bs, Q b := by
  induction as with
  | nil => exact ⟨[], .nil, by simp⟩
  | cons a as ih =>
    obtain ⟨⟨b, hR, hQ⟩, has⟩ := List.forall_mem_cons.1 h
    obtain ⟨bs, hRs, hQs⟩ := ih has
    exact ⟨b :: bs, .cons hR hRs, List.forall_mem_cons.2 ⟨hQ, hQs⟩⟩

theorem exists_of_forall₂_left {α β : Type} {R : α → β → Prop} {as : List α} {bs : List β}
    (h : List.Forall₂ R as bs) {a : α} (ha : a ∈ as) : ∃ b ∈ bs, R a b := by
  induction h with
  | nil => cases ha
  | cons hR _ ih =>
    rcases List.mem_cons.1 ha with rfl | ha
    · exact ⟨_, List.mem_cons_self, hR⟩
    · obtain ⟨b, hb, hab⟩ := ih ha
      exact ⟨b, List.mem_cons_of_mem _ hb, hab⟩

theorem exists_of_forall₂_right {α β : Type} {R : α → β → Prop} {as : List α} {bs : List β}
    (h : List.Forall₂ R as bs) {b : β} (hb : b ∈ bs) : ∃ a ∈ as, R a b :=
  exists_of_forall₂_left h.flip hb

theorem forall₂_join {α β γ : Type} {R : α → γ → Prop} {S : β → γ → Prop} {as : List α} {bs : List β}
    {cs : List γ} (h : List.Forall₂ R as cs) (h' : List.Forall₂ S bs cs) :
    List.Forall₂ (fun a b => ∃ c, R a c ∧ S b c) as bs := by
  induction h generalizing bs with
  | nil =>
    cases h'
    exact .nil
  | cons hR _ ih =>
    cases h' with
    | cons hS hrest => exact .cons ⟨_, hR, hS⟩ (ih hrest)

/-- Pairs that are each related through a third thing. -/
theorem forall₂_through {α β γ : Type} {R : α → β → Prop} {S : α → γ → Prop} {T : γ → β → Prop} {as : List α}
    {bs : List β} (h : List.Forall₂ R as bs) (hR : ∀ a ∈ as, ∀ b, R a b → ∃ c, S a c ∧ T c b) :
    ∃ cs, List.Forall₂ S as cs ∧ List.Forall₂ T cs bs := by
  induction h with
  | nil => exact ⟨[], .nil, .nil⟩
  | cons head _ ih =>
    obtain ⟨hfirst, hrest⟩ := List.forall_mem_cons.1 hR
    obtain ⟨c, hS, hT⟩ := hfirst _ head
    obtain ⟨cs, hSs, hTs⟩ := ih hrest
    exact ⟨c :: cs, .cons hS hSs, .cons hT hTs⟩

namespace Program

open Straightline.Parser Straightline.Token

variable {src : Source} {c c' m : Cursor}

theorem ident_spells : Gives src ident fun s => ∃ x, src.slice s = .ok x ∧ IsIdent x := by
  refine (gives_token fits_ident).imp ?_
  rintro s ⟨x, r, hs, hscan⟩
  obtain ⟨y, r', hsplit, hlen, hy, -⟩ := ident_eq_ok_iff.1 hscan
  obtain ⟨rfl, -⟩ := List.append_inj hsplit hlen
  exact ⟨x, hs, hy⟩

theorem name_spells : Gives src name fun s => ∃ x, src.slice s = .ok x ∧ IsIdent x :=
  ident_spells.spaced

theorem advances_ident : ident.Advances :=
  advances_token fits_ident moves_ident

theorem advances_name : name.Advances :=
  advances_ident.spaced

theorem names_spell :
    Gives src (many name) fun ss =>
      ∃ xs, List.Forall₂ (fun s x => src.slice s = .ok x) ss xs ∧ ∀ x ∈ xs, IsIdent x :=
  (name_spells.many advances_name).imp fun _ => exists_forall₂

theorem reads_arg {a : Tree.Arg} : arg.Reads c a c' →
    (∃ s, ident.Reads c s c' ∧ a = .ident s) ∨ (∃ s, int.Reads c s c' ∧ a = .int s) ∨
      ∃ s, string.Reads c s c' ∧ a = .string s := by
  intro h
  simp only [arg, reads_anyOf_cons, reads_map, not_reads_anyOf_nil, and_false, or_false] at h
  rcases h with h | ⟨-, h | ⟨-, h⟩⟩
  · exact .inl h
  · exact .inr (.inl h)
  · exact .inr (.inr h)

theorem fits_int : Fits Token.int := fun _ _ h => (int_ok h).2

theorem fits_string : Fits Token.string := fun _ _ h => (string_ok h).2

theorem advances_arg : arg.Advances := by
  intro c a c' h
  rcases reads_arg h with ⟨s, h, -⟩ | ⟨s, h, -⟩ | ⟨s, h, -⟩
  · exact advances_ident h
  · exact advances_token fits_int (fun _ _ h => (int_ok h).1) h
  · exact advances_token fits_string (fun _ _ h => (string_ok h).1) h

theorem arg_spells : Gives src arg fun a => ∃ w, a.Spells src w ∧ w.Lexical := by
  intro c a c' hc h
  rcases reads_arg h with ⟨s, hx, rfl⟩ | ⟨s, hx, rfl⟩ | ⟨s, hx, rfl⟩
  · obtain ⟨⟨x, hs, hx⟩, hc'⟩ := ident_spells hc hx
    exact ⟨⟨.ident x, .ident hs, hx⟩, hc'⟩
  · obtain ⟨⟨x, -, hs, -⟩, hc'⟩ := gives_token fits_int hc hx
    exact ⟨⟨.int x, .int hs, trivial⟩, hc'⟩
  · obtain ⟨⟨x, -, hs, -⟩, hc'⟩ := gives_token fits_string hc hx
    exact ⟨⟨.string x, .string hs, trivial⟩, hc'⟩

theorem args_spell :
    Gives src (many (spaced .tab .arg arg)) fun as =>
      ∃ ws, List.Forall₂ (Tree.Arg.Spells src) as ws ∧ ∀ w ∈ ws, w.Lexical :=
  (arg_spells.spaced.many advances_arg.spaced).imp fun _ => exists_forall₂

/-! An instruction in parts. -/

theorem reads_instr {i : Tree.Instr} : instr.Reads c i c' ↔ ∃ head m op m' args,
    ident.Reads c head m ∧ operator.optional.Reads m op m' ∧ (many (spaced .tab .arg arg)).Reads m' args c' ∧
      i = ⟨⟨c.offset, c'.offset⟩, op.map fun _ => head, op.getD head, args⟩ := by
  simp only [instr, reads_bind, reads_here, reads_expecting, reads_within]
  constructor
  · rintro ⟨_, _, ⟨rfl, rfl⟩, head, m, hhead, op, m', hop, args, m'', hargs, _, _, ⟨rfl, rfl⟩, h⟩
    cases op with
    | none =>
      obtain ⟨rfl, rfl⟩ := reads_pure.1 h
      exact ⟨head, m, none, m', args, hhead, hop, hargs, rfl⟩
    | some op =>
      obtain ⟨rfl, rfl⟩ := reads_pure.1 h
      exact ⟨head, m, some op, m', args, hhead, hop, hargs, rfl⟩
  · rintro ⟨head, m, op, m', args, hhead, hop, hargs, rfl⟩
    refine ⟨c, c, ⟨rfl, rfl⟩, head, m, hhead, op, m', hop, args, c', hargs, c', c', ⟨rfl, rfl⟩, ?_⟩
    cases op with
    | none => exact reads_pure.2 ⟨rfl, rfl⟩
    | some op => exact reads_pure.2 ⟨rfl, rfl⟩

theorem reads_directive {w : Text} {d : Tree.Directive} : (directive w).Reads c d c' ↔ ∃ s m ss,
    (keyword w).Reads c s m ∧ (many name).Reads m ss c' ∧ d = ⟨⟨c.offset, c'.offset⟩, ss⟩ := by
  simp only [directive, reads_bind, reads_here, reads_within, reads_pure]
  constructor
  · rintro ⟨_, _, ⟨rfl, rfl⟩, s, m, hw, ss, m', hnames, _, _, ⟨rfl, rfl⟩, rfl, rfl⟩
    exact ⟨s, m, ss, hw, hnames, rfl⟩
  · rintro ⟨s, m, ss, hw, hnames, rfl⟩
    exact ⟨c, c, ⟨rfl, rfl⟩, s, m, hw, ss, c', hnames, c', c', ⟨rfl, rfl⟩, rfl, rfl⟩

theorem operator_spells : Gives src operator fun s => ∃ x, src.slice s = .ok x ∧ IsIdent x := by
  intro c s c' hc h
  obtain ⟨e, m, heq, hname⟩ := reads_context.1 h
  exact name_spells ((gives_token (fits_const _)).spaced hc heq).2 hname

theorem directive_spells {w : Text} :
    Gives src (directive w) fun d => ∃ xs, d.Spells src xs ∧ ∀ x ∈ xs, IsIdent x := by
  intro c d c' hc h
  obtain ⟨s, m, ss, hw, hnames, rfl⟩ := reads_directive.1 h
  obtain ⟨-, hm⟩ := gives_token (fits_keyword w) hc hw
  obtain ⟨⟨xs, hxs, hident⟩, hc'⟩ := names_spell hm hnames
  exact ⟨⟨xs, ⟨Int.natCast_nonneg _, hxs⟩, hident⟩, hc'⟩

/-! ## Destinations and directives -/

/-- Where an equals sign follows, no name can be read. -/
theorem rejects_name_of_operator {s : Span} (h : operator.Reads c s c') : name.Rejects c := by
  obtain ⟨e, m, heq, -⟩ := reads_context.1 h
  obtain ⟨n, hn, -, -⟩ := reads_token.1 (reads_spaced.1 heq)
  obtain ⟨⟨r, hr⟩, -⟩ := const_eq_ok_iff.1 hn
  refine (rejects_token (ident_error ?_)).spaced
  intro b hb
  rw [← hr] at hb
  cases hb
  decide

theorem directive_reads_of_rejects {w : Text} {n : Nat} (hw : Token.keyword w c.rest = .ok n)
    (hname : name.Rejects (c.advance n)) : ∃ d c', (directive w).Reads c d c' :=
  ⟨_, _, reads_directive.2 ⟨_, _, [], reads_token.2 ⟨n, hw, rfl, rfl⟩,
    (reads_many advances_name).2 ⟨.nil _, .inr hname⟩, rfl⟩⟩

/-- An identifier with one of these words at its front is read as a directive, if names or
    nothing can be read behind it. -/
theorem directive_reads_of_keyword {w d r : Text} {n : Nat} (hd : IsIdent d) (hr : EndsWord r)
    (hrest : c.rest = d ++ r) (hnames : ∃ ss m, (many name).Reads (c.advance d.length) ss m)
    (hw : ∀ b ∈ w, isIdentByte b = true) (hk : Token.keyword w d = .ok n) :
    ∃ x c', (directive w).Reads c x c' := by
  have hkc : Token.keyword w c.rest = .ok n := by
    rw [hrest]
    exact (keyword_append hw hr).2 hk
  obtain ⟨⟨⟨y, rfl⟩, hend⟩, rfl⟩ := keyword_eq_ok_iff.1 hk
  rcases y with _ | ⟨b, y⟩
  · obtain ⟨ss, m, hss⟩ := hnames
    rw [List.append_nil] at hss
    exact ⟨_, m, reads_directive.2 ⟨_, _, ss, reads_token.2 ⟨_, hkc, rfl, rfl⟩, hss, rfl⟩⟩
  refine directive_reads_of_rejects hkc ?_
  -- The identifier goes on with a character outside ASCII, with which no name starts.
  have hb : isIdentByte b = false := hend b (by simp)
  have hhigh : 0x80 ≤ b.toNat := by
    rcases byte_of_isIdent hd b (by simp) with h | h
    · rw [hb] at h
      cases h
    · exact h
  have hblank : Spaces.tab.contains b = false := by
    have hne : b ≠ 32 ∧ b ≠ 9 := by constructor <;> rintro rfl <;> revert hhigh <;> decide
    simp [Spaces.contains_tab, hne]
  have hstart : isIdentStart b = false := by
    simp only [isIdentByte, Bool.or_eq_false_iff] at hb
    exact hb.1
  have hskip : ((c.advance w.length).skip .tab).rest = b :: (y ++ r) :=
    Cursor.rest_skip (x := []) (by rw [Cursor.rest_advance (r := b :: (y ++ r)) (by simp [hrest])]; rfl)
      (by simp) (by simpa using hblank)
  refine (rejects_token (ident_error ?_)).spaced
  simpa [hskip] using hstart

theorem instr_spells {i : Tree.Instr} (hc : c.On src.text) (h : instr.Reads c i c') :
    (∃ w, i.Spells src w ∧ IsIdent w.op ∧ (∀ a ∈ w.args, a.Lexical) ∧
      ∀ d ∈ w.dst, IsIdent d ∧ ∃ r, c.rest = d ++ r ∧ EndsWord r ∧ name.Rejects (c.advance d.length)) ∧
      c'.On src.text := by
  obtain ⟨head, m, op, m', args, hhead, hop, hargs, rfl⟩ := reads_instr.1 h
  obtain ⟨n, hn, rfl, rfl⟩ := reads_token.1 hhead
  obtain ⟨d, r, hrest, rfl, hd, hr⟩ := ident_eq_ok_iff.1 hn
  have hle := fits_ident hn
  have hm := hc.advance hle
  have hslice : src.slice ⟨c.offset, (c.offset + d.length : Nat)⟩ = .ok d := by
    rw [slice_of_on hc hle, hrest, List.take_left]
  rcases reads_optional.1 hop with ⟨s, rfl, hs⟩ | ⟨rfl, rfl, -⟩
  · have hname := rejects_name_of_operator hs
    obtain ⟨⟨x, hs, hx⟩, hm'⟩ := operator_spells hm hs
    obtain ⟨⟨ws, hws, hlex⟩, hc'⟩ := args_spell hm' hargs
    refine ⟨⟨⟨some d, x, ws⟩, ⟨Int.natCast_nonneg _, .some hslice, hs, hws⟩, hx, hlex, ?_⟩, hc'⟩
    rintro _ ⟨⟩
    exact ⟨hd, r, hrest, hr, hname⟩
  · obtain ⟨⟨ws, hws, hlex⟩, hc'⟩ := args_spell hm hargs
    refine ⟨⟨⟨none, d, ws⟩, ⟨Int.natCast_nonneg _, .none, hslice, hws⟩, hd, hlex, ?_⟩, hc'⟩
    rintro _ ⟨⟩

theorem reads_stmt {s : Tree.Stmt} : stmt.Reads c s c' →
    (∃ d, live.Reads c d c' ∧ s = .live d) ∨ (∃ d, out.Reads c d c' ∧ s = .out d) ∨
      ∃ i, instr.Reads c i c' ∧ s = .instr i ∧ (∀ d m, ¬ live.Reads c d m) ∧ ∀ d m, ¬ out.Reads c d m := by
  intro h
  have hfails : ∀ {p : Parser Tree.Directive} {f : Tree.Directive → Tree.Stmt}, (f <$> p).Fails c →
      ∀ d m, ¬ p.Reads c d m := fun h d m hp => h.not_reads (reads_map.2 ⟨d, hp, rfl⟩)
  simp only [stmt, reads_anyOf_cons, reads_map, not_reads_anyOf_nil, and_false, or_false] at h
  rcases h with h | ⟨hlive, h | ⟨hout, i, hi, rfl⟩⟩
  · exact .inl h
  · exact .inr (.inl h)
  · exact .inr (.inr ⟨i, hi, rfl, hfails hlive, hfails hout⟩)

theorem bytes_of_reserved :
    ∀ w ∈ [blockWord, utf8 "live", utf8 "out"], ∀ b ∈ w, isIdentByte b = true := by
  decide +kernel

/-- **What is read as a statement is one**, where no header stands. -/
theorem stmt_spells {s : Tree.Stmt} (hc : c.On src.text) (hblock : opensBlock c = false)
    (h : stmt.Reads c s c') : (∃ w, s.Spells src w ∧ w.Lexical) ∧ c'.On src.text := by
  rcases reads_stmt h with ⟨d, hd, rfl⟩ | ⟨d, hd, rfl⟩ | ⟨i, hi, rfl, hlive, hout⟩
  · obtain ⟨⟨xs, hxs, hident⟩, hc'⟩ := directive_spells hc hd
    exact ⟨⟨.live xs, .live hxs, hident⟩, hc'⟩
  · obtain ⟨⟨xs, hxs, hident⟩, hc'⟩ := directive_spells hc hd
    exact ⟨⟨.out xs, .out hxs, hident⟩, hc'⟩
  · obtain ⟨⟨w, hw, hop, hargs, hdst⟩, hc'⟩ := instr_spells hc hi
    refine ⟨⟨.instr w, .instr hw, ?_, hop, hargs⟩, hc'⟩
    intro d hd
    obtain ⟨hident, r, hrest, hr, hname⟩ := hdst d hd
    refine ⟨hident, Bool.eq_false_iff.2 fun hres => ?_⟩
    obtain ⟨w, hmem, hok⟩ := List.any_eq_true.1 hres
    obtain ⟨n, hn⟩ : ∃ n, Token.keyword w d = .ok n := by
      cases hk : Token.keyword w d with
      | ok n => exact ⟨n, rfl⟩
      | error e => simp [hk, Except.isOk, Except.toBool] at hok
    have hnames := (reads_many advances_name).2 ⟨.nil _, .inr hname⟩
    have hreads := directive_reads_of_keyword hident hr hrest ⟨_, _, hnames⟩ (bytes_of_reserved w hmem) hn
    simp only [List.mem_cons, List.not_mem_nil, or_false] at hmem
    rcases hmem with rfl | rfl | rfl
    · have hk := (keyword_append (bytes_of_reserved blockWord (by simp)) hr).2 hn
      simp [opensBlock, hrest, hk, Except.isOk, Except.toBool] at hblock
    · obtain ⟨x, m, hx⟩ := hreads
      exact hlive x m hx
    · obtain ⟨x, m, hx⟩ := hreads
      exact hout x m hx

end Program

end Straightline
