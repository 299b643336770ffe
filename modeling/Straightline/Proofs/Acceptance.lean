/-
  The parser accepts exactly the texts that have a derivation.

  * `Follows`: a parser reads the derivations of a part of the grammar, and nothing else;
    `Follows.gapped` and `Follows.many` carry it over to blanks in front and repetitions;
  * `reads_stmtLine_iff`: a statement line is read iff it has a derivation.  Where one of
    the words `live` and `out` stands, it could not be read as an instruction either
    (`directive_reads_of_instr`);
  * `Source.parse_iff_derives`: the same of whole files.
-/
import Straightline.Proofs.Derivation

namespace Straightline

namespace Derivation

open Lexical
open Straightline.Parser (Reads Fails Rejects Advances Repeats)
open Program (blockWord startsArg)

/-- The parser reads the derivations of the part, and nothing else. -/
def Follows {α β : Type} (p : Parser β) (P : Part α β) : Prop :=
  ∀ o s b c', p.Reads ⟨o, s⟩ b c' ↔
    ∃ a r, s = P.text a ++ r ∧ P.At a r ∧ b = P.tree o a ∧ c' = ⟨o + (P.text a).length, r⟩

/-! ## Tokens -/

section
variable {o : Nat} {s r : Text} {c' : Cursor}

theorem reads_exact {scan : Text → Token.Scan} {Q : Text → Text → Prop} (h : Exact scan Q) {sp : Span} :
    (Parser.token scan).Reads ⟨o, s⟩ sp c' ↔
      ∃ x r, s = x ++ r ∧ Q x r ∧ sp = spanAt o x ∧ c' = ⟨o + x.length, r⟩ := by
  rw [Parser.reads_token]
  constructor
  · rintro ⟨n, hn, rfl, rfl⟩
    obtain ⟨x, r, rfl, rfl, hx⟩ := (h s n).1 hn
    exact ⟨x, r, rfl, hx, rfl, by simp [Cursor.advance]⟩
  · rintro ⟨x, r, rfl, hx, rfl, rfl⟩
    exact ⟨x.length, h.scan_append hx, by simp [Cursor.advance], rfl⟩

theorem reads_keyword {w : Text} {sp : Span} : (Program.keyword w).Reads ⟨o, s⟩ sp c' ↔
    ∃ r, s = w ++ r ∧ WordEnds r ∧ sp = spanAt o w ∧ c' = ⟨o + w.length, r⟩ := by
  have h : Exact (Token.keyword w) fun x r => x = w ∧ WordEnds r := by
    intro s n
    rw [keyword_iff]
    constructor
    · rintro ⟨⟨r, rfl, hr⟩, rfl⟩
      exact ⟨w, r, rfl, rfl, rfl, hr⟩
    · rintro ⟨x, r, rfl, rfl, rfl, hr⟩
      exact ⟨⟨r, rfl, hr⟩, rfl⟩
  refine (reads_exact h).trans ⟨?_, ?_⟩
  · rintro ⟨x, r, rfl, ⟨rfl, hr⟩, rfl, rfl⟩
    exact ⟨r, rfl, hr, rfl, rfl⟩
  · rintro ⟨r, rfl, hr, rfl, rfl⟩
    exact ⟨w, r, rfl, ⟨rfl, hr⟩, rfl, rfl⟩

theorem follows_ident : Follows Program.ident ident := fun _ _ _ _ => reads_exact exact_ident

theorem fails_exact {scan : Text → Token.Scan} {Q : Text → Text → Prop} (h : Exact scan Q) {β : Type}
    {f : Span → β} (hno : ∀ x r, Q x r → s ≠ x ++ r) : (f <$> Parser.token scan).Fails ⟨o, s⟩ := by
  refine (Parser.reads_or_fails _ _).resolve_left ?_
  rintro ⟨b, c', hread⟩
  obtain ⟨sp, hread, -⟩ := Parser.reads_map.1 hread
  obtain ⟨x, r, he, hx, -⟩ := (reads_exact h).1 hread
  exact hno x r hx he

/-- Each kind of argument is read where no other kind could be. -/
theorem follows_arg : Follows Program.arg arg := by
  intro o s b c'
  constructor
  · intro h
    rcases Program.reads_arg h with ⟨sp, hread, rfl⟩ | ⟨sp, hread, rfl⟩ | ⟨sp, hread, rfl⟩
    · obtain ⟨x, r, rfl, hx, rfl, rfl⟩ := (reads_exact exact_ident).1 hread
      exact ⟨.ident x, r, rfl, hx, rfl, rfl⟩
    · obtain ⟨x, r, rfl, hx, rfl, rfl⟩ := (reads_exact exact_int).1 hread
      exact ⟨.int x, r, rfl, hx, rfl, rfl⟩
    · obtain ⟨x, r, rfl, hx, rfl, rfl⟩ := (reads_exact exact_string).1 hread
      exact ⟨.string x, r, rfl, hx, rfl, rfl⟩
  · rintro ⟨a, r, rfl, ha, rfl, rfl⟩
    -- what another scanner takes would be a second argument at the same place
    have hident : ∀ x r', Ident x r' → arg.text a ++ r = x ++ r' → a = .ident x := fun x r' hx he =>
      (arg_unique trivial trivial ha (show arg.At (.ident x) r' from hx) he).1
    have hint : ∀ x r', Longest IsInt x r' → arg.text a ++ r = x ++ r' → a = .int x := fun x r' hx he =>
      (arg_unique trivial trivial ha (show arg.At (.int x) r' from hx) he).1
    simp only [Program.arg, Parser.reads_anyOf_cons, Parser.reads_map]
    rcases a with x | x | x
    · exact Or.inl ⟨_, (reads_exact exact_ident).2 ⟨x, r, rfl, ha, rfl, rfl⟩, rfl⟩
    · refine Or.inr ⟨fails_exact exact_ident fun y r' hy he => ?_, Or.inl ?_⟩
      · cases hident y r' hy he
      · exact ⟨_, (reads_exact exact_int).2 ⟨x, r, rfl, ha, rfl, rfl⟩, rfl⟩
    · refine Or.inr ⟨fails_exact exact_ident fun y r' hy he => ?_,
        Or.inr ⟨fails_exact exact_int fun y r' hy he => ?_, Or.inl ?_⟩⟩
      · cases hident y r' hy he
      · cases hint y r' hy he
      · exact ⟨_, (reads_exact exact_string).2 ⟨x, r, rfl, ha, rfl, rfl⟩, rfl⟩

end

/-! ## Blanks in front -/

section
variable {α β : Type} {p : Parser β} {P : Part α β}

theorem contains_tab_iff (b : UInt8) : Spaces.tab.contains b = true ↔ b = 32 ∨ b = 9 := by
  simp [Spaces.contains_tab]

theorem skip_gap {o : Nat} {gap z : Text} (hgap : IsGap gap) (hz : ∀ b ∈ z.head?, NoGap b) :
    (Cursor.mk o (gap ++ z)).skip .tab = ⟨o + gap.length, z⟩ := by
  have hcount : Spaces.tab.count (gap ++ z) = gap.length := by
    refine Spaces.count_append (fun b hb => (contains_tab_iff b).2 (hgap b hb)) fun b hb => ?_
    have hno := hz b hb
    rw [← Bool.not_eq_true, contains_tab_iff]
    rintro (rfl | rfl)
    · exact hno.1 rfl
    · exact hno.2 rfl
  rw [Cursor.skip, hcount]
  simp [Cursor.advance]

theorem exists_gap (s : Text) : ∃ gap z, s = gap ++ z ∧ IsGap gap ∧ ∀ b ∈ z.head?, NoGap b := by
  refine ⟨s.takeWhile Spaces.tab.contains, s.dropWhile Spaces.tab.contains,
    List.takeWhile_append_dropWhile.symm, fun b hb => ?_, fun b hb => ?_⟩
  · exact (contains_tab_iff b).1 (List.all_eq_true.1 List.all_takeWhile b hb)
  · have hno := List.head?_dropWhile_not Spaces.tab.contains s
    rw [hb] at hno
    have hno : ¬ Spaces.tab.contains b = true := by simpa using hno
    rw [contains_tab_iff] at hno
    exact ⟨fun h => hno (Or.inl h), fun h => hno (Or.inr h)⟩

theorem Follows.gapped (hp : Follows p P) (hP : P.Begins NoGap) (k : Kind) :
    Follows (Parser.spaced .tab k p) P.gapped := by
  intro o s b c'
  rw [Parser.reads_spaced]
  constructor
  · intro h
    obtain ⟨gap, z, rfl, hgap, hz⟩ := exists_gap s
    rw [skip_gap hgap hz] at h
    obtain ⟨a, r, rfl, ha, rfl, rfl⟩ := (hp _ _ _ _).1 h
    exact ⟨⟨gap, a⟩, r, by simp, ⟨hgap, ha⟩, rfl, by simp [Nat.add_assoc]⟩
  · rintro ⟨⟨gap, a⟩, r, rfl, ⟨hgap, ha⟩, rfl, rfl⟩
    obtain ⟨b, z, hz, hb⟩ := hP ha
    have hhead : ∀ b ∈ (P.text a ++ r).head?, NoGap b := by
      rw [hz]; rintro _ ⟨⟩; exact hb
    rw [Part.text_gapped, List.append_assoc, skip_gap hgap hhead]
    exact (hp _ _ _ _).2 ⟨a, r, rfl, ha, rfl, by simp [Nat.add_assoc]⟩

/-! ## Repetitions -/

theorem Follows.repeats (hp : Follows p P) {o : Nat} {s : Text} {bs : List β} {c' : Cursor} :
    Repeats p.Reads ⟨o, s⟩ bs c' ↔ ∃ as r, s = P.listText as ++ r ∧ P.ListAt as r ∧
      bs = P.listTree o as ∧ c' = ⟨o + (P.listText as).length, r⟩ := by
  constructor
  · intro h
    generalize hc : Cursor.mk o s = c at h
    induction h generalizing o s with
    | nil c => exact ⟨[], s, rfl, trivial, rfl, hc.symm⟩
    | cons head tail ih =>
      subst hc
      obtain ⟨a, z, rfl, ha, rfl, rfl⟩ := (hp _ _ _ _).1 head
      obtain ⟨as, r, rfl, has, rfl, rfl⟩ := ih rfl
      exact ⟨a :: as, r, by simp, ⟨ha, has⟩, rfl, by simp [Nat.add_assoc]⟩
  · rintro ⟨as, r, rfl, has, rfl, rfl⟩
    induction as generalizing o with
    | nil => exact .nil _
    | cons a as ih =>
      refine .cons ((hp _ _ _ _).2 ⟨a, _, by simp, has.1, rfl, rfl⟩) ?_
      have := ih (o := o + (P.text a).length) has.2
      simpa [Nat.add_assoc] using this

end

/-! ## Up to the end of a line -/

section
variable {α β : Type} {p : Parser β} {P : Part α β} {o : Nat} {s r : Text} {c' : Cursor}

/-- Where a line ends, nothing is read that arguments start with. -/
theorem rejects_endsLine {k : Kind}
    (hp : ∀ c : Cursor, (∀ b ∈ c.rest.head?, startsArg b = false) → p.Rejects c) (h : EndsLine s) :
    (Parser.spaced .tab k p).Rejects ⟨o, s⟩ := by
  obtain ⟨gap, z, rfl, hgap, hz⟩ := exists_gap s
  refine Rejects.spaced ?_
  rw [skip_gap hgap hz]
  refine hp _ fun b hb => ?_
  obtain ⟨x, y, he, hx⟩ := h
  obtain ⟨z, rfl⟩ : ∃ z', z = b :: z' := List.head?_eq_some_iff.1 hb
  rcases hx.next hgap he.symm with rfl | rfl | rfl | rfl | rfl <;> decide

/-- A repetition up to the end of a line. -/
theorem Follows.many (hp : Follows p P) (hadv : p.Advances) {bs : List β} {c' : Cursor}
    (h : (Parser.many p).Reads ⟨o, s⟩ bs c') : ∃ as r, s = P.listText as ++ r ∧ P.ListAt as r ∧
      bs = P.listTree o as ∧ c' = ⟨o + (P.listText as).length, r⟩ :=
  hp.repeats.1 ((Parser.reads_many hadv).1 h).1

theorem Follows.many_reads (hp : Follows p P) (hadv : p.Advances) {as : List α} (has : P.ListAt as r)
    (hend : ∀ o, p.Rejects ⟨o, r⟩) : (Parser.many p).Reads ⟨o, P.listText as ++ r⟩ (P.listTree o as)
      ⟨o + (P.listText as).length, r⟩ :=
  (Parser.reads_many hadv).2 ⟨hp.repeats.2 ⟨as, r, rfl, has, rfl, rfl⟩, Or.inr (hend _)⟩

theorem follows_name : Follows Program.name ident.gapped :=
  follows_ident.gapped ident_begins.noGap .ident

theorem follows_item : Follows (Parser.spaced .tab .arg Program.arg) arg.gapped :=
  follows_arg.gapped arg_begins.noGap .arg

theorem names_read {ns : List (Gapped Text)} (h : names.At ns r) (hr : EndsLine r) :
    (Parser.many Program.name).Reads ⟨o, names.text ns ++ r⟩ (names.tree o ns)
      ⟨o + (names.text ns).length, r⟩ :=
  follows_name.many_reads Program.advances_name h fun _ => rejects_endsLine Program.rejects_ident hr

theorem args_read {as : List (Gapped Written.Arg)} (h : args.At as r) (hr : EndsLine r) :
    (Parser.many (Parser.spaced .tab .arg Program.arg)).Reads ⟨o, args.text as ++ r⟩ (args.tree o as)
      ⟨o + (args.text as).length, r⟩ :=
  follows_item.many_reads Program.advances_arg.spaced h fun _ => rejects_endsLine Program.rejects_arg hr

end

/-! ## Instructions -/

section
variable {o : Nat} {s r : Text} {c' : Cursor}

/-- The equals sign alone. -/
def sign : Part Unit Span := ⟨fun _ => equals, fun o _ => spanAt o equals, fun _ _ => True⟩

theorem follows_sign : Follows (Program.const equals) sign := by
  have h : Exact (Token.const equals) fun x _ => x = equals := by
    intro s n
    rw [Token.const_eq_ok_iff]
    constructor
    · rintro ⟨⟨r, rfl⟩, rfl⟩
      exact ⟨equals, r, rfl, rfl, rfl⟩
    · rintro ⟨x, r, rfl, rfl, rfl⟩
      exact ⟨List.prefix_append _ _, rfl⟩
  intro o s sp c'
  refine (reads_exact h).trans ⟨?_, ?_⟩
  · rintro ⟨x, r, rfl, rfl, rfl, rfl⟩
    exact ⟨(), r, rfl, trivial, rfl, rfl⟩
  · rintro ⟨-, r, rfl, -, rfl, rfl⟩
    exact ⟨equals, r, rfl, rfl, rfl, rfl⟩

theorem sign_begins : sign.Begins NoGap :=
  fun _ _ _ => ⟨61, [], rfl, noGap_equals⟩

theorem follows_operator : Follows Program.operator operator := by
  intro o s sp c'
  rw [Program.operator, Parser.reads_context]
  constructor
  · rintro ⟨_, m, hsign, hname⟩
    obtain ⟨⟨gap, u⟩, z, rfl, ⟨hgap, -⟩, -, rfl⟩ := (follows_sign.gapped sign_begins .const _ _ _ _).1 hsign
    obtain ⟨g, r, rfl, hg, rfl, rfl⟩ := (follows_name _ _ _ _).1 hname
    refine ⟨⟨gap, g⟩, r, by simp [operator, sign], ⟨hgap, hg⟩, ?_, ?_⟩
    · simp [operator, sign, Part.gapped, Nat.add_assoc]
    · simp [operator, sign, Nat.add_assoc]
  · rintro ⟨⟨gap, g⟩, r, rfl, ⟨hgap, hg⟩, rfl, rfl⟩
    have hsign : sign.gapped.At ⟨gap, ()⟩ (ident.gapped.text g ++ r) := ⟨hgap, trivial⟩
    refine ⟨_, _, (follows_sign.gapped sign_begins .const _ _ _ _).2 ⟨⟨gap, ()⟩, _, ?_, hsign, rfl, rfl⟩,
      (follows_name _ _ _ _).2 ⟨g, r, rfl, hg, ?_, ?_⟩⟩
    · simp [operator, sign]
    · simp [operator, sign, Part.gapped, Nat.add_assoc]
    · simp [operator, sign, Nat.add_assoc]

theorem rejects_operator {as : List (Gapped Written.Arg)} (has : args.At as r) (hr : EndsLine r) :
    Program.operator.Rejects ⟨o, args.text as ++ r⟩ := by
  obtain ⟨gap, z, he, hgap, hz⟩ := exists_gap (args.text as ++ r)
  refine Rejects.context (Rejects.spaced ?_)
  rw [he, skip_gap hgap hz]
  have hno : ¬ equals <+: z := by
    rintro ⟨y, rfl⟩
    exact no_equals hgap has hr he.symm
  have hconst : Token.const equals z = .error (0, .literal equals) := by
    rw [Token.const, if_neg (by rwa [List.isPrefixOf_iff_prefix])]
  exact Parser.rejects_token hconst

theorem optional_read (op : Option (Gapped (Gapped Text))) (z : Text) (hop : ∀ g ∈ op, operator.At g z)
    (hnone : op = none → Program.operator.Rejects ⟨o, z⟩) :
    Program.operator.optional.Reads ⟨o, operatorText op ++ z⟩ (op.map (operator.tree o))
      ⟨o + (operatorText op).length, z⟩ := by
  rw [Parser.reads_optional]
  rcases op with _ | g
  · exact Or.inr ⟨rfl, rfl, hnone rfl⟩
  · exact Or.inl ⟨_, rfl, (follows_operator _ _ _ _).2 ⟨g, z, rfl, hop g rfl, rfl, rfl⟩⟩

theorem optional_derived {sp : Option Span} (h : Program.operator.optional.Reads ⟨o, s⟩ sp c') :
    ∃ op z, s = operatorText op ++ z ∧ (∀ g ∈ op, operator.At g z) ∧ sp = op.map (operator.tree o) ∧
      c' = ⟨o + (operatorText op).length, z⟩ := by
  rcases Parser.reads_optional.1 h with ⟨sp, rfl, hsp⟩ | ⟨rfl, rfl, -⟩
  · obtain ⟨g, z, rfl, hg, rfl, rfl⟩ := (follows_operator _ _ _ _).1 hsp
    refine ⟨some g, z, rfl, ?_, rfl, rfl⟩
    rintro _ ⟨⟩
    exact hg
  · refine ⟨none, s, rfl, ?_, rfl, rfl⟩
    rintro _ ⟨⟩

theorem instr_derived {i : Tree.Instr} (h : Program.instr.Reads ⟨o, s⟩ i c') :
    ∃ d r, s = instr.text d ++ r ∧ instr.At d r ∧ i = instr.tree o d ∧
      c' = ⟨o + (instr.text d).length, r⟩ := by
  obtain ⟨head, m, sp, m', as, hhead, hsp, hargs, rfl⟩ := Program.reads_instr.1 h
  obtain ⟨x, z, rfl, hx, rfl, rfl⟩ := (follows_ident _ _ _ _).1 hhead
  obtain ⟨op, z, rfl, hop, rfl, rfl⟩ := optional_derived hsp
  obtain ⟨ds, r, rfl, hds, rfl, rfl⟩ := follows_item.many Program.advances_arg.spaced hargs
  refine ⟨⟨x, op, ds⟩, r, ?_, ⟨hx, hop, hds⟩, ?_, ?_⟩
  · rw [instr_text_append]; rfl
  · simp [instr, args, spanAt, tree_ident, Part.list, Nat.add_assoc]
  · simp [instr, args, Part.list, Nat.add_assoc]

theorem instr_read {d : Instr} (h : instr.At d r) (hr : EndsLine r) :
    Program.instr.Reads ⟨o, instr.text d ++ r⟩ (instr.tree o d) ⟨o + (instr.text d).length, r⟩ := by
  obtain ⟨x, op, ds⟩ := d
  obtain ⟨hx, hop, hds⟩ := h
  have hhead : Program.ident.Reads ⟨o, x ++ (operatorText op ++ (args.text ds ++ r))⟩ (spanAt o x)
      ⟨o + x.length, operatorText op ++ (args.text ds ++ r)⟩ :=
    (follows_ident _ _ _ _).2 ⟨x, _, rfl, hx, rfl, rfl⟩
  have hlen : o + (instr.text ⟨x, op, ds⟩).length =
      o + x.length + (operatorText op).length + (args.text ds).length := by
    simp [instr, Nat.add_assoc]
  rw [instr_text_append, hlen]
  refine Program.reads_instr.2 ⟨_, _, _, _, _, hhead,
    optional_read op _ hop fun _ => rejects_operator hds hr, args_read hds hr, ?_⟩
  simp [instr, spanAt, Nat.add_assoc]

end

/-! ## Statements -/

section
variable {o : Nat} {s r w : Text} {c' : Cursor}

theorem directive_derived {d : Tree.Directive} (h : (Program.directive w).Reads ⟨o, s⟩ d c') :
    ∃ ns r, s = (directive w).text ns ++ r ∧ (directive w).At ns r ∧ d = (directive w).tree o ns ∧
      c' = ⟨o + ((directive w).text ns).length, r⟩ := by
  obtain ⟨sp, m, ss, hword, hnames, rfl⟩ := Program.reads_directive.1 h
  obtain ⟨z, rfl, hz, -, rfl⟩ := reads_keyword.1 hword
  obtain ⟨ns, r, rfl, hns, rfl, rfl⟩ := follows_name.many Program.advances_name hnames
  refine ⟨ns, r, ?_, ⟨hz, hns⟩, ?_, ?_⟩
  · simp [directive, names, Part.list]
  · simp [directive, names, spanAt, Part.list, Nat.add_assoc]
  · simp [directive, names, Part.list, Nat.add_assoc]

theorem directive_read {ns : List (Gapped Text)} (h : (directive w).At ns r) (hr : EndsLine r) :
    (Program.directive w).Reads ⟨o, (directive w).text ns ++ r⟩ ((directive w).tree o ns)
      ⟨o + ((directive w).text ns).length, r⟩ := by
  have htext : (directive w).text ns ++ r = w ++ (names.text ns ++ r) := by simp [directive]
  have hlen : o + ((directive w).text ns).length = o + w.length + (names.text ns).length := by
    simp [directive, Nat.add_assoc]
  rw [htext, hlen]
  refine Program.reads_directive.2 ⟨_, _, _, reads_keyword.2 ⟨_, rfl, h.1, rfl, rfl⟩, names_read h.2 hr, ?_⟩
  simp [directive, spanAt, Nat.add_assoc]

theorem directive_fails {β : Type} {f : Tree.Directive → β} (h : ¬ Opens w s) :
    (f <$> Program.directive w).Fails ⟨o, s⟩ := by
  refine (Parser.reads_or_fails _ _).resolve_left ?_
  rintro ⟨b, c', hread⟩
  obtain ⟨d, hread, -⟩ := Parser.reads_map.1 hread
  obtain ⟨ns, r, rfl, hns, -⟩ := directive_derived hread
  exact h (directive_opens hns)

/-- Where arguments stand, names can be read, perhaps none. -/
theorem names_read_of_args {as : List (Gapped Written.Arg)} (h : args.At as r) (hr : EndsLine r) :
    ∃ ss m, (Parser.many Program.name).Reads ⟨o, args.text as ++ r⟩ ss m := by
  induction as generalizing o with
  | nil => exact ⟨_, _, names_read (show names.At [] r from trivial) hr⟩
  | cons g as ih =>
    obtain ⟨gap, a⟩ := g
    obtain ⟨⟨hgap, ha⟩, has⟩ := h
    have htext : args.text (⟨gap, a⟩ :: as) ++ r = gap ++ (a.text ++ (args.text as ++ r)) := by
      simp [args, arg, Part.list]
    obtain ⟨b, z, hz, hb, hk⟩ := arg_kind ha
    rw [htext]
    by_cases hident : Token.isIdentStart b = true
    · -- an identifier, which is read as a name
      rcases a with x | x | x
      · have hname : Program.name.Reads ⟨o, gap ++ (x ++ (args.text as ++ r))⟩ (spanAt (o + gap.length) x)
            ⟨o + (gap.length + x.length), args.text as ++ r⟩ :=
          (follows_name _ _ _ _).2 ⟨⟨gap, x⟩, args.text as ++ r, by simp, ⟨hgap, ha⟩, rfl, by simp⟩
        obtain ⟨ss, m, hss⟩ := ih has
        obtain ⟨hrepeat, hend⟩ := (Parser.reads_many Program.advances_name).1 hss
        exact ⟨_, m, (Parser.reads_many Program.advances_name).2 ⟨.cons hname hrepeat, hend⟩⟩
      · simp [kindOf, kindBy, hident] at hk
      · simp [kindOf, kindBy, hident] at hk
    · have hhead : ∀ c ∈ (a.text ++ (args.text as ++ r)).head?, c = b := by
        rw [hz]; rintro _ ⟨⟩; rfl
      have hreject : Program.name.Rejects ⟨o, gap ++ (a.text ++ (args.text as ++ r))⟩ := by
        refine Rejects.spaced ?_
        rw [skip_gap hgap fun c hc => hhead c hc ▸ (startsArg_imp b hb).1]
        exact Parser.rejects_token (Token.ident_error fun c hc => hhead c hc ▸ by simpa using hident)
      exact ⟨_, _, (Parser.reads_many Program.advances_name).2 ⟨.nil _, .inr hreject⟩⟩

/-- An instruction that opens with one of the words can be read as a directive. -/
theorem directive_reads_of_instr {d : Instr} (hw : ∀ b ∈ w, Token.isIdentByte b = true)
    (h : instr.At d r) (hr : EndsLine r) (hopens : Opens w (instr.text d ++ r)) :
    ∃ x m, (Program.directive w).Reads ⟨o, instr.text d ++ r⟩ x m := by
  obtain ⟨x, op, as⟩ := d
  obtain ⟨hx, hop, has⟩ := h
  obtain ⟨hident, hends⟩ := ident_iff.1 hx
  have hkey := keyword_iff.2 ⟨hopens, rfl⟩
  rw [instr_text_append] at hkey ⊢
  refine Program.directive_reads_of_keyword hident hends rfl ?_ hw ((Token.keyword_append hw hends).1 hkey)
  have hcursor : (Cursor.mk o (x ++ (operatorText op ++ (args.text as ++ r)))).advance x.length =
      ⟨o + x.length, operatorText op ++ (args.text as ++ r)⟩ := by
    simp [Cursor.advance]
  rw [hcursor]
  rcases op with _ | g
  · exact names_read_of_args has hr
  · have hread := (follows_operator (o + x.length) _ _ _).2 ⟨g, args.text as ++ r, rfl, hop g rfl, rfl, rfl⟩
    exact ⟨_, _, (Parser.reads_many Program.advances_name).2
      ⟨.nil _, .inr (Program.rejects_name_of_operator hread)⟩⟩

theorem stmt_derived {t : Tree.Stmt} (h : Program.stmt.Reads ⟨o, s⟩ t c') (hend : EndsLine c'.rest)
    (hblock : ¬ Opens blockWord s) : ∃ st r, s = stmt.text st ++ r ∧ stmt.At st r ∧ t = stmt.tree o st ∧
      c' = ⟨o + (stmt.text st).length, r⟩ := by
  rcases Program.reads_stmt h with ⟨d, hd, rfl⟩ | ⟨d, hd, rfl⟩ | ⟨i, hi, rfl, hlive, hout⟩
  · obtain ⟨ns, r, rfl, hns, rfl, rfl⟩ := directive_derived hd
    exact ⟨.live ns, r, rfl, hns, rfl, rfl⟩
  · obtain ⟨ns, r, rfl, hns, rfl, rfl⟩ := directive_derived hd
    exact ⟨.out ns, r, rfl, hns, rfl, rfl⟩
  · obtain ⟨d, r, rfl, hd, rfl, rfl⟩ := instr_derived hi
    refine ⟨.instr d, r, rfl, ⟨?_, hd⟩, rfl, rfl⟩
    have hbytes := Program.bytes_of_reserved
    intro w hw hopens
    have hreads := directive_reads_of_instr (o := o) (hbytes w hw) hd hend hopens
    simp only [List.mem_cons, List.not_mem_nil, or_false] at hw
    rcases hw with rfl | rfl | rfl
    · exact hblock hopens
    · obtain ⟨x, m, hx⟩ := hreads
      exact hlive x m hx
    · obtain ⟨x, m, hx⟩ := hreads
      exact hout x m hx

theorem stmt_read {st : Stmt} (h : stmt.At st r) (hr : EndsLine r) :
    Program.stmt.Reads ⟨o, stmt.text st ++ r⟩ (stmt.tree o st) ⟨o + (stmt.text st).length, r⟩ := by
  have hno : ∀ w ∈ [blockWord, liveWord, outWord], st.word? ≠ some w → ¬ Opens w (stmt.text st ++ r) :=
    fun w hw hne hopens => hne ((opens_iff_word h hw).1 hopens)
  simp only [Program.stmt, Parser.reads_anyOf_cons, Parser.reads_map]
  rcases st with ns | ns | i
  · exact Or.inl ⟨_, directive_read h hr, rfl⟩
  · have hne : outWord ≠ liveWord := by decide +kernel
    refine Or.inr ⟨directive_fails (hno liveWord (by simp) (by simpa [Stmt.word?] using hne)), Or.inl ?_⟩
    exact ⟨_, directive_read h hr, rfl⟩
  · refine Or.inr ⟨directive_fails (hno liveWord (by simp) (by simp [Stmt.word?])),
      Or.inr ⟨directive_fails (hno outWord (by simp) (by simp [Stmt.word?])), Or.inl ?_⟩⟩
    exact ⟨_, instr_read h.2 hr, rfl⟩

/-- **A statement line is read iff it has a derivation**, where no header stands. -/
theorem reads_stmtLine_iff {t : Tree.Stmt} (hblock : ¬ Opens blockWord s) :
    Program.stmtLine.Reads ⟨o, s⟩ t c' ↔ ∃ st x r, s = stmt.text st ++ (x ++ r) ∧ stmt.At st (x ++ r) ∧
      LineEnd x r ∧ t = stmt.tree o st ∧ c' = ⟨o + (stmt.text st ++ x).length, r⟩ := by
  rw [Program.reads_stmtLine]
  constructor
  · rintro ⟨⟨o', z⟩, e, hs, he⟩
    obtain ⟨x, r, rfl, hx, -, rfl⟩ := (reads_exact exact_eol).1 he
    obtain ⟨st, z, rfl, hst, rfl, hc⟩ := stmt_derived hs ⟨x, r, rfl, hx⟩ hblock
    cases hc
    exact ⟨st, x, r, rfl, hst, hx, rfl, by simp [Nat.add_assoc]⟩
  · rintro ⟨st, x, r, rfl, hst, hx, rfl, rfl⟩
    refine ⟨_, _, stmt_read hst ⟨x, r, rfl, hx⟩, (reads_exact exact_eol).2 ⟨x, r, rfl, hx, rfl, ?_⟩⟩
    simp [Nat.add_assoc]

end

/-! ## Lines -/

section
variable {o : Nat} {s r blank : Text} {c c' : Cursor}

theorem skip_blank (h : Longest BlankRun blank r) :
    (Cursor.mk o (blank ++ r)).skipBlank = ⟨o + blank.length, r⟩ := by
  rw [Cursor.skipBlank, blank_iff.1 h]
  simp [Cursor.advance]

theorem exists_blank (s : Text) : ∃ blank r, s = blank ++ r ∧ Longest BlankRun blank r := by
  have hsplit : s.take (blankCount false s) ++ s.drop (blankCount false s) = s := List.take_append_drop _ _
  refine ⟨_, _, hsplit.symm, blank_iff.2 ?_⟩
  rw [hsplit, List.length_take, Nat.min_eq_left (blankCount_le false s)]

theorem exists_skipBlank (c : Cursor) : ∃ blank r, c.rest = blank ++ r ∧ Longest BlankRun blank r ∧
    c.skipBlank = ⟨c.offset + blank.length, r⟩ := by
  obtain ⟨blank, r, hs, hblank⟩ := exists_blank c.rest
  exact ⟨blank, r, hs, hblank, by rw [← skip_blank hblank, ← hs]⟩

theorem opensBlock_iff : Program.opensBlock c = true ↔ Opens blockWord c.rest := by
  rw [Program.opensBlock]
  constructor
  · intro h
    rcases hk : Token.keyword blockWord c.rest with e | n
    · rw [hk] at h; cases h
    · exact (keyword_iff.1 hk).1
  · intro h
    rw [keyword_iff.2 ⟨h, rfl⟩]
    rfl

/-- Blanks and lines, and behind them a block or the end of the text. -/
structure Body (blank : Text) (ls : List Line) (r : Text) : Prop where
  blank : Longest BlankRun blank (line.listText ls ++ r)
  lines : line.ListAt ls r
  follow : EndsBlock r

theorem lines_text_append (l : Line) (ls : List Line) (r : Text) : line.listText (l :: ls) ++ r =
    stmt.text l.stmt ++ (l.stop ++ (l.blank ++ (line.listText ls ++ r))) := by
  rw [Part.listText_cons, List.append_assoc, line_text_append]

theorem length_line_text (l : Line) :
    (line.text l).length = (stmt.text l.stmt ++ l.stop).length + l.blank.length := by
  simp [line, Nat.add_assoc]

theorem length_lines_cons (l : Line) (ls : List Line) : (line.listText (l :: ls)).length =
    (stmt.text l.stmt ++ l.stop).length + l.blank.length + (line.listText ls).length := by
  rw [Part.listText_cons, List.length_append, length_line_text]

theorem lines_derived {ss : List Tree.Stmt} {last : Nat} (h : Program.Lines c ss last c') :
    ∃ blank ls r, c.rest = blank ++ (line.listText ls ++ r) ∧ Body blank ls r ∧
      ss = line.listTree (c.offset + blank.length) ls ∧ last = lastStop c.offset (c.offset + blank.length) ls ∧
      c'.skipBlank = ⟨c.offset + blank.length + (line.listText ls).length, r⟩ := by
  induction h with
  | @atEnd c hrest =>
    obtain ⟨blank, r, hs, hblank, hskip⟩ := exists_skipBlank c
    rw [hskip] at hrest ⊢
    subst hrest
    exact ⟨blank, [], [], hs, ⟨hblank, trivial, Or.inl rfl⟩, rfl, rfl, rfl⟩
  | @atBlock c hblock =>
    obtain ⟨blank, r, hs, hblank, hskip⟩ := exists_skipBlank c
    rw [opensBlock_iff, hskip] at hblock
    exact ⟨blank, [], r, hs, ⟨hblank, trivial, Or.inr hblock⟩, rfl, rfl, hskip⟩
  | @line c m c' t ss last hrest hblock head tail ih =>
    obtain ⟨blank, z, hs, hblank, hskip⟩ := exists_skipBlank c
    have hno : ¬ Opens blockWord z := by
      rw [← Bool.not_eq_true, opensBlock_iff, hskip] at hblock
      exact hblock
    rw [hskip] at head
    obtain ⟨st, x, y, rfl, hst, hx, rfl, rfl⟩ := (reads_stmtLine_iff hno).1 head
    obtain ⟨blank', ls, r, hy, hbody, rfl, rfl, hend⟩ := ih
    change y = _ at hy
    subst hy
    have htext := lines_text_append ⟨st, x, blank'⟩ ls r
    have hlen := length_line_text ⟨st, x, blank'⟩
    refine ⟨blank, ⟨st, x, blank'⟩ :: ls, r, ?_, ⟨?_, ⟨⟨hst, hx, hbody.blank⟩, hbody.lines⟩, hbody.follow⟩,
      ?_, ?_, ?_⟩
    · rw [htext]; exact hs
    · rw [htext]; exact hblank
    · rw [Part.listTree, hlen, ← Nat.add_assoc]; rfl
    · rw [lastStop, hlen, ← Nat.add_assoc]
    · rw [hend, length_lines_cons]
      simp [Nat.add_assoc]

theorem lines_read {ls : List Line} (h : Body blank ls r) :
    ∃ c', Program.Lines ⟨o, blank ++ (line.listText ls ++ r)⟩ (line.listTree (o + blank.length) ls)
      (lastStop o (o + blank.length) ls) c' ∧
      c'.skipBlank = ⟨o + blank.length + (line.listText ls).length, r⟩ := by
  induction ls generalizing o blank with
  | nil =>
    have hskip : (Cursor.mk o (blank ++ r)).skipBlank = ⟨o + blank.length, r⟩ := skip_blank h.blank
    rcases h.follow with rfl | hopens
    · refine ⟨_, .atEnd (by rw [Part.listText_nil, List.nil_append, hskip]), ?_⟩
      rw [Part.listText_nil, List.nil_append, hskip]
      rfl
    · refine ⟨_, .atBlock (opensBlock_iff.2 ?_), hskip⟩
      rw [Part.listText_nil, List.nil_append, hskip]
      exact hopens
  | cons l ls ih =>
    obtain ⟨hblank, ⟨⟨hst, hx, hblank'⟩, hls⟩, hfollow⟩ := h
    obtain ⟨c', hlines, hend⟩ :=
      ih (o := o + blank.length + (stmt.text l.stmt ++ l.stop).length) ⟨hblank', hls, hfollow⟩
    have hskip := skip_blank (o := o) hblank
    have hno : ¬ EndsBlock (line.listText (l :: ls) ++ r) := by
      rw [Part.listText_cons, List.append_assoc]
      exact line_not_endsBlock l _ ⟨hst, hx, hblank'⟩
    have hno' : ¬ Opens blockWord (line.listText (l :: ls) ++ r) := fun h => hno (Or.inr h)
    refine ⟨c', ?_, ?_⟩
    · rw [Part.listTree, lastStop, length_line_text, ← Nat.add_assoc]
      refine .line (fun hnil => hno (Or.inl (by rwa [hskip] at hnil))) ?_ ?_ hlines
      · rw [← Bool.not_eq_true, opensBlock_iff, hskip]
        exact hno'
      · rw [hskip, reads_stmtLine_iff hno']
        exact ⟨l.stmt, l.stop, _, lines_text_append l ls r, hst, hx, rfl, rfl⟩
    · rw [hend, length_lines_cons]
      simp [Nat.add_assoc]

end

/-! ## Blocks -/

section
variable {o : Nat} {s r : Text} {c c' : Cursor}

theorem block_text_append (b : Block) (r : Text) : block.text b ++ r =
    blockWord ++ (b.gap ++ (b.name ++ (b.stop ++ (b.blank ++ (line.listText b.lines ++ r))))) := by
  simp [block, Block.header]

/-- The offset behind the header, as it is counted in reading. -/
theorem header_length (b : Block) (o : Nat) :
    o + blockWord.length + (b.gap ++ b.name).length + b.stop.length = o + b.header.length := by
  simp [Block.header, Nat.add_assoc]

theorem block_length (b : Block) (o : Nat) : o + b.header.length + b.blank.length +
    (line.listText b.lines).length = o + (block.text b).length := by
  simp [block, Nat.add_assoc]

theorem block_derived {t : Tree.Block} (h : Program.block.Reads ⟨o, s⟩ t c') :
    ∃ b r, s = block.text b ++ r ∧ block.At b r ∧ EndsBlock r ∧ t = block.tree o b ∧
      c'.skipBlank = ⟨o + (block.text b).length, r⟩ := by
  obtain ⟨sp, m, ss, last, hheader, hlines, rfl⟩ := Program.reads_block.1 h
  obtain ⟨w, m₁, m₂, e, hword, hname, heol⟩ := Program.reads_header.1 hheader
  obtain ⟨z, rfl, hz, -, rfl⟩ := reads_keyword.1 hword
  obtain ⟨⟨gap, name⟩, z, rfl, ⟨hgap, hident⟩, rfl, rfl⟩ := (follows_name _ _ _ _).1 hname
  obtain ⟨x, z, rfl, hx, -, rfl⟩ := (reads_exact exact_eol).1 heol
  obtain ⟨blank, ls, r, he, hbody, rfl, rfl, hend⟩ := lines_derived hlines
  change z = _ at he
  subst he
  have hlen := header_length ⟨gap, name, x, blank, ls⟩ o
  simp only [Part.text_gapped, text_ident] at hend hz ⊢
  rw [hlen] at hend ⊢
  refine ⟨⟨gap, name, x, blank, ls⟩, r, ?_, ⟨?_, hgap, hident, hx, hbody.blank, hbody.lines⟩, hbody.follow, rfl, ?_⟩
  · rw [block_text_append]; simp
  · simpa using hz
  · rw [hend, ← block_length]

theorem block_read {b : Block} (h : block.At b r) (hr : EndsBlock r) :
    ∃ c', Program.block.Reads ⟨o, block.text b ++ r⟩ (block.tree o b) c' ∧
      c'.skipBlank = ⟨o + (block.text b).length, r⟩ := by
  obtain ⟨hword, hgap, hident, hx, hblank, hls⟩ := h
  obtain ⟨c', hlines, hend⟩ := lines_read (o := o + b.header.length) ⟨hblank, hls, hr⟩
  rw [block_length] at hend
  have hname : ident.gapped.At ⟨b.gap, b.name⟩ (b.stop ++ (b.blank ++ (line.listText b.lines ++ r))) :=
    ⟨hgap, hident⟩
  refine ⟨c', Program.reads_block.2 ⟨_, _, _, _, Program.reads_header.2 ⟨_, _, _, _,
    reads_keyword.2 ⟨_, block_text_append b r, hword, rfl, rfl⟩,
    (follows_name _ _ _ _).2 ⟨⟨b.gap, b.name⟩, _, ?_, hname, rfl, rfl⟩,
    (reads_exact exact_eol).2 ⟨b.stop, _, rfl, hx, rfl, rfl⟩⟩, ?_, rfl⟩, hend⟩
  · simp
  · rw [Part.text_gapped, text_ident, header_length]
    exact hlines

theorem blocks_iff {ts : List Tree.Block} : Program.Blocks c ts c' ↔
    ∃ bs, c.rest = block.listText bs ∧ block.ListAt bs [] ∧ ts = block.listTree c.offset bs ∧
      c' = ⟨c.offset + (block.listText bs).length, []⟩ := by
  constructor
  · intro h
    induction h with
    | @nil c hrest =>
      obtain ⟨o, s⟩ := c
      cases hrest
      exact ⟨[], rfl, trivial, rfl, rfl⟩
    | @cons c m c' t ts head tail ih =>
      obtain ⟨b, r, hrest, hb, -, rfl, hskip⟩ := block_derived head
      rw [hskip] at ih
      obtain ⟨bs, hr, hbs, rfl, rfl⟩ := ih
      change r = _ at hr
      subst hr
      refine ⟨b :: bs, by rw [hrest, Part.listText_cons], ⟨by rwa [List.append_nil], hbs⟩, rfl, ?_⟩
      rw [Part.listText_cons, List.length_append, ← Nat.add_assoc]
  · rintro ⟨bs, hrest, hbs, rfl, rfl⟩
    induction bs generalizing c with
    | nil =>
      obtain ⟨o, s⟩ := c
      cases hrest
      exact .nil rfl
    | cons b bs ih =>
      obtain ⟨o, s⟩ := c
      change s = _ at hrest
      subst hrest
      obtain ⟨m, hread, hskip⟩ := block_read (o := o) hbs.1 (blocks_endsBlock bs hbs.2)
      have htail := ih (c := m.skipBlank) (by rw [hskip, List.append_nil]) hbs.2
      rw [hskip] at htail
      rw [List.append_nil] at hread
      have hblocks := Program.Blocks.cons hread (by rw [hskip]; exact htail)
      rw [Part.listText_cons, List.length_append, ← Nat.add_assoc]
      exact hblocks

end

end Derivation

namespace Source

open Straightline.Derivation Lexical

/-- The first block stands behind the blanks in front. -/
theorem skipBlank_ofText {src : Source} {blank r : Text} (hsplit : src.text = blank ++ r)
    (hblank : Longest BlankRun blank r) : (Cursor.ofText src.text).skipBlank = ⟨blank.length, r⟩ := by
  have hskip := skip_blank (o := 0) hblank
  rw [← hsplit, Nat.zero_add] at hskip
  exact hskip

/-- **The parser accepts exactly the texts of the grammar**, and reads each of them as the tree
    of its derivation, of which there is only one. -/
theorem parse_iff_derives (src : Source) :
    (∀ t, src.parse = .ok t ↔ ∃ f : Derivation.File, f.Derives src.text ∧ t = f.tree) ∧
      ∀ f f' : Derivation.File, f.Derives src.text → f'.Derives src.text → f = f' := by
  refine ⟨fun t => ?_, fun f f' h h' => h.unique h'⟩
  rw [parse_eq_ok_iff]
  constructor
  · rintro ⟨c', hfile⟩
    obtain ⟨hblocks, hspan⟩ := Program.reads_file.1 hfile
    obtain ⟨blank, r, hsplit, hblank⟩ := exists_blank src.text
    rw [skipBlank_ofText hsplit hblank] at hblocks
    obtain ⟨bs, hr, hbs, htrees, rfl⟩ := blocks_iff.1 hblocks
    change r = _ at hr
    subst hr
    refine ⟨⟨blank, bs⟩, ⟨hsplit, hblank, hbs⟩, ?_⟩
    obtain ⟨span, trees⟩ := t
    cases htrees
    cases hspan
    simp [File.tree, File.text, Cursor.ofText]
  · rintro ⟨f, ⟨htext, hblank, hbs⟩, rfl⟩
    have hskip := skipBlank_ofText htext hblank
    have hblocks : Program.Blocks (Cursor.ofText src.text).skipBlank f.tree.blocks ⟨f.text.length, []⟩ := by
      rw [hskip]
      exact blocks_iff.2 ⟨f.blocks, rfl, hbs, rfl, by simp [File.text]⟩
    exact ⟨_, Program.reads_file.2 ⟨hblocks, rfl⟩⟩

end Source

end Straightline
