/-
  Statements written with single spaces.

  * `Written.Stmt.line` is the line of a statement: a tab, its words with a space
    between two, a newline;
  * `Written.Stmt.Plain` says that the words can stand there;
  * `Program.stmtLine_yields`: the line of a plain statement is read as that statement.
-/
import Straightline.Proofs.Written

namespace Straightline

namespace Written

open Token (IsIdent)

/-- The text of an argument. -/
def Arg.text : Arg → Text
  | ident x | int x | string x => x

/-- A word behind a space. -/
def spacedText (x : Text) : Text := utf8 " " ++ x

/-- The words of an instruction. -/
def Instr.text (i : Instr) : Text :=
  (match i.dst with
    | some d => d ++ utf8 " = "
    | none => []) ++ i.op ++ i.args.flatMap fun a => spacedText a.text

/-- The words of a statement. -/
def Stmt.text : Stmt → Text
  | instr i => i.text
  | live xs => utf8 "live" ++ xs.flatMap spacedText
  | out xs => utf8 "out" ++ xs.flatMap spacedText

/-- A statement on a line of its own. -/
def Stmt.line (s : Stmt) : Text :=
  indented (s.text ++ [newline])

/-- A space or a newline follows. -/
def Breaks (r : Text) : Prop :=
  ∃ b s, r = b :: s ∧ (b = 32 ∨ b = newline)

/-- The argument is scanned as what it is if `r` follows it. -/
def Arg.ScansBefore (r : Text) : Arg → Prop
  | ident x => Token.ident (x ++ r) = .ok x.length
  | int x => (∃ e, Token.ident (x ++ r) = .error e) ∧ Token.int (x ++ r) = .ok x.length
  | string x => (∃ e, Token.ident (x ++ r) = .error e) ∧ (∃ e, Token.int (x ++ r) = .error e) ∧
      Token.string (x ++ r) = .ok x.length

/-- The argument can stand behind a space. -/
structure Arg.Plain (a : Arg) : Prop where
  starts : ∃ b y, a.text = b :: y ∧ Spaces.tab.contains b = false ∧ b ≠ 61
  scans : ∀ r, Breaks r → a.ScansBefore r

/-- The instruction can stand on a line. -/
structure Instr.Plain (i : Instr) : Prop where
  dst : ∀ d ∈ i.dst, IsIdent d
  op : IsIdent i.op
  free : reserved (i.dst.getD i.op) = false
  args : ∀ a ∈ i.args, a.Plain

/-- The statement can stand on a line. -/
def Stmt.Plain : Stmt → Prop
  | instr i => i.Plain
  | live xs | out xs => ∀ x ∈ xs, IsIdent x

variable {r x : Text}

theorem breaks_newline (r : Text) : Breaks (newline :: r) :=
  ⟨newline, r, rfl, .inr rfl⟩

theorem breaks_spaced (x r : Text) : Breaks (spacedText x ++ r) :=
  ⟨32, x ++ r, rfl, .inl rfl⟩

theorem breaks_flatMap {α : Type} {f : α → Text} (as : List α) (hr : Breaks r) :
    Breaks ((as.flatMap fun a => spacedText (f a)) ++ r) := by
  cases as with
  | nil => exact hr
  | cons a as =>
    rw [List.flatMap_cons, List.append_assoc]
    exact breaks_spaced _ _

theorem Breaks.endsWord (h : Breaks r) : Token.EndsWord r := by
  obtain ⟨b, s, rfl, rfl | rfl⟩ := h
  · exact Token.endsWord_cons.2 (by decide)
  · exact Token.endsWord_cons.2 (by decide)

theorem Instr.text_none (op : Text) (args : List Arg) (r : Text) :
    (Instr.mk none op args).text ++ r = op ++ ((args.flatMap fun a => spacedText a.text) ++ r) := by
  rw [Instr.text, List.nil_append, List.append_assoc]

theorem Instr.text_some (d op : Text) (args : List Arg) (r : Text) :
    (Instr.mk (some d) op args).text ++ r =
      d ++ (utf8 " = " ++ op ++ ((args.flatMap fun a => spacedText a.text) ++ r)) := by
  simp only [Instr.text, List.append_assoc]

/-- What starts an identifier is neither blank nor a mark. -/
theorem start_of_isIdent (hx : IsIdent x) :
    ∃ b y, x = b :: y ∧ Spaces.all.contains b = false ∧ b ≠ commentMark ∧ b ≠ 61 := by
  obtain ⟨b, y, rfl, hb⟩ := Token.isIdent_cons hx
  have hstart : ∀ b, Token.isIdentStart b = true →
      Spaces.all.contains b = false ∧ b ≠ commentMark ∧ b ≠ 61 :=
    forall_byte (by decide +kernel)
  exact ⟨b, y, rfl, hstart b hb⟩

theorem tab_of_all {b : UInt8} (h : Spaces.all.contains b = false) : Spaces.tab.contains b = false := by
  simp only [Spaces.contains_all, Spaces.contains_tab, Bool.or_eq_false_iff] at h ⊢
  exact h.1.1

theorem plain_ident (hx : IsIdent x) : (Arg.ident x).Plain := by
  obtain ⟨b, y, rfl, hblank, -, heq⟩ := start_of_isIdent hx
  exact ⟨⟨b, y, rfl, tab_of_all hblank, heq⟩, fun r hr => Token.ident_append hx hr.endsWord⟩

end Written

/-! ## Reading a known text -/

namespace Parser

variable {α β : Type} {src : Source} {p : Parser α} {P Q : α → Prop} {c : Cursor} {r x : Text}

/-- From `c` the parser reads something with the property, and leaves the text `r`. -/
def Yields (src : Source) (p : Parser α) (P : α → Prop) (c : Cursor) (r : Text) : Prop :=
  ∃ a c', p.Reads c a c' ∧ P a ∧ c'.On src.text ∧ c'.rest = r

theorem Yields.map {f : α → β} {Q : β → Prop} (h : Yields src p P c r) (hPQ : ∀ a, P a → Q (f a)) :
    Yields src (f <$> p) Q c r := by
  obtain ⟨a, c', hp, ha, hc'⟩ := h
  exact ⟨f a, c', reads_map.2 ⟨a, hp, rfl⟩, hPQ a ha, hc'⟩

theorem token_yields {scan : Text → Token.Scan} (hc : c.On src.text) (hrest : c.rest = x ++ r)
    (hscan : scan (x ++ r) = .ok x.length) : Yields src (token scan) (fun s => src.slice s = .ok x) c r := by
  have hle : x.length ≤ c.rest.length := by simp [hrest]
  have hslice : src.slice ⟨c.offset, (c.offset + x.length : Nat)⟩ = .ok x := by
    rw [slice_of_on hc hle, hrest, List.take_left]
  exact ⟨_, c.advance x.length, reads_token.2 ⟨x.length, by rw [hrest, hscan], rfl, rfl⟩, hslice,
    hc.advance hle, Cursor.rest_advance hrest⟩

/-- A part behind a space. -/
theorem Yields.spaced {k : Kind} (hc : c.On src.text) (hrest : c.rest = Written.spacedText x ++ r)
    (hx : ∀ b ∈ (x ++ r).head?, Spaces.tab.contains b = false)
    (h : ∀ c : Cursor, c.On src.text → c.rest = x ++ r → Yields src p P c r) :
    Yields src (spaced .tab k p) P c r := by
  have hskip : (c.skip .tab).rest = x ++ r :=
    Cursor.rest_skip (x := utf8 " ") (by rw [hrest, Written.spacedText, List.append_assoc]) (by decide +kernel) hx
  obtain ⟨a, c', hp, ha⟩ := h _ (hc.skip .tab) hskip
  exact ⟨a, c', reads_spaced.2 hp, ha⟩

/-- Words behind spaces, one after the other. -/
theorem repeats_yield {f : β → Text} {R : α → β → Prop} {ws : List β}
    (hstep : ∀ w ∈ ws, ∀ (c : Cursor) r, c.On src.text → c.rest = Written.spacedText (f w) ++ r →
      Written.Breaks r → Yields src p (R · w) c r)
    (hr : Written.Breaks r) (hc : c.On src.text)
    (hrest : c.rest = (ws.flatMap fun w => Written.spacedText (f w)) ++ r) :
    ∃ as c', Repeats p.Reads c as c' ∧ List.Forall₂ R as ws ∧ c'.On src.text ∧ c'.rest = r := by
  induction ws generalizing c with
  | nil => exact ⟨[], c, .nil c, .nil, hc, by simpa using hrest⟩
  | cons w ws ih =>
    obtain ⟨hw, hws⟩ := List.forall_mem_cons.1 hstep
    rw [List.flatMap_cons, List.append_assoc] at hrest
    obtain ⟨a, m, hp, ha, hm, hrest'⟩ := hw c _ hc hrest (Written.breaks_flatMap ws hr)
    obtain ⟨as, c', hps, has, hc', hr'⟩ := ih hws hm hrest'
    exact ⟨a :: as, c', .cons hp hps, .cons ha has, hc', hr'⟩

/-- Words behind spaces up to the end of a line, where no further word starts. -/
theorem many_yields {f : β → Text} {R : α → β → Prop} {ws : List β} (hp : p.Advances)
    (hstep : ∀ w ∈ ws, ∀ (c : Cursor) r, c.On src.text → c.rest = Written.spacedText (f w) ++ r →
      Written.Breaks r → Yields src p (R · w) c r)
    (hstop : ∀ c : Cursor, c.rest = newline :: r → p.Rejects c) (hc : c.On src.text)
    (hrest : c.rest = (ws.flatMap fun w => Written.spacedText (f w)) ++ newline :: r) :
    Yields src (many p) (List.Forall₂ R · ws) c (newline :: r) := by
  obtain ⟨as, c', hps, has, hc', hr⟩ := repeats_yield hstep (Written.breaks_newline r) hc hrest
  exact ⟨as, c', (reads_many hp).2 ⟨hps, .inr (hstop c' hr)⟩, has, hc', hr⟩

end Parser

namespace Program

open Straightline.Parser Straightline.Token
open Written (Breaks spacedText)

variable {src : Source} {c : Cursor} {r x : Text}

/-- The byte starts an identifier, an integer or a string. -/
def startsArg (b : UInt8) : Bool :=
  isIdentStart b || isDigit b || b == 43 || b == 45 || b == Quoted.quote

theorem rejects_ident (c : Cursor) (h : ∀ b ∈ c.rest.head?, startsArg b = false) :
    ident.Rejects c := by
  refine rejects_token (ident_error fun b hb => ?_)
  have hno := h b hb
  simp only [startsArg, Bool.or_eq_false_iff] at hno
  exact hno.1.1.1.1

theorem rejects_arg (c : Cursor) (h : ∀ b ∈ c.rest.head?, startsArg b = false) :
    arg.Rejects c := by
  have hint : Token.int c.rest = .error (0, .int) := by
    rcases hc : c.rest with _ | ⟨b, z⟩
    · rfl
    · have hno := h b (by rw [hc]; rfl)
      simp only [startsArg, Bool.or_eq_false_iff, beq_eq_false_iff_ne] at hno
      simp [Token.int, Token.digits, hno]
  have hstring : Token.string c.rest = .error (0, .string) := by
    rcases hc : c.rest with _ | ⟨b, z⟩
    · rfl
    · have hno := h b (by rw [hc]; rfl)
      simp only [startsArg, Bool.or_eq_false_iff, beq_eq_false_iff_ne] at hno
      simp [Token.string, hno]
  refine rejects_anyOf ?_
  simp only [List.forall_mem_cons, List.not_mem_nil, false_imp_iff, implies_true, and_true]
  exact ⟨(rejects_ident c h).map, (rejects_token hint).map, (rejects_token hstring).map⟩

theorem skip_newline (h : c.rest = newline :: r) : (c.skip .tab).rest = newline :: r :=
  Cursor.rest_skip (x := []) h (by simp) (by simp; decide +kernel)

/-- No word starts at the end of a line. -/
theorem startsArg_newline (h : c.rest = newline :: r) :
    ∀ b ∈ (c.skip .tab).rest.head?, startsArg b = false := by
  rw [skip_newline h]
  rintro _ ⟨⟩
  decide

theorem ident_yields (hc : c.On src.text) (hrest : c.rest = x ++ r) (hx : IsIdent x) (hr : EndsWord r) :
    Yields src ident (fun s => src.slice s = .ok x) c r :=
  token_yields hc hrest (ident_append hx hr)

theorem tab_of_isIdent (hx : IsIdent x) : ∀ b ∈ (x ++ r).head?, Spaces.tab.contains b = false := by
  obtain ⟨b, y, rfl, hb, -⟩ := Written.start_of_isIdent hx
  simpa using Written.tab_of_all hb

theorem name_yields (hx : IsIdent x) (hc : c.On src.text) (hrest : c.rest = spacedText x ++ r)
    (hr : EndsWord r) : Yields src name (fun s => src.slice s = .ok x) c r :=
  .spaced hc hrest (tab_of_isIdent hx) fun _ hc hrest => ident_yields hc hrest hx hr

theorem names_yield {xs : List Text} (hxs : ∀ x ∈ xs, IsIdent x) (hc : c.On src.text)
    (hrest : c.rest = xs.flatMap spacedText ++ newline :: r) :
    Yields src (many name) (List.Forall₂ (fun s x => src.slice s = .ok x) · xs) c (newline :: r) :=
  many_yields (f := id) advances_name
    (fun x hx _ _ hc hrest hr => name_yields (hxs x hx) hc hrest hr.endsWord)
    (fun _ hend => (rejects_ident _ (startsArg_newline hend)).spaced) hc hrest

theorem arg_yields {a : Written.Arg} (ha : a.ScansBefore r) (hc : c.On src.text) (hrest : c.rest = a.text ++ r) :
    Yields src arg (·.Spells src a) c r := by
  have hfails : ∀ {scan : Text → Scan} {f : Span → Tree.Arg}, (∃ e, scan (a.text ++ r) = .error e) →
      (f <$> token scan).Fails c := by
    rintro scan f ⟨⟨n, e⟩, he⟩
    refine ⟨c.advance n, .of e, ?_⟩
    change andThen (token scan) (fun s => succeed (f s)) c = _
    simp [andThen, token, hrest, he]
  cases a with
  | ident x =>
    obtain ⟨a, c', hreads, ha⟩ :=
      (token_yields hc hrest ha).map (Q := (Tree.Arg.Spells src · (.ident x))) fun _ => Tree.Arg.Spells.ident
    exact ⟨a, c', reads_anyOf_cons.2 (.inl hreads), ha⟩
  | int x =>
    obtain ⟨a, c', hreads, ha'⟩ :=
      (token_yields hc hrest ha.2).map (Q := (Tree.Arg.Spells src · (.int x))) fun _ => Tree.Arg.Spells.int
    exact ⟨a, c', reads_anyOf_cons.2 (.inr ⟨hfails ha.1, reads_anyOf_cons.2 (.inl hreads)⟩), ha'⟩
  | string x =>
    obtain ⟨a, c', hreads, ha'⟩ :=
      (token_yields hc hrest ha.2.2).map (Q := (Tree.Arg.Spells src · (.string x))) fun _ => Tree.Arg.Spells.string
    exact ⟨a, c', reads_anyOf_cons.2 (.inr ⟨hfails ha.1, reads_anyOf_cons.2 (.inr ⟨hfails ha.2.1,
      reads_anyOf_cons.2 (.inl hreads)⟩)⟩), ha'⟩

theorem args_yield {as : List Written.Arg} (has : ∀ a ∈ as, a.Plain) (hc : c.On src.text)
    (hrest : c.rest = (as.flatMap fun a => spacedText a.text) ++ newline :: r) :
    Yields src (many (spaced .tab .arg arg)) (List.Forall₂ (Tree.Arg.Spells src) · as) c (newline :: r) := by
  refine many_yields advances_arg.spaced ?_
    (fun _ hend => (rejects_arg _ (startsArg_newline hend)).spaced) hc hrest
  intro a ha c r hc hrest hr
  obtain ⟨b, y, hy, hb, -⟩ := (has a ha).starts
  refine .spaced hc hrest (by simpa [hy] using hb) fun _ hc hrest => ?_
  exact arg_yields ((has a ha).scans r hr) hc hrest

/-! ## Statements -/

theorem operator_yields {r : Text} (hx : IsIdent x) (hc : c.On src.text)
    (hrest : c.rest = utf8 " = " ++ x ++ r) (hr : EndsWord r) :
    Yields src operator (fun s => src.slice s = .ok x) c r := by
  have hsign : c.rest = spacedText (utf8 "=") ++ (spacedText x ++ r) := hrest
  obtain ⟨s, m, hreads, -, hm, hrest'⟩ := Yields.spaced (k := .const) hc hsign (by rintro _ ⟨⟩; decide +kernel)
    fun _ hc hrest => token_yields hc hrest (const_eq_ok_iff.2 ⟨List.prefix_append _ _, rfl⟩)
  obtain ⟨s', c', hreads', hs', hc', hr'⟩ := name_yields hx hm hrest' hr
  exact ⟨s', c', reads_context.2 ⟨s, m, hreads, hreads'⟩, hs', hc', hr'⟩

/-- Where an argument or the end of the line follows, there is no equals sign. -/
theorem rejects_operator {as : List Written.Arg} (has : ∀ a ∈ as, a.Plain)
    (hrest : c.rest = (as.flatMap fun a => spacedText a.text) ++ newline :: r) : operator.Rejects c := by
  obtain ⟨b, s, hskip, hb⟩ : ∃ b s, (c.skip .tab).rest = b :: s ∧ b ≠ 61 := by
    cases as with
    | nil => exact ⟨newline, r, skip_newline hrest, by decide⟩
    | cons a as =>
      obtain ⟨b, y, hy, htab, hb⟩ := (has a (by simp)).starts
      rw [List.flatMap_cons, List.append_assoc, spacedText, List.append_assoc, hy] at hrest
      exact ⟨b, _, Cursor.rest_skip hrest (by decide +kernel) (by simpa using htab), hb⟩
  refine (rejects_token (e := .literal (utf8 "=")) ?_).spaced.context
  have hpre : (utf8 "=").isPrefixOf (b :: s) = false := by
    rw [show utf8 "=" = [61] from rfl]
    simp [List.isPrefixOf, hb.symm]
  rw [hskip, Token.const, hpre]
  rfl

theorem instr_yields {i : Written.Instr} (hi : i.Plain) (hc : c.On src.text)
    (hrest : c.rest = i.text ++ newline :: r) : Yields src instr (·.Spells src i) c (newline :: r) := by
  obtain ⟨dst, op, args⟩ := i
  have hbreak := Written.breaks_flatMap (f := Written.Arg.text) args (Written.breaks_newline r)
  cases dst with
  | none =>
    rw [Written.Instr.text_none] at hrest
    obtain ⟨s, m, hhead, hs, hm, hrest'⟩ := ident_yields hc hrest hi.op hbreak.endsWord
    obtain ⟨as, c', hargs, has, hc', hr⟩ := args_yield hi.args hm hrest'
    refine ⟨_, c', reads_instr.2 ⟨s, m, none, m, as, hhead, ?_, hargs, rfl⟩, ?_, hc', hr⟩
    · exact reads_optional.2 (.inr ⟨rfl, rfl, rejects_operator hi.args hrest'⟩)
    · exact ⟨Int.natCast_nonneg _, .none, hs, has⟩
  | some d =>
    rw [Written.Instr.text_some] at hrest
    obtain ⟨s, m, hhead, hs, hm, hrest'⟩ :=
      ident_yields hc hrest (hi.dst d rfl) (endsWord_cons.2 (by decide))
    obtain ⟨s', m', hop, hs', hm', hrest''⟩ := operator_yields hi.op hm hrest' hbreak.endsWord
    obtain ⟨as, c', hargs, has, hc', hr⟩ := args_yield hi.args hm' hrest''
    refine ⟨_, c', reads_instr.2 ⟨s, m, some s', m', as, hhead, ?_, hargs, rfl⟩, ?_, hc', hr⟩
    · exact reads_optional.2 (.inl ⟨s', rfl, hop⟩)
    · exact ⟨Int.natCast_nonneg _, .some hs, hs', has⟩

theorem directive_yields {w : Text} {xs : List Text} (hxs : ∀ x ∈ xs, IsIdent x) (hc : c.On src.text)
    (hrest : c.rest = w ++ (xs.flatMap spacedText ++ newline :: r)) :
    Yields src (directive w) (·.Spells src xs) c (newline :: r) := by
  have hends := (Written.breaks_flatMap (f := id) xs (Written.breaks_newline r)).endsWord
  have hscan : Token.keyword w (w ++ (xs.flatMap spacedText ++ newline :: r)) = .ok w.length := by
    refine keyword_eq_ok_iff.2 ⟨⟨List.prefix_append _ _, ?_⟩, rfl⟩
    intro b hb
    rw [List.getElem?_append_right (Nat.le_refl _), Nat.sub_self, ← List.head?_eq_getElem?] at hb
    exact (hends b hb).2
  obtain ⟨s, m, hword, -, hm, hrest'⟩ := token_yields hc hrest hscan
  obtain ⟨ss, c', hnames, hss, hc', hr⟩ := names_yield hxs hm hrest'
  exact ⟨_, c', reads_directive.2 ⟨s, m, ss, hword, hnames, rfl⟩, ⟨Int.natCast_nonneg _, hss⟩, hc', hr⟩

theorem fails_of_keyword {w : Text} {f : Tree.Directive → Tree.Stmt}
    (h : ∀ n, Token.keyword w c.rest ≠ .ok n) : (f <$> directive w).Fails c := by
  rcases reads_or_fails (f <$> directive w) c with ⟨s, c', hreads⟩ | hfails
  · obtain ⟨d, hd, -⟩ := reads_map.1 hreads
    obtain ⟨s, m, ss, hword, -⟩ := reads_directive.1 hd
    obtain ⟨n, hn, -⟩ := reads_token.1 hword
    exact absurd hn (h n)
  · exact hfails

theorem keyword_of_not_reserved {w : Text} (hx : Written.reserved x = false) (hr : EndsWord r)
    (hw : w ∈ [blockWord, utf8 "live", utf8 "out"]) (n : Nat) : Token.keyword w (x ++ r) ≠ .ok n := by
  intro hn
  rw [keyword_append (bytes_of_reserved w hw) hr] at hn
  have hok : (Token.keyword w x).isOk = true := by rw [hn]; rfl
  exact Bool.eq_false_iff.1 hx (List.any_eq_true.2 ⟨w, hw, hok⟩)

theorem instr_text_starts {i : Written.Instr} (hi : i.Plain) (r : Text) :
    ∃ x y, i.text ++ newline :: r = x ++ y ∧ IsIdent x ∧ EndsWord y ∧ Written.reserved x = false := by
  obtain ⟨dst, op, args⟩ := i
  cases dst with
  | none =>
    have hbreak := Written.breaks_flatMap (f := Written.Arg.text) args (Written.breaks_newline r)
    exact ⟨op, _, Written.Instr.text_none .., hi.op, hbreak.endsWord, hi.free⟩
  | some d =>
    exact ⟨d, _, Written.Instr.text_some .., hi.dst d rfl, endsWord_cons.2 (by decide), hi.free⟩

/-- A statement starts with an identifier, and it is not read as a header. -/
theorem stmt_text_starts {s : Written.Stmt} (hs : s.Plain) (r : Text) :
    ∃ x y, s.text ++ newline :: r = x ++ y ∧ IsIdent x ∧ ∀ n, Token.keyword blockWord (x ++ y) ≠ .ok n := by
  have hword : ∀ w ∈ [utf8 "live", utf8 "out"], ∀ (xs : List Text) n,
      Token.keyword blockWord (w ++ (xs.flatMap spacedText ++ newline :: r)) ≠ .ok n := by
    intro w hw xs n hn
    have hends : EndsWord (xs.flatMap spacedText ++ newline :: r) :=
      (Written.breaks_flatMap (f := id) xs (Written.breaks_newline r)).endsWord
    rw [keyword_append (bytes_of_reserved blockWord (by simp)) hends] at hn
    simp only [List.mem_cons, List.not_mem_nil, or_false] at hw
    rcases hw with rfl | rfl <;> cases hn
  cases s with
  | live xs => exact ⟨utf8 "live", _, List.append_assoc .., by decide, hword _ (by simp) xs⟩
  | out xs => exact ⟨utf8 "out", _, List.append_assoc .., by decide, hword _ (by simp) xs⟩
  | instr i =>
    obtain ⟨x, y, htext, hx, hy, hfree⟩ := instr_text_starts hs r
    exact ⟨x, y, htext, hx, keyword_of_not_reserved hfree hy (by simp)⟩

theorem stmt_yields {s : Written.Stmt} (hs : s.Plain) (hc : c.On src.text)
    (hrest : c.rest = s.text ++ newline :: r) : Yields src stmt (·.Spells src s) c (newline :: r) := by
  cases s with
  | live xs =>
    rw [Written.Stmt.text, List.append_assoc] at hrest
    obtain ⟨a, c', hreads, ha⟩ :=
      (directive_yields hs hc hrest).map (Q := (Tree.Stmt.Spells src · (.live xs))) fun _ => .live
    exact ⟨a, c', reads_anyOf_cons.2 (.inl hreads), ha⟩
  | out xs =>
    rw [Written.Stmt.text, List.append_assoc] at hrest
    obtain ⟨a, c', hreads, ha⟩ :=
      (directive_yields hs hc hrest).map (Q := (Tree.Stmt.Spells src · (.out xs))) fun _ => .out
    have hlive : (Tree.Stmt.live <$> live).Fails c := by
      refine fails_of_keyword fun n hn => ?_
      obtain ⟨⟨⟨z, hz⟩, -⟩, -⟩ := keyword_eq_ok_iff.1 hn
      rw [hrest] at hz
      cases hz
    exact ⟨a, c', reads_anyOf_cons.2 (.inr ⟨hlive, reads_anyOf_cons.2 (.inl hreads)⟩), ha⟩
  | instr i =>
    obtain ⟨a, c', hreads, ha⟩ :=
      (instr_yields hs hc hrest).map (Q := (Tree.Stmt.Spells src · (.instr i))) fun _ => .instr
    obtain ⟨x, y, htext, -, hy, hfree⟩ := instr_text_starts hs r
    have hfails : ∀ w ∈ [blockWord, utf8 "live", utf8 "out"], ∀ f : Tree.Directive → Tree.Stmt,
        (f <$> directive w).Fails c := by
      intro w hw f
      refine fails_of_keyword fun n => ?_
      rw [hrest, Written.Stmt.text, htext]
      exact keyword_of_not_reserved hfree hy hw n
    exact ⟨a, c', reads_anyOf_cons.2 (.inr ⟨hfails _ (by simp) _, reads_anyOf_cons.2 (.inr
      ⟨hfails _ (by simp) _, reads_anyOf_cons.2 (.inl hreads)⟩)⟩), ha⟩

/-- **A plain statement on a line is read as that statement.** -/
theorem stmtLine_yields {s : Written.Stmt} (hs : s.Plain) (hc : c.On src.text)
    (hrest : c.rest = s.text ++ newline :: r) : Yields src stmtLine (·.Spells src s) c r := by
  obtain ⟨a, m, hstmt, ha, hm, hrest'⟩ := stmt_yields hs hc hrest
  have hend : Yields src eol (fun e => src.slice e = .ok [newline]) m r :=
    token_yields hm hrest' (eol_newline r)
  obtain ⟨e, c', heol, -, hc', hr⟩ := hend
  refine ⟨a, c', ?_, ha, hc', hr⟩
  simp only [stmtLine, reads_bind, reads_within, reads_pure]
  exact ⟨a, m, hstmt, e, c', heol, rfl, rfl⟩

end Program

end Straightline
