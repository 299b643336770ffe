/-
  Derivations of program texts.

      file   = blank (header blank (stmt blank)*)*
      header = "block" gap ident eol
      stmt   = ("live" | "out") (gap ident)* eol
             | ident (gap "=" gap ident)? (gap (ident | int | string))* eol

  A derivation holds all the bytes of a text, cut up by this grammar, so that its text and
  its syntax tree can be read off it.  The words `block`, `live` and `out` count only where
  no letter, digit or underscore follows, and an instruction starts with none of them.

  * `File.Derives`: the text is the one of the derivation, and every part of it is in its
    language, with regard to what follows;
  * `File.tree`: the syntax tree, with the spans of its parts;
  * `File.Derives.unique`: a text has one derivation at most.
-/
import Straightline.Proofs.Lexical
import Straightline.Proofs.Program

namespace Straightline

namespace Derivation

open Lexical
open Program (blockWord startsArg)

/-! ## Parts of the grammar -/

/-- A part of the grammar: for each of its derivations the text, the tree if the text stands
    at an offset, and whether it is one if the given text follows. -/
structure Part (α β : Type) where
  text : α → Text
  tree : Nat → α → β
  At : α → Text → Prop

/-- Something behind spaces and tabs. -/
structure Gapped (α : Type) where
  gap : Text
  item : α

namespace Part

variable {α β : Type} (P : Part α β)

/-- The part behind spaces and tabs. -/
def gapped : Part (Gapped α) β where
  text g := g.gap ++ P.text g.item
  tree o g := P.tree (o + g.gap.length) g.item
  At g r := IsGap g.gap ∧ P.At g.item r

/-- The text of several parts. -/
def listText (as : List α) : Text :=
  as.flatMap P.text

/-- The trees of several parts. -/
def listTree : Nat → List α → List β
  | _, [] => []
  | o, a :: as => P.tree o a :: listTree (o + (P.text a).length) as

/-- Each part is one if the parts behind it follow. -/
def ListAt : List α → Text → Prop
  | [], _ => True
  | a :: as, r => P.At a (P.listText as ++ r) ∧ ListAt as r

/-- The part any number of times. -/
def list : Part (List α) (List β) where
  text := P.listText
  tree := P.listTree
  At := P.ListAt

@[simp] theorem text_gapped (g : Gapped α) : P.gapped.text g = g.gap ++ P.text g.item := rfl

@[simp] theorem listText_nil : P.listText [] = [] := rfl

@[simp] theorem listText_cons (a : α) (as : List α) : P.listText (a :: as) = P.text a ++ P.listText as :=
  List.flatMap_cons

end Part

/-! ## Statements -/

/-- The span of a text that stands at an offset. -/
def spanAt (o : Nat) (x : Text) : Span :=
  ⟨o, (o + x.length : Nat)⟩

/-- An identifier. -/
def ident : Part Text Span := ⟨id, spanAt, Ident⟩

@[simp] theorem text_ident (x : Text) : ident.text x = x := rfl

@[simp] theorem tree_ident (o : Nat) (x : Text) : ident.tree o x = spanAt o x := rfl

/-- An identifier, an integer or a string. -/
def arg : Part Written.Arg Tree.Arg where
  text := Written.Arg.text
  tree
    | o, .ident x => .ident (spanAt o x)
    | o, .int x => .int (spanAt o x)
    | o, .string x => .string (spanAt o x)
  At
    | .ident x => Ident x
    | .int x => Longest IsInt x
    | .string x => Longest IsString x

/-- Names behind spaces and tabs. -/
def names : Part (List (Gapped Text)) (List Span) := ident.gapped.list

/-- Arguments behind spaces and tabs. -/
def args : Part (List (Gapped Written.Arg)) (List Tree.Arg) := arg.gapped.list

/-- The equals sign. -/
def equals : Text := utf8 "="

/-- An equals sign and a name, behind spaces and tabs both. -/
def operator : Part (Gapped (Gapped Text)) Span :=
  Part.gapped
    { text := fun g => equals ++ ident.gapped.text g
      tree := fun o g => ident.gapped.tree (o + equals.length) g
      At := ident.gapped.At }

/-- The first name of an instruction, the operator behind it if that name is the
    destination, and the arguments. -/
structure Instr where
  head : Text
  op : Option (Gapped (Gapped Text))
  args : List (Gapped Written.Arg)

/-- A statement. -/
inductive Stmt where
  | live (ns : List (Gapped Text))
  | out (ns : List (Gapped Text))
  | instr (i : Instr)

/-- The word that opens a directive. -/
def liveWord : Text := utf8 "live"

@[inherit_doc liveWord]
def outWord : Text := utf8 "out"

/-- A directive, by its word. -/
def directive (word : Text) : Part (List (Gapped Text)) Tree.Directive where
  text ns := word ++ names.text ns
  tree o ns := ⟨spanAt o (word ++ names.text ns), names.tree (o + word.length) ns⟩
  At ns r := WordEnds (names.text ns ++ r) ∧ names.At ns r

/-- The text of the operator, if there is one. -/
def operatorText (op : Option (Gapped (Gapped Text))) : Text :=
  (op.map operator.text).getD []

/-- An instruction. -/
def instr : Part Instr Tree.Instr where
  text i := i.head ++ (operatorText i.op ++ args.text i.args)
  tree o i :=
    let head := spanAt o i.head
    let op := i.op.map (operator.tree (o + i.head.length))
    ⟨spanAt o (i.head ++ (operatorText i.op ++ args.text i.args)), op.map fun _ => head, op.getD head,
      args.tree (o + i.head.length + (operatorText i.op).length) i.args⟩
  At i r :=
    Ident i.head (operatorText i.op ++ (args.text i.args ++ r)) ∧
      (∀ g ∈ i.op, operator.At g (args.text i.args ++ r)) ∧ args.At i.args r

/-- A statement. An instruction starts with none of the words. -/
def stmt : Part Stmt Tree.Stmt where
  text
    | .live ns => (directive liveWord).text ns
    | .out ns => (directive outWord).text ns
    | .instr i => instr.text i
  tree
    | o, .live ns => .live ((directive liveWord).tree o ns)
    | o, .out ns => .out ((directive outWord).tree o ns)
    | o, .instr i => .instr (instr.tree o i)
  At
    | .live ns, r => (directive liveWord).At ns r
    | .out ns, r => (directive outWord).At ns r
    | .instr i, r => (∀ w ∈ [blockWord, liveWord, outWord], ¬ Opens w (instr.text i ++ r)) ∧ instr.At i r

/-! ## Files -/

/-- A statement with the end of its line and the blanks behind it. -/
structure Line where
  stmt : Stmt
  stop : Text
  blank : Text

/-- A block: the name in its header, the end of that line and the blanks behind it, and
    its lines. -/
structure Block where
  gap : Text
  name : Text
  stop : Text
  blank : Text
  lines : List Line

/-- A file: the blanks in front, and blocks. -/
structure File where
  blank : Text
  blocks : List Block

/-- A line. -/
def line : Part Line Tree.Stmt where
  text l := stmt.text l.stmt ++ (l.stop ++ l.blank)
  tree o l := stmt.tree o l.stmt
  At l r := stmt.At l.stmt (l.stop ++ (l.blank ++ r)) ∧ LineEnd l.stop (l.blank ++ r) ∧
    Longest BlankRun l.blank r

/-- The header of a block, up to the end of its line. -/
def Block.header (b : Block) : Text :=
  blockWord ++ (b.gap ++ (b.name ++ b.stop))

/-- The offset at which the last of some lines ends, the first one starting at `o`; the
    given one if there are none. -/
def lastStop (last : Nat) : Nat → List Line → Nat
  | _, [] => last
  | o, l :: ls =>
    lastStop (o + (stmt.text l.stmt ++ l.stop).length) (o + (line.text l).length) ls

/-- A block. Its span ends with the last line end. -/
def block : Part Block Tree.Block where
  text b := b.header ++ (b.blank ++ line.listText b.lines)
  tree o b :=
    let first := o + b.header.length + b.blank.length
    ⟨⟨o, lastStop (o + b.header.length) first b.lines⟩, spanAt (o + blockWord.length + b.gap.length) b.name,
      line.listTree first b.lines⟩
  At b r :=
    let inside := b.blank ++ (line.listText b.lines ++ r)
    WordEnds (b.gap ++ (b.name ++ (b.stop ++ inside))) ∧ IsGap b.gap ∧ Ident b.name (b.stop ++ inside) ∧
      LineEnd b.stop inside ∧ Longest BlankRun b.blank (line.listText b.lines ++ r) ∧
      line.ListAt b.lines r

namespace File

/-- The text of a file. -/
def text (f : File) : Text :=
  f.blank ++ block.listText f.blocks

/-- The syntax tree of a file. -/
def tree (f : File) : Tree.File :=
  ⟨⟨0, f.text.length⟩, block.listTree f.blank.length f.blocks⟩

/-- The file is a derivation of the text. -/
structure Derives (f : File) (t : Text) : Prop where
  text : t = f.text
  blank : Longest BlankRun f.blank (block.listText f.blocks)
  blocks : block.ListAt f.blocks []

end File

/-! ## One derivation at most -/

/-- Behind a text of the part, what follows being as it should, there is one way only to
    cut it off. -/
def Part.UniqueBefore {α β : Type} (P : Part α β) (F : Text → Prop) : Prop :=
  ∀ ⦃a a' r r'⦄, F r → F r' → P.At a r → P.At a' r' → P.text a ++ r = P.text a' ++ r' → a = a' ∧ r = r'

/-- The texts of the part start with such a byte. -/
def Part.Begins {α β : Type} (P : Part α β) (p : UInt8 → Prop) : Prop :=
  ∀ ⦃a r⦄, P.At a r → ∃ b z, P.text a = b :: z ∧ p b

/-- Neither a space nor a tab. -/
def NoGap (b : UInt8) : Prop := b ≠ 32 ∧ b ≠ 9

theorem noGap_equals : NoGap 61 := by
  unfold NoGap; decide

/-- An end of line follows. -/
def EndsLine (s : Text) : Prop :=
  ∃ x r, s = x ++ r ∧ LineEnd x r

/-- The next block or the end of the text follows. -/
def EndsBlock (s : Text) : Prop :=
  s = [] ∨ Opens blockWord s

section
variable {α β : Type} {P : Part α β} {E F : Text → Prop}

theorem gap_unique {gap gap' z z' : Text} {b b' : UInt8} (h : IsGap gap) (h' : IsGap gap') (hb : NoGap b)
    (hb' : NoGap b') (he : gap ++ b :: z = gap' ++ b' :: z') : gap = gap' ∧ b :: z = b' :: z' := by
  induction gap generalizing gap' with
  | nil =>
    rcases gap' with _ | ⟨c, gap'⟩
    · exact ⟨rfl, he⟩
    · obtain ⟨rfl, -⟩ := List.cons.inj he
      rcases h' b (by simp) with rfl | rfl
      · exact absurd rfl hb.1
      · exact absurd rfl hb.2
  | cons c gap ih =>
    obtain ⟨hc, hgap⟩ := List.forall_mem_cons.1 h
    rcases gap' with _ | ⟨c', gap'⟩
    · obtain ⟨rfl, -⟩ := List.cons.inj he
      rcases hc with rfl | rfl
      · exact absurd rfl hb'.1
      · exact absurd rfl hb'.2
    · obtain ⟨rfl, htail⟩ := List.cons.inj he
      obtain ⟨rfl, hz⟩ := ih hgap (List.forall_mem_cons.1 h').2 htail
      exact ⟨rfl, hz⟩

theorem Part.UniqueBefore.gapped (hP : P.UniqueBefore F) (hb : P.Begins NoGap) :
    P.gapped.UniqueBefore F := by
  rintro ⟨gap, a⟩ ⟨gap', a'⟩ r r' hr hr' ⟨hgap, ha⟩ ⟨hgap', ha'⟩ he
  obtain ⟨b, z, hz, hb₁⟩ := hb ha
  obtain ⟨b', z', hz', hb₂⟩ := hb ha'
  simp only [Part.text_gapped, List.append_assoc] at he
  have hcut := he
  rw [hz, hz'] at hcut
  obtain ⟨rfl, -⟩ := gap_unique hgap hgap' hb₁ hb₂ hcut
  obtain ⟨rfl, rfl⟩ := hP hr hr' ha ha' (List.append_cancel_left he)
  exact ⟨rfl, rfl⟩

/-- Repetitions are cut off in one way if no part starts where they end. -/
theorem Part.UniqueBefore.list (hP : P.UniqueBefore F)
    (hF : ∀ as r, E r → P.ListAt as r → F (P.listText as ++ r))
    (hE : ∀ a r, P.At a r → ¬ E (P.text a ++ r)) : P.list.UniqueBefore E := by
  intro as as' r r' hr hr' has has' he
  change P.listText as ++ r = P.listText as' ++ r' at he
  induction as generalizing as' with
  | nil =>
    rcases as' with _ | ⟨a', as'⟩
    · exact ⟨rfl, he⟩
    · rw [show r = P.text a' ++ (P.listText as' ++ r') by simpa using he] at hr
      exact absurd hr (hE a' _ has'.1)
  | cons a as ih =>
    rcases as' with _ | ⟨a', as'⟩
    · rw [show r' = P.text a ++ (P.listText as ++ r) by simpa using he.symm] at hr'
      exact absurd hr' (hE a _ has.1)
    · simp only [Part.listText_cons, List.append_assoc] at he
      obtain ⟨rfl, htail⟩ := hP (hF as r hr has.2) (hF as' r' hr' has'.2) has.1 has'.1 he
      obtain ⟨rfl, rfl⟩ := ih has.2 has'.2 htail
      exact ⟨rfl, rfl⟩

end

/-! Statements. -/

theorem startsArg_imp : ∀ b, startsArg b = true →
    NoGap b ∧ b ≠ 13 ∧ b ≠ commentMark ∧ b ≠ newline ∧ b ≠ 61 :=
  forall_byte (by unfold NoGap; decide +kernel)

theorem ident_begins : ident.Begins (startsArg · = true) := by
  intro x r h
  obtain ⟨b, z, rfl, hb, -⟩ := h.1.mem
  exact ⟨b, z, rfl, by simp [startsArg, hb]⟩

/-- The kind of an argument. -/
def kindOf : Written.Arg → Kind
  | .ident _ => .ident
  | .int _ => .int
  | .string _ => .string

/-- The kind of argument that a byte starts. -/
def kindBy (b : UInt8) : Kind :=
  if Token.isIdentStart b then .ident else if b = Quoted.quote then .string else .int

/-- What kind of argument a text is shows in its first byte. -/
theorem arg_kind {a : Written.Arg} {r : Text} (h : arg.At a r) :
    ∃ b z, a.text = b :: z ∧ startsArg b = true ∧ kindOf a = kindBy b := by
  have hdigit : ∀ b, Token.isDigit b = true → startsArg b = true ∧ kindBy b = .int :=
    forall_byte (by decide +kernel)
  rcases a with x | x | x
  · obtain ⟨b, z, rfl, hb, -⟩ := h.1.mem
    exact ⟨b, z, rfl, by simp [startsArg, hb], by simp [kindOf, kindBy, hb]⟩
  · obtain ⟨sign, d, y, rfl, rfl | rfl | rfl, hd, -⟩ := h.mem
    · exact ⟨d, y, rfl, (hdigit d hd).1, (hdigit d hd).2.symm⟩
    · exact ⟨43, d :: y, rfl, by decide, show Kind.int = kindBy 43 by decide⟩
    · exact ⟨45, d :: y, rfl, by decide, show Kind.int = kindBy 45 by decide⟩
  · obtain ⟨y, rfl, -⟩ := h.mem
    exact ⟨Quoted.quote, _, rfl, by decide, show Kind.string = kindBy Quoted.quote by decide⟩

theorem arg_begins : arg.Begins (startsArg · = true) := by
  intro a r h
  obtain ⟨b, z, he, hb, -⟩ := arg_kind h
  exact ⟨b, z, he, hb⟩

theorem Part.Begins.noGap {α β : Type} {P : Part α β} (h : P.Begins (startsArg · = true)) :
    P.Begins NoGap := by
  intro a r ha
  obtain ⟨b, z, he, hb⟩ := h ha
  exact ⟨b, z, he, (startsArg_imp b hb).1⟩

theorem ident_unique : ident.UniqueBefore fun _ => True := by
  intro x x' r r' _ _ h h' he
  exact h.1.unique h'.1 he

theorem arg_unique : arg.UniqueBefore fun _ => True := by
  intro a a' r r' _ _ h h' he
  obtain ⟨b, z, hz, -, hk⟩ := arg_kind h
  obtain ⟨b', z', hz', -, hk'⟩ := arg_kind h'
  have hcut := he
  change a.text ++ r = a'.text ++ r' at hcut
  rw [hz, hz'] at hcut
  obtain ⟨rfl, -⟩ := List.cons.inj hcut
  have hkind : kindOf a = kindOf a' := hk.trans hk'.symm
  cases a <;> cases a' <;> cases hkind
  · obtain ⟨rfl, rfl⟩ := h.1.unique h'.1 he
    exact ⟨rfl, rfl⟩
  · obtain ⟨rfl, rfl⟩ := h.unique h' he
    exact ⟨rfl, rfl⟩
  · obtain ⟨rfl, rfl⟩ := h.unique h' he
    exact ⟨rfl, rfl⟩

/-- Where a line ends, no argument starts. -/
theorem not_endsLine {α β : Type} {P : Part α β} (hP : P.Begins (startsArg · = true)) (g : Gapped α)
    (r : Text) (h : P.gapped.At g r) : ¬ EndsLine (P.gapped.text g ++ r) := by
  rintro ⟨x, z, he, hx⟩
  obtain ⟨b, y, hy, hb⟩ := hP h.2
  obtain ⟨⟨h₁, h₂⟩, h₃, h₄, h₅, -⟩ := startsArg_imp b hb
  have hnext := hx.next h.1 (by rw [← he, Part.text_gapped, hy, List.append_assoc]; rfl)
  rcases hnext with rfl | rfl | rfl | rfl | rfl <;> contradiction

/-- Names and arguments go up to the end of the line. -/
theorem items_unique {α β : Type} {P : Part α β} (hP : P.Begins (startsArg · = true))
    (hunique : P.UniqueBefore fun _ => True) : P.gapped.list.UniqueBefore EndsLine :=
  (hunique.gapped hP.noGap).list (fun _ _ _ _ => trivial) (not_endsLine hP)

theorem directive_unique (word : Text) : (directive word).UniqueBefore EndsLine := by
  intro ns ns' r r' hr hr' h h' he
  simp only [directive, List.append_assoc] at he
  exact items_unique ident_begins ident_unique hr hr' h.2 h'.2 (List.append_cancel_left he)

theorem operator_unique : operator.UniqueBefore fun _ => True := by
  refine Part.UniqueBefore.gapped ?_ ?_
  · intro g g' r r' hr hr' h h' he
    simp only [List.append_assoc] at he
    exact ident_unique.gapped ident_begins.noGap hr hr' h h' (List.append_cancel_left he)
  · intro g r _
    exact ⟨61, _, rfl, noGap_equals⟩

/-- No equals sign stands where arguments do. -/
theorem no_equals {gap z r : Text} {as : List (Gapped Written.Arg)} (hgap : IsGap gap)
    (has : args.At as r) (hr : EndsLine r) : gap ++ 61 :: z ≠ args.text as ++ r := by
  intro he
  rcases as with _ | ⟨a, as⟩
  · obtain ⟨x, y, rfl, hx⟩ := hr
    have hnext := hx.next hgap he.symm
    revert hnext
    decide
  · obtain ⟨b, y, hy, hb⟩ := arg_begins has.1.2
    have hb' := startsArg_imp b hb
    have htext : args.text (a :: as) ++ r = a.gap ++ b :: (y ++ (args.text as ++ r)) := by
      simp [args, Part.list, hy]
    rw [htext] at he
    obtain ⟨-, he⟩ := gap_unique hgap has.1.1 noGap_equals hb'.1 he
    exact hb'.2.2.2.2 (List.cons.inj he).1.symm

theorem operator_text_append (g : Gapped (Gapped Text)) (r : Text) :
    operator.text g ++ r = g.gap ++ 61 :: (ident.gapped.text g.item ++ r) := by
  simp [operator, equals, show utf8 "=" = [61] from rfl]

theorem instr_text_append (i : Instr) (r : Text) :
    instr.text i ++ r = i.head ++ (operatorText i.op ++ (args.text i.args ++ r)) := by
  simp [instr]

theorem instr_unique : instr.UniqueBefore EndsLine := by
  rintro ⟨head, op, as⟩ ⟨head', op', as'⟩ r r' hr hr' ⟨hhead, hop, has⟩ ⟨hhead', hop', has'⟩ he
  rw [instr_text_append, instr_text_append] at he
  obtain ⟨rfl, he⟩ := ident_unique trivial trivial hhead hhead' he
  have hargs := items_unique arg_begins arg_unique hr hr' has has'
  rcases op with _ | g
  · rcases op' with _ | g'
    · obtain ⟨rfl, rfl⟩ := hargs he
      exact ⟨rfl, rfl⟩
    · exact absurd he.symm (operator_text_append g' _ ▸ no_equals (hop' g' rfl).1 has hr)
  · rcases op' with _ | g'
    · exact absurd he (operator_text_append g _ ▸ no_equals (hop g rfl).1 has' hr')
    · obtain ⟨rfl, he⟩ := operator_unique trivial trivial (hop g rfl) (hop' g' rfl) he
      obtain ⟨rfl, rfl⟩ := hargs he
      exact ⟨rfl, rfl⟩

/-! Lines and blocks. -/

section
variable {s w r : Text}

theorem head_of_opens (hw : w ≠ []) (h : Opens w s) : s.head? = w.head? := by
  obtain ⟨z, rfl, -⟩ := h
  exact List.head?_append_of_ne_nil _ hw

/-- At most one of the three words stands at the front of a text. -/
theorem opens_unique {w' : Text} (hw : w ∈ [blockWord, liveWord, outWord])
    (hw' : w' ∈ [blockWord, liveWord, outWord]) (h : Opens w s) (h' : Opens w' s) : w = w' := by
  have hne : ∀ w ∈ [blockWord, liveWord, outWord], w ≠ [] := by decide +kernel
  have hheads : ∀ w ∈ [blockWord, liveWord, outWord], ∀ w' ∈ [blockWord, liveWord, outWord],
      w.head? = w'.head? → w = w' := by decide +kernel
  refine hheads w hw w' hw' ?_
  rw [← head_of_opens (hne w hw) h, ← head_of_opens (hne w' hw') h']

theorem directive_opens {ns : List (Gapped Text)} (h : (directive w).At ns r) :
    Opens w ((directive w).text ns ++ r) :=
  ⟨names.text ns ++ r, by simp [directive], h.1⟩

/-- The word that a statement opens with, if it is no instruction. -/
def Stmt.word? : Stmt → Option Text
  | live _ => some liveWord
  | out _ => some outWord
  | instr _ => none

theorem opens_iff_word {st : Stmt} (h : stmt.At st r) (hw : w ∈ [blockWord, liveWord, outWord]) :
    Opens w (stmt.text st ++ r) ↔ st.word? = some w := by
  have hlive : liveWord ∈ [blockWord, liveWord, outWord] := by simp
  have hout : outWord ∈ [blockWord, liveWord, outWord] := by simp
  rcases st with ns | ns | i
  · have hopens : Opens liveWord (stmt.text (.live ns) ++ r) := directive_opens h
    refine ⟨fun ho => congrArg some (opens_unique hlive hw hopens ho), ?_⟩
    rintro ⟨⟩
    exact hopens
  · have hopens : Opens outWord (stmt.text (.out ns) ++ r) := directive_opens h
    refine ⟨fun ho => congrArg some (opens_unique hout hw hopens ho), ?_⟩
    rintro ⟨⟩
    exact hopens
  · exact ⟨fun ho => absurd ho (h.1 w hw), fun hnone => by cases hnone⟩

end

theorem stmt_unique : stmt.UniqueBefore EndsLine := by
  intro st st' r r' hr hr' h h' he
  -- both open with the same word, or with none
  have hword : ∀ w ∈ [blockWord, liveWord, outWord], st.word? = some w ↔ st'.word? = some w := by
    intro w hw
    rw [← opens_iff_word h hw, ← opens_iff_word h' hw, he]
  have hlive := hword liveWord (by simp)
  have hout := hword outWord (by simp)
  have hne : liveWord ≠ outWord := by decide +kernel
  rcases st with ns | ns | i
  · rcases st' with ns' | ns' | i'
    · obtain ⟨rfl, rfl⟩ := directive_unique liveWord hr hr' h h' he
      exact ⟨rfl, rfl⟩
    · simp [Stmt.word?, hne.symm] at hlive
    · simp [Stmt.word?] at hlive
  · rcases st' with ns' | ns' | i'
    · simp [Stmt.word?, hne.symm] at hlive
    · obtain ⟨rfl, rfl⟩ := directive_unique outWord hr hr' h h' he
      exact ⟨rfl, rfl⟩
    · simp [Stmt.word?] at hout
  · rcases st' with ns' | ns' | i'
    · simp [Stmt.word?] at hlive
    · simp [Stmt.word?] at hout
    · obtain ⟨rfl, rfl⟩ := instr_unique hr hr' h.2 h'.2 he
      exact ⟨rfl, rfl⟩

theorem line_unique : line.UniqueBefore fun _ => True := by
  rintro ⟨st, x, blank⟩ ⟨st', x', blank'⟩ r r' _ _ ⟨hst, hx, hblank⟩ ⟨hst', hx', hblank'⟩ he
  simp only [line, List.append_assoc] at he
  obtain ⟨rfl, he⟩ := stmt_unique ⟨x, _, rfl, hx⟩ ⟨x', _, rfl, hx'⟩ hst hst' he
  obtain ⟨rfl, he⟩ := exact_eol.unique hx hx' he
  obtain ⟨rfl, rfl⟩ := hblank.unique hblank' he
  exact ⟨rfl, rfl⟩

theorem stmt_text_ne_nil {st : Stmt} {r : Text} (h : stmt.At st r) : stmt.text st ≠ [] := by
  rcases st with ns | ns | i
  · exact List.append_ne_nil_of_left_ne_nil (by decide +kernel) _
  · exact List.append_ne_nil_of_left_ne_nil (by decide +kernel) _
  · obtain ⟨b, z, hz, -⟩ := ident_begins h.2.1
    rw [text_ident] at hz
    exact List.append_ne_nil_of_left_ne_nil (hz ▸ List.cons_ne_nil b z) _

theorem line_text_append (l : Line) (r : Text) :
    line.text l ++ r = stmt.text l.stmt ++ (l.stop ++ (l.blank ++ r)) := by
  simp [line]

/-- No line starts where a block does. -/
theorem line_not_endsBlock (l : Line) (r : Text) (h : line.At l r) : ¬ EndsBlock (line.text l ++ r) := by
  rw [line_text_append]
  rintro (hnil | hopens)
  · exact stmt_text_ne_nil h.1 (List.append_eq_nil_iff.1 hnil).1
  · rw [opens_iff_word h.1 (by simp)] at hopens
    have hne : blockWord ≠ liveWord ∧ blockWord ≠ outWord := by decide +kernel
    rcases hst : l.stmt with ns | ns | i
    · rw [hst] at hopens
      exact hne.1 (Option.some.inj hopens).symm
    · rw [hst] at hopens
      exact hne.2 (Option.some.inj hopens).symm
    · rw [hst] at hopens
      cases hopens

theorem lines_unique : line.list.UniqueBefore EndsBlock :=
  line_unique.list (fun _ _ _ _ => trivial) line_not_endsBlock

theorem block_unique : block.UniqueBefore EndsBlock := by
  rintro ⟨gap, name, x, blank, ls⟩ ⟨gap', name', x', blank', ls'⟩ r r' hr hr'
    ⟨-, hgap, hname, hx, hblank, hls⟩ ⟨-, hgap', hname', hx', hblank', hls'⟩ he
  simp only [block, Block.header, List.append_assoc] at he
  have he := List.append_cancel_left he
  have hitem : ident.gapped.At ⟨gap, name⟩ _ := ⟨hgap, hname⟩
  have hitem' : ident.gapped.At ⟨gap', name'⟩ _ := ⟨hgap', hname'⟩
  obtain ⟨hsame, he⟩ := ident_unique.gapped ident_begins.noGap trivial trivial hitem hitem' (by simpa using he)
  cases hsame
  obtain ⟨rfl, he⟩ := exact_eol.unique hx hx' he
  obtain ⟨rfl, he⟩ := hblank.unique hblank' he
  obtain ⟨rfl, rfl⟩ := lines_unique hr hr' hls hls' he
  exact ⟨rfl, rfl⟩

theorem block_opens {b : Block} {r : Text} (h : block.At b r) : Opens blockWord (block.text b ++ r) :=
  ⟨_, by simp only [block, Block.header, List.append_assoc], h.1⟩

/-- Behind a block there are blocks only. -/
theorem blocks_endsBlock (bs : List Block) (h : block.ListAt bs []) : EndsBlock (block.listText bs ++ []) := by
  rcases bs with _ | ⟨b, bs⟩
  · exact Or.inl rfl
  · refine Or.inr ?_
    rw [Part.listText_cons, List.append_assoc]
    exact block_opens h.1

theorem blocks_unique : block.list.UniqueBefore (· = []) := by
  refine block_unique.list ?_ ?_
  · rintro bs r rfl h
    exact blocks_endsBlock bs h
  · intro b r h hnil
    obtain ⟨z, hz, -⟩ := block_opens h
    have hne : blockWord ≠ [] := by decide +kernel
    exact hne (List.append_eq_nil_iff.1 (hz.symm.trans hnil)).1

/-- **A text has one derivation at most.** -/
theorem File.Derives.unique {f f' : File} {t : Text} (h : f.Derives t) (h' : f'.Derives t) : f = f' := by
  obtain ⟨blank, bs⟩ := f
  obtain ⟨blank', bs'⟩ := f'
  have he : blank ++ block.listText bs = blank' ++ block.listText bs' := h.text.symm.trans h'.text
  obtain ⟨rfl, he⟩ := h.blank.unique h'.blank he
  obtain ⟨rfl, -⟩ := blocks_unique rfl rfl h.blocks h'.blocks (by simpa [Part.list] using he)
  rfl

end Derivation

end Straightline
