/-
  The words of a text.

  A derivation holds the words of a text and what stands between them.  What is loaded
  depends on the words only: neither the name of the text matters nor where in it they
  stand.

  * `Derivation.File.words`: the words of a derivation; its tree is made of them wherever
    the text of the derivation stands (`Derivation.block_made`);
  * `load_eq_ok_iff`: a text is loaded iff it has a derivation with words that can be lowered,
    the names of its blocks being distinct.
-/
import Straightline.Proofs.Acceptance
import Straightline.Proofs.Loading

namespace Straightline

/-! ## Places in a source -/

namespace Source

variable {src : Source} {o : Nat} {x y : Text}

/-- The text stands at the offset. -/
def HasAt (src : Source) (o : Nat) (x : Text) : Prop :=
  ∃ before after, src.text = before ++ (x ++ after) ∧ before.length = o

theorem HasAt.left (h : src.HasAt o (x ++ y)) : src.HasAt o x := by
  obtain ⟨before, after, htext, hlen⟩ := h
  exact ⟨before, y ++ after, by rw [htext, List.append_assoc], hlen⟩

theorem HasAt.right (h : src.HasAt o (x ++ y)) : src.HasAt (o + x.length) y := by
  obtain ⟨before, after, htext, rfl⟩ := h
  exact ⟨before ++ x, after, by rw [htext, List.append_assoc, List.append_assoc], List.length_append⟩

/-- The span of a text that stands there is that text. -/
theorem HasAt.slice (h : src.HasAt o x) : src.slice (Derivation.spanAt o x) = .ok x := by
  obtain ⟨before, after, htext, rfl⟩ := h
  have hon : (Cursor.mk before.length (x ++ after)).On src.text := by
    constructor
    · simp [htext]
    · simp [htext]
  have hslice := slice_of_on (n := x.length) hon (by simp)
  rwa [List.take_left] at hslice

end Source

/-! ## Words -/

namespace Derivation

open Program (blockWord)

/-- The words of an instruction: its first name is the destination if there is an operator. -/
def Instr.words (i : Instr) : Written.Instr :=
  ⟨i.op.map fun _ => i.head, (i.op.map (·.item.item)).getD i.head, i.args.map (·.item)⟩

/-- The words of a statement. -/
def Stmt.words : Stmt → Written.Stmt
  | live ns => .live (ns.map (·.item))
  | out ns => .out (ns.map (·.item))
  | instr i => .instr i.words

/-- The words of a block. -/
def Block.words (b : Block) : Written.Block :=
  ⟨b.name, b.lines.map (·.stmt.words)⟩

/-- The words of a file. -/
def File.words (f : File) : List Written.Block :=
  f.blocks.map Block.words

/-- Wherever the text of the part stands in the source, its tree is made of its words. -/
def Part.Made {α β γ : Type} (P : Part α β) (src : Source) (R : β → γ → Prop) (words : α → γ) : Prop :=
  ∀ o a, src.HasAt o (P.text a) → R (P.tree o a) (words a)

section
variable {α β γ : Type} {P : Part α β} {src : Source} {R : β → γ → Prop} {words : α → γ}

theorem Part.Made.gapped (h : P.Made src R words) : P.gapped.Made src R fun g => words g.item :=
  fun _ _ hat => h _ _ hat.right

theorem Part.Made.list (h : P.Made src R words) : P.list.Made src (List.Forall₂ R) (List.map words) := by
  intro o as hat
  change src.HasAt o (P.listText as) at hat
  change List.Forall₂ R (P.listTree o as) (as.map words)
  induction as generalizing o with
  | nil => exact .nil
  | cons a as ih =>
    rw [listText_cons] at hat
    exact .cons (h o a hat.left) (ih _ hat.right)

end

section
variable {src : Source}

theorem ident_made : ident.Made src (fun s x => src.slice s = .ok x) fun x => x :=
  fun _ _ hat => hat.slice

theorem arg_made : arg.Made src (Tree.Arg.Spells src) fun a => a := by
  intro o a hat
  cases a with
  | ident x => exact .ident hat.slice
  | int x => exact .int hat.slice
  | string x => exact .string hat.slice

theorem names_made : names.Made src (List.Forall₂ fun s x => src.slice s = .ok x) (List.map (·.item)) :=
  ident_made.gapped.list

theorem args_made : args.Made src (List.Forall₂ (Tree.Arg.Spells src)) (List.map (·.item)) :=
  arg_made.gapped.list

theorem directive_made (word : Text) :
    (directive word).Made src (Tree.Directive.Spells src) (List.map (·.item)) :=
  fun o ns hat => ⟨Int.natCast_nonneg o, names_made _ ns hat.right⟩

theorem operator_made : operator.Made src (fun s x => src.slice s = .ok x) fun g => g.item.item :=
  fun _ g hat => ident_made.gapped _ g.item hat.right.right

theorem instr_made : instr.Made src (Tree.Instr.Spells src) Instr.words := by
  rintro o ⟨head, op, as⟩ hat
  have hhead : src.slice (spanAt o head) = .ok head := hat.left.slice
  have hargs := args_made _ as hat.right.right
  cases op with
  | none => exact ⟨Int.natCast_nonneg o, .none, hhead, hargs⟩
  | some g => exact ⟨Int.natCast_nonneg o, .some hhead, operator_made _ g hat.right.left, hargs⟩

theorem stmt_made : stmt.Made src (Tree.Stmt.Spells src) Stmt.words := by
  intro o st hat
  cases st with
  | live ns => exact .live (directive_made liveWord o ns hat)
  | out ns => exact .out (directive_made outWord o ns hat)
  | instr i => exact .instr (instr_made o i hat)

theorem line_made : line.Made src (Tree.Stmt.Spells src) fun l => l.stmt.words :=
  fun o l hat => stmt_made o l.stmt hat.left

/-- **The tree of a block is made of its words**, wherever its text stands. -/
theorem block_made : block.Made src (Tree.Block.Spells src) Block.words := by
  intro o b hat
  have hname : src.HasAt (o + blockWord.length + b.gap.length) b.name := hat.left.right.right.left
  exact ⟨hname.slice, line_made.list _ b.lines hat.right.right⟩

theorem File.spells {f : File} (h : src.text = f.text) :
    List.Forall₂ (Tree.Block.Spells src) f.tree.blocks f.words := by
  have hat : src.HasAt f.blank.length (block.listText f.blocks) :=
    ⟨f.blank, [], by rw [h, List.append_nil]; rfl, rfl⟩
  exact block_made.list _ f.blocks hat

end

/-- The blocks of a text are those of its derivation. -/
theorem parse_blocks_iff (src : Source) {ts : List Tree.Block} :
    (∃ t, src.parse = .ok t ∧ t.blocks = ts) ↔ ∃ f : File, f.Derives src.text ∧ f.tree.blocks = ts := by
  have hblocks : (∃ t, src.parse = .ok t ∧ t.blocks = ts) ↔
      ∃ c', Program.Blocks (Cursor.ofText src.text).skipBlank ts c' := by
    simp only [Source.parse_eq_ok_iff, Program.reads_file]
    constructor
    · rintro ⟨t, ⟨c', hbs, -⟩, rfl⟩
      exact ⟨c', hbs⟩
    · rintro ⟨c', hbs⟩
      exact ⟨⟨_, ts⟩, ⟨c', hbs, rfl⟩, rfl⟩
  obtain ⟨blank, r, hsplit, hblank⟩ := exists_blank src.text
  rw [hblocks, Source.skipBlank_ofText hsplit hblank]
  simp only [blocks_iff]
  constructor
  · rintro ⟨c', bs, hr, hbs, rfl, -⟩
    change r = _ at hr
    subst hr
    exact ⟨⟨blank, bs⟩, ⟨hsplit, hblank, hbs⟩, rfl⟩
  · rintro ⟨f, hf, rfl⟩
    obtain ⟨rfl, rfl⟩ := hblank.unique hf.blank (hsplit.symm.trans hf.text)
    exact ⟨_, f.blocks, rfl, hf.blocks, rfl, rfl⟩

end Derivation

/-! ## Loading -/

/-- The words of a block are loaded as this block. -/
def Written.Block.Loads (w : Written.Block) (b : LoweredBlock) : Prop :=
  ∃ l, Lowering.Makes w.name w.stmts l ∧ fillLiveOut l = .ok b

theorem Written.Block.Loads.name {w : Written.Block} {b : LoweredBlock} (h : w.Loads b) :
    b.block.name = w.name := by
  obtain ⟨l, hmakes, hfill⟩ := h
  obtain ⟨d, hsteps, hof⟩ := hmakes.isOf
  obtain ⟨code, hfill', -⟩ := fillLiveOut_spec hof (hsteps.fits (Draft.fits_new _))
  rw [hfill'] at hfill
  cases hfill
  exact hof.name.trans hsteps.name

theorem names_of_loads {ws : List Written.Block} {bs : List LoweredBlock}
    (h : List.Forall₂ Written.Block.Loads ws bs) : ws.map (·.name) = bs.map (·.block.name) := by
  induction h with
  | nil => rfl
  | cons hb _ ih => rw [List.map_cons, List.map_cons, hb.name, ih]

variable {name text : Text} {bs : List LoweredBlock}

/-- **A text is loaded iff it has a derivation with words that can be lowered**, and no two of
    its blocks have one name. -/
theorem load_eq_ok_iff : load name text = .ok bs ↔ ∃ f : Derivation.File, f.Derives text ∧
    (f.words.map (·.name)).Nodup ∧ List.Forall₂ Written.Block.Loads f.words bs := by
  have hlower : ∀ (f : Derivation.File) (t : Tree.File) (ls : List LoweredBlock), f.Derives text →
      f.tree.blocks = t.blocks → ((Source.ofText name text).lower t = .ok ls ↔
        (f.words.map (·.name)).Nodup ∧
          List.Forall₂ (fun w b => Lowering.Makes w.name w.stmts b) f.words ls) := by
    intro f t ls hf htree
    have hspell : List.Forall₂ (Tree.Block.Spells (.ofText name text)) f.tree.blocks f.words :=
      f.spells hf.text
    rw [Source.lower, ← htree, Lowering.blocksFrom_eq_ok_iff hspell]
    simp
  simp only [load, lowerText, bind_eq_ok_iff, mapError_eq_ok_iff, mapM_eq_ok_iff]
  constructor
  · rintro ⟨ls, ⟨t, ht, hls⟩, hbs⟩
    obtain ⟨f, hf, htree⟩ := (Derivation.parse_blocks_iff _).1 ⟨t, ht, rfl⟩
    obtain ⟨hnodup, hmade⟩ := (hlower f t ls hf htree).1 hls
    exact ⟨f, hf, hnodup, forall₂_join hmade hbs.flip⟩
  · rintro ⟨f, hf, hnodup, hloads⟩
    obtain ⟨ls, hmade, hbs⟩ := forall₂_through hloads fun w _ b h => h
    obtain ⟨t, ht, htree⟩ := (Derivation.parse_blocks_iff (.ofText name text)).2 ⟨f, hf, rfl⟩
    exact ⟨ls, ⟨t, ht, (hlower f t ls hf htree.symm).2 ⟨hnodup, hmade⟩⟩, hbs⟩

end Straightline
