/-
  Printed blocks.

  * `NamedInstr.written` is an instruction as it is printed, and `NamedInstr.Writable` says
    that it means itself when it is read;
  * `Draft.Lexical`: what is read consists of instructions that can be printed, on names
    that are identifiers;
  * `Block.listing_eq`: a listing is the text of a written block, two lines for each
    instruction;
  * `LoadedFrom.printout`: so the listing of a loaded block can be read, and lowered to
    the same names.
-/
import Straightline.Listing
import Straightline.Proofs.Literal
import Straightline.Proofs.Loading
import Straightline.Proofs.Renaming

namespace Straightline

open Token (IsIdent)

/-! ## Instructions -/

namespace Written

/-- The operand that is no temp, as it is printed. -/
def extraArgs : Extra → Int → Text → List Arg
  | .nothing, _, _ => []
  | .immediate, n, _ => [.int (decimal n)]
  | .label, _, s => [.ident s]
  | .string, _, s => [.string (quoted s)]

theorem Instr.text_eq (i : Instr) : i.text =
    i.dst.elim [] (· ++ utf8 " = ") ++ i.op ++ i.args.flatMap fun a => spacedText a.text := by
  obtain ⟨_ | d, op, args⟩ := i <;> rfl

/-- However the operand was written, what is printed means the same. -/
theorem ExtraMeans.printed {e : Extra} {as : List Arg} {n : Int} {s : Text} (h : ExtraMeans e as n s)
    (hlex : ∀ a ∈ as, a.Lexical) :
    ExtraMeans e (extraArgs e n s) n s ∧ ∀ a ∈ extraArgs e n s, a.Plain := by
  unfold ExtraMeans at h
  split at h
  · exact ⟨h, by simp [extraArgs]⟩
  · obtain ⟨hlow, hhigh⟩ := Numeral.range_of_read h.1
    exact ⟨⟨Numeral.read_decimal hlow hhigh, h.2⟩, by simpa [extraArgs] using plain_decimal _⟩
  · obtain ⟨hn, rfl⟩ := h
    have hident := hlex _ List.mem_cons_self
    exact ⟨⟨hn, rfl⟩, by simpa [extraArgs] using plain_ident hident⟩
  · exact ⟨⟨h.1, unquoted?_quoted _⟩, by simpa [extraArgs] using plain_quoted _⟩
  · exact h.elim

end Written

namespace NamedInstr

variable {n : NamedInstr} {w : Written.Instr}

/-- The instruction as it is printed. -/
def written (n : NamedInstr) : Written.Instr :=
  ⟨n.target, utf8 n.op.name, n.sources.map .ident ++ Written.extraArgs n.op.extra n.imm n.label⟩

/-- What is printed of the instruction can stand on a line and means it. -/
structure Writable (n : NamedInstr) : Prop where
  means : n.written.Means n
  plain : n.written.Plain
  sources : ∀ x ∈ n.sources, IsIdent x

theorem op_of_ofName? {x : Text} {op : Op} (h : Op.ofName? x = some op) : utf8 op.name = x ∧ op ∈ Op.all := by
  have hname := List.find?_some h
  exact ⟨beq_iff_eq.1 hname, List.mem_of_find?_eq_some h⟩

/-- No op is named like a header or a directive. -/
theorem reserved_op {op : Op} (h : op ∈ Op.all) : Written.reserved (utf8 op.name) = false := by
  revert op
  decide +kernel

/-- **An instruction that was read can be printed.** -/
theorem writable_of_means (hw : w.Means n) (hlex : w.Lexical) : n.Writable := by
  obtain ⟨hname, hop⟩ := op_of_ofName? hw.op
  obtain ⟨extra, hargs, hextra⟩ := hw.args
  have hlexical := hlex.args
  rw [hargs] at hlexical
  obtain ⟨hsources, hrest⟩ := List.forall_mem_append.1 hlexical
  obtain ⟨hmeans, hplain⟩ := hextra.printed hrest
  have hidents : ∀ x ∈ n.sources, IsIdent x := fun x hx => hsources (.ident x) (List.mem_map_of_mem hx)
  have hop' : Op.ofName? n.written.op = some n.op := by rw [written, hname, hw.op]
  have hident : IsIdent n.written.op := by rw [written, hname]; exact hlex.op
  refine ⟨⟨hop', hw.fits, rfl, _, rfl, hmeans⟩, ⟨?_, hident, ?_, ?_⟩, hidents⟩
  · intro d hd
    exact (hlex.dst d (hw.dst ▸ hd)).1
  · simp only [written]
    cases ht : n.target with
    | none => exact reserved_op hop
    | some d => exact (hlex.dst d (hw.dst.trans ht)).2
  · refine List.forall_mem_append.2 ⟨?_, hplain⟩
    intro a ha
    obtain ⟨x, hx, rfl⟩ := List.mem_map.1 ha
    exact Written.plain_ident (hidents x hx)

end NamedInstr

/-! ## Drafts -/

/-- The instruction can be printed, and the names live after it are identifiers. -/
structure Entry.Lexical (e : Entry) : Prop where
  instr : e.instr.Writable
  live : ∀ x ∈ e.live, IsIdent x

namespace Draft

variable {d d' : Draft} {w : Written.Stmt} {ws : List Written.Stmt}

/-- The instructions can be printed, and the names are identifiers. -/
structure Lexical (d : Draft) : Prop where
  code : ∀ e ∈ d.code, e.Lexical
  exit : ∀ x ∈ d.exit, IsIdent x

theorem Step.lexical (h : d.Step w d') (hw : w.Lexical) (hd : d.Lexical) : d'.Lexical := by
  cases h with
  | instr hmeans =>
    refine ⟨List.forall_mem_append.2 ⟨hd.code, List.forall_mem_singleton.2 ⟨?_, by simp⟩⟩, hd.exit⟩
    exact NamedInstr.writable_of_means hmeans hw
  | live hcode _ =>
    have hold := hd.code
    rw [hcode] at hold
    obtain ⟨hinit, hlast⟩ := List.forall_mem_append.1 hold
    have hlast := List.forall_mem_singleton.1 hlast
    exact ⟨List.forall_mem_append.2 ⟨hinit, List.forall_mem_singleton.2 ⟨hlast.instr, hw⟩⟩, hd.exit⟩
  | out => exact ⟨hd.code, List.forall_mem_append.2 ⟨hd.exit, hw⟩⟩

theorem Steps.lexical (h : d.Steps ws d') (hws : ∀ w ∈ ws, w.Lexical) (hd : d.Lexical) : d'.Lexical := by
  induction h with
  | nil => exact hd
  | cons head _ ih =>
    obtain ⟨hw, hws⟩ := List.forall_mem_cons.1 hws
    exact ih hws (head.lexical hw hd)

theorem lexical_of_drafts {w : Written.Block} (h : w.Drafts d) (hw : w.Lexical) : d.Lexical :=
  Steps.lexical h hw.stmts ⟨by simp [new], by simp [new]⟩

end Draft

/-! ## Lines -/

theorem Instr.reads_eq (i : Instr) : i.reads = i.op.roles.first.taken i.args.first ++
    i.op.roles.second.taken i.args.second ++ i.op.roles.third.taken i.args.third := by
  have hslot : ∀ (slot : Nat) (role : Role) (arg : Option Temp),
      (((operandAt slot role arg).toList.filter (·.role.reads)).map (·.temp)) = role.taken arg := by
    intro slot role arg
    cases role <;> cases arg <;> rfl
  rw [reads, operands_eq]
  simp only [List.filter_append, List.map_append, hslot, List.append_assoc]

theorem Instr.definition?_eq (i : Instr) :
    i.definition? = if i.op.roles.first.defines then i.args.first else none := by
  obtain ⟨h₁, h₂⟩ := defines_only_first i.op
  have hslot : ∀ (slot : Nat) (role : Role) (arg : Option Temp),
      (((operandAt slot role arg).toList.filter (·.role.defines)).map (·.temp)) =
        (if role.defines then arg else none).toList := by
    intro slot role arg
    cases role <;> cases arg <;> rfl
  have hdefs : i.definitions = (if i.op.roles.first.defines then i.args.first else none).toList := by
    rw [definitions, operands_eq]
    simp [hslot, h₁, h₂]
  rw [definitions_eq] at hdefs
  simpa using congrArg List.head? hdefs

theorem Role.taken_map {α β : Type} (r : Role) (f : α → β) (o : Option α) :
    r.taken (o.map f) = (r.taken o).map f := by
  unfold taken
  split <;> simp [Option.toList_map]

/-- The instruction with names in place of temps. -/
def Instr.onNames (f : Temp → Text) (i : Instr) : NamedInstr :=
  ⟨i.op, i.args.mapSome f, i.imm, i.label⟩

theorem Instr.sources_onNames (f : Temp → Text) (i : Instr) : (i.onNames f).sources = i.reads.map f := by
  simp only [NamedInstr.sources, onNames, Slots.mapSome, Role.taken_map, reads_eq, List.map_append]

theorem Instr.target_onNames (f : Temp → Text) (i : Instr) : (i.onNames f).target = i.definition?.map f := by
  rw [definition?_eq, NamedInstr.target, onNames]
  by_cases h : i.op.roles.first.defines = true
  · simp [Slots.mapSome, h]
  · simp [h]

namespace Block

variable {b : Block} {i : Instr} {e : Entry} {es : List Entry}

theorem forall₂_taken {r : Role} {s : Option Temp} {o : Option Text} (h : Option.Rel b.Names s o) :
    List.Forall₂ b.Names (r.taken s) (r.taken o) := by
  unfold Role.taken
  split
  · cases h with
    | none => exact .nil
    | some h => exact .cons h .nil
  · exact .nil

theorem InstrNames.reads (h : b.InstrNames i e) : List.Forall₂ b.Names i.reads e.instr.sources := by
  rw [Instr.reads_eq, NamedInstr.sources, h.op]
  exact List.rel_append (List.rel_append (forall₂_taken h.args.first) (forall₂_taken h.args.second))
    (forall₂_taken h.args.third)

/-- The entry is the instruction on names, with the live names in the order of the temps. -/
structure Shows (b : Block) (i : Instr) (e : Entry) : Prop where
  names : b.InstrNames i e
  live : List.Forall₂ b.Names i.liveOut.keys e.live

theorem flatMap_tempName {ts : List Temp} {xs : List Text} (h : List.Forall₂ b.Names ts xs) :
    ts.flatMap (fun t => utf8 " " ++ b.tempName t) = xs.flatMap Written.spacedText := by
  induction h with
  | nil => rfl
  | cons ht _ ih => rw [List.flatMap_cons, List.flatMap_cons, ih, ht.tempName]; rfl

theorem targetText_eq (asg : TempMap Register) (i : Instr) :
    b.targetText asg i = (i.onNames (b.operandText asg)).target.elim [] (· ++ utf8 " = ") := by
  rw [Instr.target_onNames, targetText]
  cases i.definition? <;> rfl

theorem extraText_eq (i : Instr) : extraText i =
    (Written.extraArgs i.op.extra i.imm i.label).flatMap fun a => Written.spacedText a.text := by
  rw [extraText]
  cases i.op.extra <;> simp [Written.extraArgs, Written.spacedText, Written.Arg.text]

/-- **An instruction line is that of a written instruction**, on the texts of its temps. -/
theorem instrLine_eq (asg : TempMap Register) (i : Instr) :
    b.instrLine asg i = (Written.Stmt.instr (i.onNames (b.operandText asg)).written).line := by
  rw [instrLine, Written.Stmt.line, Written.Stmt.text, Written.Instr.text_eq, targetText_eq, extraText_eq]
  simp only [NamedInstr.written, Instr.sources_onNames, List.flatMap_append, List.append_assoc, List.flatMap_map]
  rfl

theorem map_tempName {s : Option Temp} {o : Option Text} (h : Option.Rel b.Names s o) : s.map b.tempName = o := by
  cases h with
  | none => rfl
  | some h => simp [h.tempName]

/-- On names, the instruction is the entry. -/
theorem InstrNames.onNames_eq (h : b.InstrNames i e) : i.onNames b.tempName = e.instr := by
  rw [Instr.onNames, h.op, h.imm, h.label, Slots.mapSome, map_tempName h.args.first, map_tempName h.args.second,
    map_tempName h.args.third]

theorem operandText_empty : b.operandText .empty = b.tempName := rfl

theorem liveLine_eq {live : DenseSet} {xs : List Text} (h : List.Forall₂ b.Names live.keys xs) :
    b.liveLine live = (Written.Stmt.live xs).line := by
  rw [liveLine, flatMap_tempName h]
  rfl

end Block

/-- The lines of an entry. -/
def Entry.stmts (e : Entry) : List Written.Stmt :=
  [.instr e.instr.written, .live e.live]

/-- A block as it is printed. -/
def Written.printed (name : Text) (es : List Entry) : Written.Block :=
  ⟨name, es.flatMap Entry.stmts⟩

namespace Block

variable {b : Block} {code : List Instr} {es : List Entry}

theorem codeLines_eq (h : List.Forall₂ b.Shows code es) :
    code.flatMap (b.codeLines .empty true) = (es.flatMap Entry.stmts).flatMap Written.Stmt.line := by
  induction h with
  | nil => rfl
  | cons hi _ ih =>
    rw [List.flatMap_cons, List.flatMap_cons, List.flatMap_append, ih, codeLines, instrLine_eq,
      operandText_empty, hi.names.onNames_eq, if_pos rfl, liveLine_eq hi.live]
    simp [Entry.stmts]

/-- **A listing is the text of a written block.** -/
theorem listing_eq (h : List.Forall₂ b.Shows b.code es) :
    b.listing .empty true = (Written.printed b.name es).text := by
  rw [listing, codeLines_eq h]
  rfl

end Block

theorem Written.plain_printed {name : Text} {es : List Entry} (hname : IsIdent name) (hes : ∀ e ∈ es, e.Lexical) :
    (printed name es).Plain := by
  refine ⟨hname, fun s hs => ?_⟩
  obtain ⟨e, he, hs⟩ := List.mem_flatMap.1 hs
  simp only [Entry.stmts, List.mem_cons, List.not_mem_nil, or_false] at hs
  rcases hs with rfl | rfl
  · exact (hes e he).instr.plain
  · exact (hes e he).live

/-- Reading the lines of some entries adds them. -/
theorem Draft.steps_entries {es : List Entry} (hes : ∀ e ∈ es, e.Lexical) (d : Draft) :
    ∃ d', d.Steps (es.flatMap Entry.stmts) d' ∧ d'.code = d.code ++ es ∧
      (d.explicit = true ∨ es ≠ [] → d'.explicit = true) := by
  induction es generalizing d with
  | nil => exact ⟨d, .nil d, by simp, by simp⟩
  | cons e es ih =>
    obtain ⟨he, hes⟩ := List.forall_mem_cons.1 hes
    obtain ⟨d', hsteps, hcode, hexplicit⟩ := ih hes
      { d with code := d.code ++ [e], lastHasLive := true, explicit := true }
    -- the live line comes right behind the instruction, which has no live set yet
    refine ⟨d', .cons (.instr he.instr.means) (.cons (.live rfl rfl) hsteps), ?_, fun _ => hexplicit (.inl rfl)⟩
    rw [hcode, List.append_assoc]
    rfl

/-! ## Loaded blocks -/

section
variable {b : LoweredBlock} {d : Draft} {code : List Instr} {i : Instr}

theorem Block.InstrNames.bare {b : Block} {e : Entry} (h : b.InstrNames i e) :
    b.InstrNames i.bare ⟨e.instr, []⟩ :=
  ⟨h.op, h.imm, h.label, h.args, [], .nil, fun t => by simp [Instr.bare, DenseSet.not_contains_empty]⟩

theorem Block.shows_of_bare {b : Block} {n : NamedInstr} {xs : List Text} (h : b.InstrNames i.bare ⟨n, []⟩)
    (hlive : List.Forall₂ b.Names i.liveOut.keys xs) : b.Shows i ⟨n, xs⟩ :=
  ⟨⟨h.op, h.imm, h.label, h.args, i.liveOut.keys, hlive, fun _ => DenseSet.mem_keys.symm⟩, hlive⟩

/-- Filling live-out sets changes no other name. -/
theorem Filled.names (hof : b.IsOf d) (h : Filled b d code) :
    List.Forall₂ (fun i e => b.block.InstrNames i.bare ⟨e.instr, []⟩) code d.code := by
  have hall : List.Forall₂ b.block.InstrNames (b.block.code.map Instr.bare)
      (d.code.map fun e => ⟨e.instr, []⟩) := by
    rw [List.forall₂_map_left_iff, List.forall₂_map_right_iff]
    exact hof.code.imp fun _ _ hi => hi.bare
  rwa [← h.bare, List.forall₂_map_left_iff, List.forall₂_map_right_iff] at hall

/-- A temp that is live after an instruction was live by the text, or is read later, or is
    live at the end; so it has a name of the text. -/
theorem Filled.live_named (hof : b.IsOf d) (hd : d.Lexical) (h : Filled b d code) (hi : i ∈ code) {t : Temp}
    (ht : i.liveOut.contains t = true) : ∃ x, b.block.Names t x ∧ IsIdent x := by
  have hnames := h.names hof
  rcases h.live with rfl | ⟨exit, hexit, hexact⟩
  · obtain ⟨e, he, hie⟩ := exists_of_forall₂_left hof.code hi
    obtain ⟨ts, hts, hmem⟩ := hie.live
    obtain ⟨x, hx, hname⟩ := exists_of_forall₂_left hts ((hmem t).1 ht)
    exact ⟨x, hname, (hd.code e he).live x hx⟩
  · obtain ⟨pre, post, rfl⟩ := List.append_of_mem hi
    rcases (hexact pre i post rfl t).1 ht with ⟨pre', j, post', rfl, hread, -⟩ | ⟨hout, -⟩
    · obtain ⟨e, he, hje⟩ := exists_of_forall₂_left hnames (a := j) (by simp)
      obtain ⟨x, hx, hname⟩ := exists_of_forall₂_left hje.reads hread
      exact ⟨x, hname, (hd.code e he).instr.sources x hx⟩
    · obtain ⟨x, hx, hname⟩ := exists_of_forall₂_left hexit hout
      exact ⟨x, hname, hd.exit x hx⟩

/-- The entries of filled code. -/
theorem Filled.exists_entries (hof : b.IsOf d) (hd : d.Lexical) (h : Filled b d code) :
    ∃ es, List.Forall₂ b.block.Shows code es ∧ ∀ e ∈ es, e.Lexical := by
  refine exists_forall₂ fun i hi => ?_
  obtain ⟨e, he, hie⟩ := exists_of_forall₂_left (h.names hof) hi
  obtain ⟨xs, hxs, hidents⟩ := exists_forall₂ fun t ht => h.live_named hof hd hi (DenseSet.mem_keys.1 ht)
  exact ⟨⟨e.instr, xs⟩, Block.shows_of_bare hie hxs, (hd.code e he).instr, hidents⟩

/-- The listing of the block is the text of `w`, which reads as the draft `d` of the block. -/
structure Block.Printout (b : Block) (w : Written.Block) (d : Draft) : Prop where
  text : b.listing .empty true = w.text
  name : w.name = b.name
  plain : w.Plain
  drafts : w.Drafts d
  indexed : b.Indexed
  code : List.Forall₂ b.InstrNames b.code d.code
  given : d.code ≠ [] → d.explicit = true

/-- **The listing of a loaded block can be read.** -/
theorem LoadedFrom.printout (h : LoadedFrom d b) (hd : d.Lexical) (hname : IsIdent d.name) :
    ∃ w d', b.block.Printout w d' := by
  obtain ⟨b, code, hof, hfilled, rfl⟩ := h
  obtain ⟨es, hes, hlex⟩ := hfilled.exists_entries hof hd
  have hshows : List.Forall₂ ({ b.block with code } : Block).Shows code es := by
    refine hes.imp fun i e hi => ⟨Block.InstrNames.mono ?_ hi.names, hi.live⟩
    exact List.prefix_rfl
  obtain ⟨d', hsteps, hcode, hexplicit⟩ := Draft.steps_entries hlex (.new b.block.name)
  refine ⟨Written.printed b.block.name es, d', Block.listing_eq hshows, rfl,
    Written.plain_printed (hof.name ▸ hname) hlex, hsteps, hof.indexed, ?_, fun hne => hexplicit (.inr ?_)⟩
  · rw [hcode]
    exact hshows.imp fun _ _ hi => hi.names
  · rwa [hcode] at hne

/-- What is loaded from a printout is on the same names again. -/
theorem LoadedFrom.of_printout (h : LoadedFrom d b) (hgiven : d.code ≠ [] → d.explicit = true) :
    b.block.name = d.name ∧ b.block.Indexed ∧ List.Forall₂ b.block.InstrNames b.block.code d.code := by
  obtain ⟨b, code, hof, hfilled, rfl⟩ := h
  have hcode : code = b.block.code := by
    -- without instructions there is no live line, but then there is nothing to fill either
    by_cases hne : d.code = []
    · have hnil := hof.code
      rw [hne, List.forall₂_nil_right_iff] at hnil
      have hbare := hfilled.bare
      rw [hnil, List.map_nil, List.map_eq_nil_iff] at hbare
      rw [hbare, hnil]
    · exact hfilled.given (hgiven hne)
  subst hcode
  exact ⟨hof.name, hof.indexed, hof.code⟩

end

end Straightline
