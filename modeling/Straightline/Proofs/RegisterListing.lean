/-
  Listings with registers.

  The listing of an allocated block is the block with other names: the register of a temp
  in place of its name, while the frame pointer keeps its own.

  * `NamedInstr.Writable.onNames`: an instruction that can be printed can be printed on
    other names too, if these can stand where names stand;
  * `allocate_place`: no operand but the frame pointer is left without a register;
  * `lowerText_listing`: so the listing of a text is read, as the text on other names.
-/
import Mathlib
import Straightline.Proofs.Errors
import Straightline.Proofs.RoundTrip

namespace Straightline

open Token (IsIdent)

/-! ## Other names -/

theorem Role.fits_map {α β : Type} {r : Role} {f : α → β} {o : Option α} : r.Fits (o.map f) ↔ r.Fits o := by
  constructor
  · intro h
    exact ⟨fun hr => Option.map_eq_none_iff.1 (h.unused hr), fun hr => by simpa using h.required hr⟩
  · intro h
    exact ⟨fun hr => Option.map_eq_none_iff.2 (h.unused hr), fun hr => by simpa using h.required hr⟩

namespace Instr

variable {i : Instr} {f g : Temp → Text} {t : Temp}

theorem fits_onNames : (i.onNames f).Fits ↔ i.op.roles.first.Fits i.args.first ∧
    i.op.roles.second.Fits i.args.second ∧ i.op.roles.third.Fits i.args.third := by
  constructor
  · intro h
    exact ⟨Role.fits_map.1 h.first, Role.fits_map.1 h.second, Role.fits_map.1 h.third⟩
  · rintro ⟨h₀, h₁, h₂⟩
    exact ⟨Role.fits_map.2 h₀, Role.fits_map.2 h₁, Role.fits_map.2 h₂⟩

/-- If the slots are filled as the op table says, then each temp in them is an operand. -/
theorem mem_temps_of_slot (h : (i.onNames f).Fits) (ht : some t ∈ i.args.toList) : t ∈ i.temps := by
  have hslot : ∀ {slot : Nat} {role : Role} {arg : Option Temp}, role.Fits arg → some t = arg →
      ⟨slot, role, t⟩ ∈ (operandAt slot role arg).toList := by
    intro slot role arg hfits harg
    subst harg
    exact mem_operandAt.2 ⟨fun hr => by simpa using hfits.unused hr, t, rfl, rfl⟩
  obtain ⟨h₀, h₁, h₂⟩ := fits_onNames.1 h
  simp only [Slots.toList, List.mem_cons, List.not_mem_nil, or_false] at ht
  rw [temps, operands_eq, List.map_append, List.map_append, List.mem_append, List.mem_append]
  rcases ht with ht | ht | ht
  · exact .inl (List.mem_map_of_mem (hslot h₀ ht))
  · exact .inr (.inl (List.mem_map_of_mem (hslot h₁ ht)))
  · exact .inr (.inr (List.mem_map_of_mem (hslot h₂ ht)))

end Instr

/-- The name is an identifier, and a line that starts with it is not taken for a header or
    a directive. -/
def Written.Free (x : Text) : Prop :=
  IsIdent x ∧ reserved x = false

instance (x : Text) : Decidable (Written.Free x) :=
  inferInstanceAs (Decidable (_ ∧ _))

namespace NamedInstr.Writable

variable {i : Instr} {f g : Temp → Text} (h : (i.onNames f).Writable)
  (hg : ∀ t ∈ i.temps, g t = f t ∨ Written.Free (g t))
include h hg

theorem sources_onNames : ∀ x ∈ (i.onNames g).sources, IsIdent x := by
  rw [Instr.sources_onNames]
  intro x hx
  obtain ⟨t, ht, rfl⟩ := List.mem_map.1 hx
  rcases hg t (Instr.mem_temps_of_read ht) with heq | hfree
  · rw [heq]
    exact h.sources _ (Instr.sources_onNames f i ▸ List.mem_map_of_mem ht)
  · exact hfree.1

theorem target_onNames : ∀ d ∈ (i.onNames g).target, Written.Free d := by
  rw [Instr.target_onNames]
  intro d hd
  obtain ⟨t, ht, rfl⟩ := Option.map_eq_some_iff.1 hd
  have hold : (i.onNames f).written.dst = some (f t) := by
    rw [NamedInstr.written, Instr.target_onNames, ht, Option.map_some]
  rcases hg t (Instr.mem_temps_of_definition (Instr.mem_definitions.2 ht)) with heq | hfree
  · have hplain := h.plain.free
    rw [hold, Option.getD_some] at hplain
    rw [heq]
    exact ⟨h.plain.dst _ hold, hplain⟩
  · exact hfree

/-- The first word of the line is still none that opens a header or a directive. -/
theorem free_onNames : Written.reserved ((i.onNames g).written.dst.getD (i.onNames g).written.op) = false := by
  rcases ht : (i.onNames g).target with _ | d
  · have hnone : (i.onNames f).written.dst = none := by
      rw [Instr.target_onNames, Option.map_eq_none_iff] at ht
      rw [NamedInstr.written, Instr.target_onNames, ht, Option.map_none]
    have hfree := h.plain.free
    rw [hnone] at hfree
    rw [NamedInstr.written, ht]
    exact hfree
  · rw [NamedInstr.written, ht]
    exact (h.target_onNames hg d ht).2

/-- **An instruction that can be printed can be printed on other names.** -/
theorem onNames : (i.onNames g).Writable := by
  have hsources := h.sources_onNames hg
  -- the operand that is no temp stays, and with it what it means
  obtain ⟨extra, hargs, hmeans⟩ := h.means.args
  obtain rfl := List.append_cancel_left hargs
  have hplain := (List.forall_mem_append.1 h.plain.args).2
  refine ⟨⟨h.means.op, Instr.fits_onNames.2 (Instr.fits_onNames.1 h.means.fits), rfl, _, rfl, hmeans⟩,
    ⟨fun d hd => (h.target_onNames hg d hd).1, h.plain.op, h.free_onNames hg,
      List.forall_mem_append.2 ⟨?_, hplain⟩⟩, hsources⟩
  intro a ha
  obtain ⟨x, hx, rfl⟩ := List.mem_map.1 ha
  exact Written.plain_ident (hsources x hx)

end NamedInstr.Writable

/-! ## Listings -/

/-- Reading the lines of some instructions adds them. -/
theorem Draft.steps_instrs {ns : List NamedInstr} (hns : ∀ n ∈ ns, n.Writable) (d : Draft) :
    ∃ d', d.Steps (ns.map fun n => .instr n.written) d' ∧ d'.code = d.code ++ ns.map fun n => ⟨n, []⟩ := by
  induction ns generalizing d with
  | nil => exact ⟨d, .nil d, by simp⟩
  | cons n ns ih =>
    obtain ⟨hn, hns⟩ := List.forall_mem_cons.1 hns
    obtain ⟨d', hsteps, hcode⟩ := ih hns { d with code := d.code ++ [⟨n, []⟩], lastHasLive := false }
    exact ⟨d', .cons (.instr hn.means) hsteps, by rw [hcode, List.append_assoc]; rfl⟩

namespace Block

variable {b : Block} {asg : TempMap Register}

theorem codeLines_false : b.codeLines asg false = b.instrLine asg := by
  funext i
  rw [codeLines, if_neg Bool.false_ne_true, List.append_nil]

/-- A listing without live sets is read as its instructions, on the texts of their temps. -/
theorem listing_printedAs (hname : IsIdent b.name)
    (hcode : ∀ i ∈ b.code, (i.onNames (b.operandText asg)).Writable) :
    ∃ d : Draft, d.PrintedAs (b.listing asg false) ∧ d.name = b.name ∧
      d.code = b.code.map fun i => ⟨i.onNames (b.operandText asg), []⟩ := by
  have hns : ∀ n ∈ b.code.map (Instr.onNames (b.operandText asg)), n.Writable := List.forall_mem_map.2 hcode
  obtain ⟨d, hsteps, hdcode⟩ := Draft.steps_instrs hns (.new b.name)
  refine ⟨d, ⟨⟨b.name, _⟩, ?_, ⟨hname, ?_⟩, hsteps⟩, hsteps.name, ?_⟩
  · rw [listing, codeLines_false, funext (instrLine_eq asg), Written.Block.text, List.map_map, List.flatMap_map]
    rfl
  · intro s hs
    obtain ⟨n, hn, rfl⟩ := List.mem_map.1 hs
    exact (hns n hn).plain
  · rw [hdcode, List.map_map]
    rfl

end Block

/-- The instructions of a loaded block can be printed. -/
theorem LoadedFrom.writable {d : Draft} {b : LoweredBlock} (h : LoadedFrom d b) (hd : d.Lexical) :
    ∀ i ∈ b.block.code, (i.onNames b.block.tempName).Writable := by
  obtain ⟨b, code, hof, hfilled, rfl⟩ := h
  intro i hi
  obtain ⟨e, he, hie⟩ := exists_of_forall₂_left (hfilled.names hof) hi
  have hname : i.onNames b.block.tempName = e.instr := hie.onNames_eq
  have hwritable := (hd.code e he).instr
  rw [← hname] at hwritable
  exact hwritable

/-! ## Places -/

/-- What stands for a temp in the listing of an allocated block: the name of the frame
    pointer if it is that, and else its register. -/
def Allocation.place (a : Allocation) (fp : Text) (t : Temp) : Option Text :=
  if a.block.lookup? fp = some t then some fp else a.assignment.get? t

/-- The temp `t'` of the block has the name that stands for `t`. -/
def Block.Keeps (b' : Block) (place : Temp → Option Text) (t t' : Temp) : Prop :=
  ∃ x, place t = some x ∧ b'.Names t' x

/-- The instruction `i'` of the block is `i` with what stands for its temps in their slots. -/
structure Block.Places (b' : Block) (place : Temp → Option Text) (i i' : Instr) : Prop where
  op : i'.op = i.op
  imm : i'.imm = i.imm
  label : i'.label = i.label
  first : Option.Rel (b'.Keeps place) i.args.first i'.args.first
  second : Option.Rel (b'.Keeps place) i.args.second i'.args.second
  third : Option.Rel (b'.Keeps place) i.args.third i'.args.third

theorem Block.InstrNames.places {b' : Block} {place : Temp → Option Text} {g : Temp → Text} {i i' : Instr}
    (h : b'.InstrNames i' ⟨i.onNames g, []⟩) (hplace : ∀ t, some t ∈ i.args.toList → place t = some (g t)) :
    b'.Places place i i' := by
  have hslot : ∀ {o o' : Option Temp}, o ∈ i.args.toList → Option.Rel b'.Names o' (o.map g) →
      Option.Rel (b'.Keeps place) o o' := by
    rintro (_ | t) o' ho hrel
    · cases hrel with
      | none => exact .none
    · cases hrel with
      | some hname => exact .some ⟨g t, hplace t ho, hname⟩
  exact ⟨h.op, h.imm, h.label, hslot (by simp [Slots.toList]) h.args.first,
    hslot (by simp [Slots.toList]) h.args.second, hslot (by simp [Slots.toList]) h.args.third⟩

section
variable {cfg : TextConfig} {b : Block} {a : Allocation}

/-- **No operand but the frame pointer is left without a register.** -/
theorem allocate_place (hspill : cfg.spiller = none) (h : (allocate (cfg.forBlock b) b).result = .ok a)
    {i : Instr} (hi : i ∈ b.code) {t : Temp} (ht : t ∈ i.temps) :
    a.place cfg.fp t = some (b.operandText a.assignment t) ∧
      (b.operandText a.assignment t = b.tempName t ∨ b.operandText a.assignment t ∈ cfg.regs) := by
  obtain ⟨-, hcheck, hblock, g', hcolor⟩ := allocate_ok hspill h
  have hcode : ∀ i ∈ b.code, ∀ t ∈ i.temps, 0 ≤ t := Block.nonneg_of_check hcheck
  have hcol := Graph.color_ok_coloring (Graph.wellFormed_ofCode hcode)
    (fun t => Graph.hasNode_ofCode hcode) hcolor
  have hdomain : (a.assignment.get? t).isSome = true ↔ some t ≠ b.lookup? cfg.fp := by
    rw [hcol.domain, ← Graph.known_iff_mem, Graph.known_ofCode hcode]
    exact and_iff_right ⟨i, hi, ht⟩
  rw [Allocation.place, hblock, Block.operandText]
  by_cases hfp : b.lookup? cfg.fp = some t
  · have hnone : a.assignment.get? t = none := by
      rw [← Option.not_isSome_iff_eq_none, hdomain, hfp]
      simp
    rw [if_pos hfp, hnone, Option.getD_none, (Block.names_of_lookup? hfp).tempName]
    exact ⟨rfl, .inl rfl⟩
  · obtain ⟨r, hr⟩ := Option.isSome_iff_exists.1 (hdomain.2 fun heq => hfp heq.symm)
    rw [if_neg hfp, hr, Option.getD_some]
    exact ⟨rfl, .inr (hcol.registers t r hr)⟩

end

/-! ## Texts -/

section
variable {cfg : TextConfig} {name text out : Text}

/-- The draft is the block on the texts of its temps after an allocation. -/
structure Draft.Renders (d : Draft) (cfg : TextConfig) (b : Block) (a : Allocation) : Prop where
  alloc : (allocate (cfg.forBlock b) b).result = .ok a
  name : d.name = b.name
  code : d.code = b.code.map fun i => ⟨i.onNames (b.operandText a.assignment), []⟩
  writable : ∀ i ∈ b.code, (i.onNames (b.operandText a.assignment)).Writable

/-- The listing of an allocated block is read, as the block on other names. -/
theorem exists_draft_of_render (hspill : cfg.spiller = none) (hlisting : cfg.listing = true)
    (hregs : ∀ r ∈ cfg.regs, Written.Free r) {bs : List LoweredBlock} (hload : load name text = .ok bs)
    {b : LoweredBlock} (hb : b ∈ bs) {a : Allocation}
    (ha : (allocate (cfg.forBlock b.block) b.block).result = .ok a) :
    ∃ d : Draft, d.Renders cfg b.block a ∧ d.PrintedAs (cfg.render b.block a) := by
  obtain ⟨d, hbd, hd, hname⟩ := exists_draft_of_load hload b hb
  obtain ⟨-, -, hblock, -⟩ := allocate_ok hspill ha
  have hwritable : ∀ i ∈ b.block.code, (i.onNames (b.block.operandText a.assignment)).Writable := by
    intro i hi
    refine (hbd.writable hd i hi).onNames fun t ht => ?_
    exact (allocate_place hspill ha hi ht).2.imp_right (hregs _)
  rw [TextConfig.render, if_pos hlisting, hblock]
  obtain ⟨d', hprinted, hname', hcode⟩ := Block.listing_printedAs (hbd.block_name ▸ hname) hwritable
  exact ⟨d', ⟨ha, hname', hcode, hwritable⟩, hprinted⟩

/-- What is lowered from the draft has what stands for each temp in its slot. -/
theorem Draft.Renders.places (hspill : cfg.spiller = none) {d : Draft} {b : Block} {a : Allocation}
    {b' : LoweredBlock} (h : d.Renders cfg b a) (hof : b'.IsOf d) :
    b'.block.name = b.name ∧ List.Forall₂ (b'.block.Places (a.place cfg.fp)) b.code b'.block.code := by
  refine ⟨hof.name.trans h.name, ?_⟩
  have hcode := hof.code
  rw [h.code, List.forall₂_map_right_iff] at hcode
  refine ((List.forall₂_and_left _ _).2 ⟨fun i hi => hi, hcode.flip⟩).imp ?_
  rintro i i' ⟨hi, hnames⟩
  refine hnames.places fun t ht => ?_
  exact (allocate_place hspill h.alloc hi (Instr.mem_temps_of_slot (h.writable i hi).means.fits ht)).1

/-- **The listing of a text is the text on other names.** If the registers have names that
    can stand where names stand, then the listing is read and lowered, to the same blocks
    with what stands for each temp in its slot. -/
theorem lowerText_listing (hspill : cfg.spiller = none) (hlisting : cfg.listing = true)
    (hregs : ∀ r ∈ cfg.regs, Written.Free r)
    (h : (allocateText cfg name text).result = .ok out) (name' : Text) :
    ∃ bs bs', load name text = .ok bs ∧ lowerText name' out = .ok bs' ∧
      List.Forall₂ (fun b b' => ∃ a, (allocate (cfg.forBlock b.block) b.block).result = .ok a ∧
        b'.block.name = b.block.name ∧
        List.Forall₂ (b'.block.Places (a.place cfg.fp)) b.block.code b'.block.code) bs bs' := by
  obtain ⟨bs, outs, hload, houts, rfl⟩ := allocateText_eq_ok_iff.1 h
  have hrendered : ∀ b ∈ bs, ∀ out, (∃ a, (allocate (cfg.forBlock b.block) b.block).result = .ok a ∧
      out = cfg.render b.block a) → ∃ d : Draft, (∃ a, d.Renders cfg b.block a) ∧ d.PrintedAs out := by
    rintro b hb out ⟨a, ha, rfl⟩
    obtain ⟨d, hd, hprinted⟩ := exists_draft_of_render hspill hlisting hregs hload hb ha
    exact ⟨d, ⟨a, hd⟩, hprinted⟩
  obtain ⟨ds, hds, hprinted⟩ := forall₂_through
    ((allocateBlocks_eq_ok_iff (memoryless_of_none hspill)).1 houts) hrendered
  obtain ⟨ws, htext, hplain, hdrafts, hnames⟩ := Written.exists_program hprinted
  have hnodup : (ws.map (·.name)).Nodup := by
    have hsame : bs.map (·.block.name) = ds.map (·.name) := by
      refine map_eq_map_of_forall₂ (hds.imp ?_)
      rintro b d ⟨a, hd⟩
      exact hd.name.symm
    rw [hnames, ← hsame]
    exact nodup_of_load hload
  obtain ⟨bs', hlower, hofs⟩ := lowerText_complete hplain hdrafts hnodup name'
  refine ⟨bs, bs', hload, htext ▸ hlower, (forall₂_join hds hofs).imp ?_⟩
  rintro b b' ⟨d, ⟨a, hd⟩, hof⟩
  exact ⟨a, hd.alloc, hd.places hspill hof⟩

end

/-- A word of a frame, doubled. -/
def doubleText : Text := utf8 "block double\n\ta = load fp 8\n\tb = add a a\n\tstore b fp 8\n"

/-- The listing of it: both words are in one register, and the frame pointer has its name. -/
def doubleListing : Text := utf8 "block double\n\tr0 = load fp 8\n\tr0 = add r0 r0\n\tstore r0 fp 8\n"

/-- Two registers. -/
def twoRegisters : TextConfig := ⟨[utf8 "r0", utf8 "r1"], utf8 "fp", none, 0, true⟩

theorem lowerText_listing_double :
    (allocateText twoRegisters (utf8 "a.tac") doubleText).result = .ok doubleListing ∧
    ∃ bs bs', load (utf8 "a.tac") doubleText = .ok bs ∧ lowerText (utf8 "b.tac") doubleListing = .ok bs' ∧
      List.Forall₂ (fun b b' => ∃ a, (allocate (twoRegisters.forBlock b.block) b.block).result = .ok a ∧
        b'.block.name = b.block.name ∧
        List.Forall₂ (b'.block.Places (a.place twoRegisters.fp)) b.block.code b'.block.code) bs bs' := by
  have hout : (allocateText twoRegisters (utf8 "a.tac") doubleText).result = .ok doubleListing := by cbv
  exact ⟨hout, lowerText_listing rfl rfl (by decide +kernel) hout (utf8 "b.tac")⟩

end Straightline
