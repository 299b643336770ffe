/-
  Allocating what was printed.

  A printed text is loaded with live sets that are given instead of computed, with other
  numbers for its temps, and without the temps that occur nowhere but at its end.  The
  frame pointer may be one of these.  None of this matters to its listing.

  * `Block.Matches`: two blocks with the same names, under a one-to-one renumbering that
    is defined for all temps (`SameEntries.exists_matches`);
  * `Graph.ofCode_congr`: a frame pointer that does not occur makes no difference;
  * `Block.Matches.allocate`: hence the blocks are allocated alike, and printed alike;
  * `allocateText_printBlocks`: and so are a text and what is printed of it.
-/
import Mathlib
import Straightline.Proofs.RegisterListing
import Straightline.Proofs.Renumbering

namespace Straightline

variable {ρ ρ' : Temp → Temp}

/-! ## Renumberings of all temps -/

/-- A bounded map that is one-to-one on some temps agrees there with one that is one-to-one
    on all. -/
theorem exists_injective_extension {s : Set Temp} (hinj : Set.InjOn ρ s) {n : Nat} (hlt : ∀ t ∈ s, ρ t < n) :
    ∃ ρ' : Temp → Temp, Function.Injective ρ' ∧ ∀ t ∈ s, ρ' t = ρ t := by
  classical
  -- the other temps are numbered from `n` on
  let fresh (t : Temp) : Temp := n + (Equiv.intEquivNat t : Nat)
  have hfresh : ∀ t, (n : Temp) ≤ fresh t := fun t => le_add_of_nonneg_right (Int.natCast_nonneg _)
  refine ⟨fun t => if t ∈ s then ρ t else fresh t, fun t u h => ?_, fun t ht => if_pos ht⟩
  by_cases ht : t ∈ s <;> by_cases hu : u ∈ s <;> simp only [ht, hu, if_true, if_false] at h
  · exact hinj ht hu h
  · exact absurd (hlt t ht) (not_lt.2 (h ▸ hfresh u))
  · exact absurd (hlt u hu) (not_lt.2 (h ▸ hfresh t))
  · exact Equiv.intEquivNat.injective (Int.ofNat.inj (add_left_cancel h))

/-- What is done in filled slots is what is done to the temps in them. -/
theorem Slots.mapSome_congr {α : Type} {s : Slots (Option Temp)} {f g : Temp → α}
    (h : ∀ t, some t ∈ s.toList → f t = g t) : s.mapSome f = s.mapSome g := by
  have hslot : ∀ o ∈ s.toList, o.map f = o.map g := by
    intro o ho
    exact Option.map_congr fun t ht => h t (ht ▸ ho)
  rw [mapSome, mapSome, hslot _ (by simp [toList]), hslot _ (by simp [toList]), hslot _ (by simp [toList])]

theorem Slots.mapSome_mapSome {α β γ : Type} (f : α → β) (g : β → γ) (s : Slots (Option α)) :
    (s.mapSome f).mapSome g = s.mapSome (g ∘ f) := by
  simp only [mapSome, Option.map_map]

theorem Instr.occurs_of_mem_temps {i : Instr} {t : Temp} (h : t ∈ i.temps) : i.Occurs t := by
  obtain ⟨o, ho, rfl⟩ := List.mem_map.1 h
  rw [operands_eq, List.mem_append, List.mem_append] at ho
  refine .inl ?_
  rcases ho with ho | ho | ho <;> obtain ⟨-, t, ht, rfl⟩ := mem_operandAt.1 ho <;> simp [Slots.toList, ht]

theorem Instr.Renamed.congr {i i' : Instr} (h : Renamed ρ i i') (heq : ∀ t, i.Occurs t → ρ' t = ρ t) :
    Renamed ρ' i i' := by
  constructor
  · rw [h.args, Slots.mapSome_congr fun t ht => heq t (.inl ht)]
  · intro t
    rw [h.live]
    constructor
    · rintro ⟨u, hu, rfl⟩
      exact ⟨u, hu, heq u (.inr hu)⟩
    · rintro ⟨u, hu, rfl⟩
      exact ⟨u, hu, (heq u (.inr hu)).symm⟩

/-- The blocks do the same on names, and their temps are numbered one-to-one. -/
structure Block.Matches (ρ : Temp → Temp) (b b' : Block) : Prop where
  injective : Function.Injective ρ
  name : b'.name = b.name
  left : b.Indexed
  right : b'.Indexed
  code : List.Forall₂ (fun i i' => i'.op = i.op ∧ i'.imm = i.imm ∧ i'.label = i.label ∧ Instr.Renamed ρ i i')
    b.code b'.code
  names : ∀ t ∈ b.occurring, ∃ x, b.Names t x ∧ b'.Names (ρ t) x

/-- Blocks on the names of the same entries match. -/
theorem Block.SameEntries.exists_matches {b b' : Block} (h : b.SameEntries b') : ∃ ρ, b.Matches ρ b' := by
  have hlt : ∀ t ∈ b.occurring, b.renumber b' t < b'.numTemps := by
    intro t ht
    obtain ⟨x, -, k, hk, hget⟩ := h.names ht
    rw [hk]
    exact Int.ofNat_lt.2 (List.getElem?_eq_some_iff.1 hget).1
  obtain ⟨ρ, hρ, heq⟩ := exists_injective_extension h.injOn_renumber hlt
  refine ⟨ρ, hρ, h.name, h.left, h.right, ?_, fun t ht => by rw [heq t ht]; exact h.names ht⟩
  refine ((List.forall₂_and_left _ _).2 ⟨fun i hi => hi, h.code⟩).imp ?_
  rintro i i' ⟨hi, e, hie, hie'⟩
  refine ⟨hie'.op.trans hie.op.symm, hie'.imm.trans hie.imm.symm, hie'.label.trans hie.label.symm, ?_⟩
  exact (hie.renamed h.right hie').congr fun t ht => heq t ⟨i, hi, ht⟩

/-! ## Frame pointers -/

namespace Graph

variable {g : Graph} {fp fp' : Option Temp} {i : Instr} {code : List Instr}

theorem withOperands_congr (h : ∀ t, i.Occurs t → (some t = fp ↔ some t = fp')) :
    g.withOperands fp i = g.withOperands fp' i := by
  refine List.foldl_ext _ _ _ fun g t ht => ?_
  exact if_congr (h t (Instr.occurs_of_mem_temps ht)) rfl rfl

theorem withDefinition_congr (h : ∀ t, i.Occurs t → (some t = fp ↔ some t = fp')) :
    g.withDefinition fp i = g.withDefinition fp' i := by
  unfold withDefinition
  cases hd : i.definition? with
  | none => rfl
  | some d =>
    have hlive : g.liveNodes fp d i = g.liveNodes fp' d i := by
      refine List.filter_congr fun t ht => ?_
      have hiff := h t (.inr (DenseSet.mem_keys.1 ht))
      rw [Bool.eq_iff_iff]
      simp only [Bool.and_eq_true, bne_iff_ne, ne_eq, hiff]
    have hmem : d ∈ i.temps := Instr.mem_temps_of_definition (Instr.mem_definitions.2 hd)
    simp only [hlive]
    exact if_congr (h d (Instr.occurs_of_mem_temps hmem)) rfl rfl

/-- **Only a frame pointer that occurs makes a difference.** -/
theorem ofCode_congr (h : ∀ i ∈ code, ∀ t, i.Occurs t → (some t = fp ↔ some t = fp')) :
    ofCode fp code = ofCode fp' code := by
  have hnodes : code.foldl (withOperands fp) empty = code.foldl (withOperands fp') empty :=
    List.foldl_ext _ _ _ fun g i hi => withOperands_congr (h i hi)
  rw [ofCode, ofCode, hnodes]
  exact List.foldl_ext _ _ _ fun g i hi => withDefinition_congr (h i hi)

end Graph

/-! ## Listings -/

namespace Block.Matches

variable {b b' : Block} (h : b.Matches ρ b')
include h

theorem renumbered : Renumbered ρ b.code b'.code :=
  h.code.imp fun _ _ hi => ⟨hi.1, hi.2.2.2⟩

/-- Temps that correspond have the same text, if they have the same register. -/
theorem operandText {asg asg' : Assignment} (hm : asg.Moved ρ asg') {t : Temp} (ht : t ∈ b.occurring) :
    b'.operandText asg' (ρ t) = b.operandText asg t := by
  obtain ⟨x, hx, hx'⟩ := h.names t ht
  rw [Block.operandText, Block.operandText, hm.get?, hx.tempName, hx'.tempName]

/-- **The listings are the same**, if temps that correspond have the same register. -/
theorem listing {asg asg' : Assignment} (hm : asg.Moved ρ asg') :
    b'.listing asg' false = b.listing asg false := by
  have hline : List.Forall₂ (fun i i' => b.instrLine asg i = b'.instrLine asg' i') b.code b'.code := by
    refine ((List.forall₂_and_left _ _).2 ⟨fun i hi => hi, h.code⟩).imp ?_
    rintro i i' ⟨hi, hop, himm, hlabel, hren⟩
    have hargs : i.args.mapSome (b'.operandText asg' ∘ ρ) = i.args.mapSome (b.operandText asg) :=
      Slots.mapSome_congr fun t ht => h.operandText hm ⟨i, hi, .inl ht⟩
    have hnames : i'.onNames (b'.operandText asg') = i.onNames (b.operandText asg) := by
      rw [Instr.onNames, Instr.onNames, hop, himm, hlabel, hren.args, Slots.mapSome_mapSome, hargs]
    rw [instrLine_eq, instrLine_eq, hnames]
  rw [Block.listing, Block.listing, codeLines_false, codeLines_false, headerLine, headerLine, h.name,
    List.flatMap_def, List.flatMap_def, map_eq_map_of_forall₂ hline]

/-! ## Allocation -/

/-- The frame pointer is the same in both blocks, where it occurs. -/
theorem ofCode_eq (fp : Text) :
    Graph.ofCode (b'.lookup? fp) b'.code = Graph.ofCode ((b.lookup? fp).map ρ) b'.code := by
  refine Graph.ofCode_congr fun i' hi' t' ht' => ?_
  have himage : t' ∈ ρ '' b.occurring := by
    rw [image_occurring (h.code.imp fun _ _ hi => hi.2.2.2)]
    exact ⟨i', hi', ht'⟩
  obtain ⟨t, ht, rfl⟩ := himage
  obtain ⟨x, hx, hx'⟩ := h.names t ht
  rw [Graph.some_eq_map_iff h.injective]
  constructor
  · intro hfp
    obtain rfl := hx'.name_unique (names_of_lookup? hfp.symm)
    exact (lookup?_of_names h.left hx).symm
  · intro hfp
    obtain rfl := hx.name_unique (names_of_lookup? hfp.symm)
    exact (lookup?_of_names h.right hx').symm

/-- The graphs are the same up to numbers. -/
theorem relabeled (hcheck : b.check = .ok ()) (hcheck' : b'.check = .ok ()) (fp : Text) :
    (Graph.ofCode (b.lookup? fp) b.code).Relabeled ρ (.ofCode (b'.lookup? fp) b'.code) := by
  rw [h.ofCode_eq]
  exact Graph.relabeled_ofCode h.injective h.renumbered (nonneg_of_check hcheck) (nonneg_of_check hcheck')

theorem firstControl? : b'.firstControl? = b.firstControl? := by
  have hfirst : ∀ c : Block, c.firstControl? = ((c.code.map (·.op)).zipIdx.find? (·.1.control)).map fun p =>
      ⟨c.name, p.2, p.1⟩ := by
    intro c
    rw [Block.firstControl?, List.zipIdx_map, List.find?_map, Option.map_map]
    rfl
  have hops : b.code.map (·.op) = b'.code.map (·.op) :=
    map_eq_map_of_forall₂ (h.code.imp fun _ _ hi => hi.1.symm)
  rw [hfirst, hfirst, h.name, hops]

end Block.Matches

/-- Two errors of allocation that differ in the numbers of temps only; the list is what may
    go wrong with a text without a spiller. -/
inductive AllocationError.Alike (regs : RegisterFile) : AllocationError → AllocationError → Prop
  /-- there are no registers -/
  | emptyRegisterFile : Alike regs .emptyRegisterFile .emptyRegisterFile
  /-- there is control flow, at the same place -/
  | usage (u : UsageError) : Alike regs (.build (.usage u)) (.build (.usage u))
  /-- a register is listed twice -/
  | internal {e e' : InternalError} (hregs : ¬ regs.Nodup) : Alike regs (.internal e) (.internal e')
  /-- the block does not fit, for the same temps -/
  | spill (s : SpillRequired) (ρ : Temp → Temp) : Alike regs (.spill s) (.spill (s.renamed ρ))

/-- Two outcomes for a text: the same output, or errors that are alike for the same block. -/
inductive SameOutcome {α : Type} (regs : RegisterFile) :
    Except AllocateTextError α → Except AllocateTextError α → Prop
  | ok (out : α) : SameOutcome regs (.ok out) (.ok out)
  | error (block : Text) {e e' : AllocationError} (h : e.Alike regs e') :
      SameOutcome regs (.error (.allocate block e)) (.error (.allocate block e'))

theorem SameOutcome.map {α β : Type} {regs : RegisterFile} {r r' : Except AllocateTextError α}
    (h : SameOutcome regs r r') (f : α → β) : SameOutcome regs (r.map f) (r'.map f) := by
  cases h with
  | ok out => exact .ok (f out)
  | error block h => exact .error block h

theorem SameOutcome.eq_of_ok {α : Type} {regs : RegisterFile} {out : α} {r : Except AllocateTextError α}
    (h : SameOutcome regs (.ok out) r) : r = .ok out := by
  cases h
  rfl

section
variable {cfg : TextConfig} (hspill : cfg.spiller = none) (hlisting : cfg.listing = true)
include hspill hlisting

/-- **Blocks that match are allocated and printed alike.** -/
theorem Block.Matches.allocate {b b' : Block} (h : b.Matches ρ b') (hcheck : b.check = .ok ())
    (hcheck' : b'.check = .ok ()) :
    (∃ a a', (Straightline.allocate (cfg.forBlock b) b).result = .ok a ∧
      (Straightline.allocate (cfg.forBlock b') b').result = .ok a' ∧ cfg.render b' a' = cfg.render b a) ∨
    ∃ e e', (Straightline.allocate (cfg.forBlock b) b).result = .error e ∧
      (Straightline.allocate (cfg.forBlock b') b').result = .error e' ∧ e.Alike cfg.regs e' := by
  have hnone : ∀ c : Block, (cfg.forBlock c).spiller = none := fun _ => hspill
  by_cases hregs : cfg.regs = []
  · exact .inr ⟨_, _, allocate_of_no_registers hregs, allocate_of_no_registers hregs, .emptyRegisterFile⟩
  rcases hctl : b.firstControl? with _ | u
  · have hfree := firstControl_eq_none.1 hctl
    have hfree' := firstControl_eq_none.1 (h.firstControl?.trans hctl)
    have halike := (h.relabeled hcheck hcheck' cfg.fp).color cfg.regs
    rcases hc : (Graph.ofCode (b.lookup? cfg.fp) b.code).color cfg.regs with ⟨g, r⟩
    rcases hc' : (Graph.ofCode (b'.lookup? cfg.fp) b'.code).color cfg.regs with ⟨g', r'⟩
    rw [hc, hc'] at halike
    have hrun := allocate_of_color (hnone b) hregs hfree hcheck hc
    have hrun' := allocate_of_color (hnone b') hregs hfree' hcheck' hc'
    cases halike with
    | ok hm =>
      refine .inl ⟨_, _, hrun, hrun', ?_⟩
      rw [TextConfig.render, TextConfig.render, if_pos hlisting, if_pos hlisting]
      exact h.listing hm
    | internal =>
      refine .inr ⟨_, _, hrun, hrun', .internal fun hnodup => ?_⟩
      -- distinct registers are never refused by the check
      rcases allocate_ok_or_spill (hnone b) hregs hfree hcheck hnodup with ⟨a, ha⟩ | ⟨e, he⟩
      · cases hrun.symm.trans ha
      · cases hrun.symm.trans he
    | @spill s =>
      refine .inr ⟨_, _, hrun, hrun', ?_⟩
      rw [h.name]
      exact .spill { s with block := b.name } ρ
  · exact .inr ⟨_, _, allocate_of_control (hnone b) hregs hctl,
      allocate_of_control (hnone b') hregs (h.firstControl?.trans hctl), .usage u⟩

/-- So are lists of such blocks. -/
theorem sameOutcome_allocateBlocks {bs bs' : List LoweredBlock}
    (h : List.Forall₂ (fun b b' => ∃ ρ, b.block.Matches ρ b'.block) bs bs')
    (hcheck : ∀ b ∈ bs, b.block.check = .ok ()) (hcheck' : ∀ b ∈ bs', b.block.check = .ok ()) :
    SameOutcome cfg.regs (allocateBlocks cfg [] bs).result (allocateBlocks cfg [] bs').result := by
  have hnone := memoryless_of_none hspill
  induction h with
  | nil => exact .ok []
  | @cons b b' bs bs' head _ ih =>
    obtain ⟨ρ, hmatch⟩ := head
    obtain ⟨hb, hbs⟩ := List.forall_mem_cons.1 hcheck
    obtain ⟨hb', hbs'⟩ := List.forall_mem_cons.1 hcheck'
    rcases hmatch.allocate hspill hlisting hb hb' with ⟨a, a', ha, ha', hrender⟩ | ⟨e, e', he, he', halike⟩
    · rw [allocateBlocks_cons_ok hnone ha, allocateBlocks_cons_ok hnone ha', hrender]
      exact (ih hbs hbs').map _
    · rw [allocateBlocks_cons_error hnone he, allocateBlocks_cons_error hnone he', hmatch.name]
      exact .error _ halike

end

/-! ## Texts -/

variable {cfg : TextConfig} {name text : Text} {bs : List LoweredBlock}

/-- **Allocating what is printed of a text gives the same listing**, or an error of the same
    kind for the same block. -/
theorem allocateText_printBlocks (h : load name text = .ok bs) (hspill : cfg.spiller = none)
    (hlisting : cfg.listing = true) (name' : Text) :
    SameOutcome cfg.regs (allocateText cfg name text).result
      (allocateText cfg name' (CommandLine.printBlocks bs)).result := by
  obtain ⟨bs', hload, hreloaded⟩ := exists_reloaded h name'
  have hmatch := hreloaded.imp fun b b' hb => hb.exists_matches
  have hsame := sameOutcome_allocateBlocks hspill hlisting hmatch (check_of_load h) (check_of_load hload)
  simp only [allocateText, allocateTextAfter, h, hload]
  exact hsame.map _

/-- The frame pointer is named last. -/
def frameExitText : Text := utf8 "block a\n\tx = imm4 1\n\ty = add x x\nout y fp\n"

/-- What is printed of it: the frame pointer is named before `y`. -/
def frameExitPrinted : Text := utf8 "block a\n\tx = imm4 1\n\tlive x fp\n\ty = add x x\n\tlive y fp\n"

theorem allocateText_printBlocks_frameExit : ∃ bs out, load (utf8 "a.tac") frameExitText = .ok bs ∧
    CommandLine.printBlocks bs = frameExitPrinted ∧
    (allocateText twoRegisters (utf8 "a.tac") frameExitText).result = .ok out ∧
    (allocateText twoRegisters (utf8 "b.tac") frameExitPrinted).result = .ok out := by
  have hprint : (load (utf8 "a.tac") frameExitText).toOption.map CommandLine.printBlocks =
      some frameExitPrinted := by cbv
  have hout : (allocateText twoRegisters (utf8 "a.tac") frameExitText).result =
      .ok (utf8 "block a\n\tr0 = imm4 1\n\tr0 = add r0 r0\n") := by cbv
  obtain ⟨bs, hload, hprinted⟩ := exists_of_toOption_map hprint
  have hspill : twoRegisters.spiller = none := rfl
  have hsame := allocateText_printBlocks hload hspill rfl (utf8 "b.tac")
  rw [hprinted, hout] at hsame
  exact ⟨bs, _, hload, hprinted, hout, hsame.eq_of_ok⟩

end Straightline
