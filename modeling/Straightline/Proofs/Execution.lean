/-
  Allocation preserves meaning.

  What an instruction computes is left open: an interpretation gives, from the op,
  the integer and the text of an instruction, the values it reads and the memory,
  a value for what it defines and the memory after it.  A block can then be run on
  its temps, or on registers with the frame pointer kept apart.

  * `run`: run instructions whose temps are kept in some places;
  * `Agrees`: the places hold the values of the temps that are still needed, and
    the memory is the same;
  * `Agrees.execute`, `Agrees.run`: one instruction and a whole run keep this, if
    no place is overwritten while another temp in it is needed;
  * `Graph.Proper.separates`: a proper assignment of registers overwrites none;
  * `allocate_preserves_run`: the block does the same on registers as on temps.
-/
import Straightline.Proofs.Allocation

namespace Straightline

/-! ## Runs -/

/-- What instructions compute: the op, the integer, the text, the values read in
    slot order and the memory give a value and a memory. -/
abbrev Interpretation (V M : Type) := Op → Int → Text → List V → M → V × M

/-- The values in some places, and the memory. -/
structure State (L V M : Type) where
  values : L → V
  memory : M

section
variable {L V M : Type} [DecidableEq L]

/-- Execute an instruction whose temps are kept in places. -/
def execute (I : Interpretation V M) (place : Temp → L) (s : State L V M) (i : Instr) : State L V M :=
  let result := I i.op i.imm i.label (i.reads.map fun t => s.values (place t)) s.memory
  match i.definition? with
  | none => ⟨s.values, result.2⟩
  | some d => ⟨Function.update s.values (place d) result.1, result.2⟩

/-- Execute instructions in order. -/
def run (I : Interpretation V M) (place : Temp → L) (code : List Instr) (s : State L V M) :
    State L V M :=
  code.foldl (execute I place) s

theorem execute_bare (I : Interpretation V M) (place : Temp → L) (s : State L V M) (i : Instr) :
    execute I place s i.bare = execute I place s i := rfl

/-- Live-out sets do not matter for what is computed. -/
theorem run_congr (I : Interpretation V M) (place : Temp → L) (s : State L V M) {code code' : List Instr}
    (h : code'.map Instr.bare = code.map Instr.bare) : run I place code' s = run I place code s := by
  have hf : ∀ code : List Instr, run I place (code.map Instr.bare) s = run I place code s := by
    intro code
    simp only [run, List.foldl_map, execute_bare]
  exact Instr.congr_of_map_bare (fun code => run I place code s) hf h

end

/-! ## Agreement -/

/-- The temp is the frame pointer, or it is live before the instructions and one of
    those that have a place. -/
def Needed (fp : Option Temp) (placed : Temp → Prop) (exit : List Temp) (code : List Instr) (t : Temp) :
    Prop :=
  some t = fp ∨ (placed t ∧ LiveIn exit code t)

/-- The places hold the values of the needed temps, and the memory is the same. -/
structure Agrees {L V M : Type} (place : Temp → L) (needed : Temp → Prop) (s : State Temp V M)
    (r : State L V M) : Prop where
  memory : r.memory = s.memory
  values : ∀ t, needed t → r.values (place t) = s.values t

/-- No instruction overwrites the place of another temp that is needed after it. -/
def Separates {L : Type} (place : Temp → L) (fp : Option Temp) (placed : Temp → Prop) (exit : List Temp)
    (code : List Instr) : Prop :=
  ∀ pre i post, code = pre ++ i :: post → ∀ d, i.definition? = some d →
    ∀ t, Needed fp placed exit post t → t ≠ d → place t ≠ place d

section
variable {L V M : Type} [DecidableEq L] {I : Interpretation V M} {place : Temp → L} {fp : Option Temp}
  {placed : Temp → Prop} {exit : List Temp} {i : Instr} {code rest : List Instr} {s : State Temp V M}
  {r : State L V M} {t : Temp}

theorem Needed.of_read (hp : placed t) (ht : t ∈ i.reads) : Needed fp placed exit (i :: rest) t :=
  Or.inr ⟨hp, liveIn_cons.2 (Or.inl ht)⟩

theorem Needed.cons (h : Needed fp placed exit rest t) (ht : i.definition? ≠ some t) :
    Needed fp placed exit (i :: rest) t :=
  h.imp_right fun ⟨hp, hlive⟩ =>
    ⟨hp, liveIn_cons.2 (Or.inr ⟨fun h => ht (Instr.mem_definitions.1 h), hlive⟩)⟩

/-- **One instruction keeps the agreement**: it reads equal values, so it computes
    the same, and what it overwrites is not needed any more. -/
theorem Agrees.execute (h : Agrees place (Needed fp placed exit (i :: rest)) s r)
    (hreads : ∀ t ∈ i.reads, placed t)
    (hsep : ∀ d, i.definition? = some d →
      ∀ t, Needed fp placed exit rest t → t ≠ d → place t ≠ place d) :
    Agrees place (Needed fp placed exit rest) (execute I id s i) (execute I place r i) := by
  have hvals : (i.reads.map fun t => r.values (place t)) = i.reads.map fun t => s.values (id t) := by
    refine List.map_congr_left fun t ht => ?_
    exact h.values t (.of_read (hreads t ht) ht)
  unfold Straightline.execute
  rw [hvals, h.memory]
  cases hd : i.definition? with
  | none =>
    refine ⟨rfl, fun t ht => ?_⟩
    exact h.values t (ht.cons (by simp [hd]))
  | some d =>
    refine ⟨rfl, fun t ht => ?_⟩
    by_cases htd : t = d
    · subst htd
      simp
    · -- another temp that is needed has its value in another place
      have hother : r.values (place t) = s.values t :=
        h.values t (ht.cons fun e => htd (Option.some.inj (e.symm.trans hd)))
      simpa [htd, hsep d hd t ht htd] using hother

/-- **A run keeps the agreement.** -/
theorem Agrees.run (h : Agrees place (Needed fp placed exit code) s r)
    (hreads : ∀ i ∈ code, ∀ t ∈ i.reads, placed t) (hsep : Separates place fp placed exit code) :
    Agrees place (Needed fp placed exit []) (run I id code s) (run I place code r) := by
  -- both states move on, and what is needed shrinks to what the rest needs
  induction code generalizing s r with
  | nil => exact h
  | cons i rest ih =>
    refine ih (h.execute (hreads i (by simp)) (hsep [] i rest rfl)) ?_ ?_
    · exact fun j hj => hreads j (by simp [hj])
    · intro pre j post e
      exact hsep (i :: pre) j post (by rw [e]; rfl)

end

/-! ## Registers -/

/-- Where a temp is kept after allocation. -/
inductive Place where
  /-- the location of the frame pointer -/
  | frame
  | register (r : Register)
  deriving DecidableEq

/-- The frame pointer has a location of its own, and all others are in the register
    they were assigned. -/
def placeOf (fp : Option Temp) (asg : Assignment) (t : Temp) : Place :=
  if some t = fp then .frame else .register ((asg.get? t).getD [])

/-- The block has an instruction with the temp as an operand. -/
def Block.Uses (b : Block) (t : Temp) : Prop :=
  ∃ i ∈ b.code, t ∈ i.temps

section
variable {fp : Option Temp} {asg : Assignment} {exit : List Temp} {t u : Temp}

theorem placeOf_ne (ht : some t ≠ fp) (hsome : (asg.get? t).isSome = true)
    (hsome' : (asg.get? u).isSome = true) (hne : asg.get? t ≠ asg.get? u) :
    placeOf fp asg t ≠ placeOf fp asg u := by
  obtain ⟨x, hx⟩ := Option.isSome_iff_exists.1 hsome
  obtain ⟨y, hy⟩ := Option.isSome_iff_exists.1 hsome'
  by_cases hu : some u = fp
  · simp [placeOf, ht, hu]
  · simp only [placeOf, if_neg ht, if_neg hu, hx, hy, Option.getD_some, ne_eq, Place.register.injEq]
    exact fun e => hne (by rw [hx, hy, e])

/-- **A proper assignment separates the temps**: what an instruction defines is
    adjacent to what is live after it. -/
theorem Graph.Proper.separates {code : List Instr} (hproper : (Graph.ofCode fp code).Proper asg)
    (hcode : ∀ i ∈ code, ∀ t ∈ i.temps, 0 ≤ t) (hexact : ExactLiveness exit code) :
    Separates (placeOf fp asg) fp (fun t => ∃ i ∈ code, t ∈ i.temps) exit code := by
  intro pre i post e d hd t hneeded hne
  have hi : i ∈ code := by simp [e]
  by_cases hdfp : some d = fp
  · have htfp : some t ≠ fp := fun h => hne (Option.some.inj (h.trans hdfp.symm))
    simp [placeOf, hdfp, htfp]
  by_cases htfp : some t = fp
  · simp [placeOf, hdfp, htfp]
  obtain ⟨hused, hlive⟩ := hneeded.resolve_left htfp
  have hkt : (Graph.ofCode fp code).known t = true := (Graph.known_ofCode hcode).2 ⟨hused, htfp⟩
  have hkd : (Graph.ofCode fp code).known d = true := Graph.known_of_definition hcode hi hd hdfp
  have hedge : (Graph.ofCode fp code).hasEdge t d = true := by
    refine (Graph.hasEdge_ofCode hcode).2 ⟨hne, hkt, hkd, i, hi, Or.inr ⟨hd, ?_⟩⟩
    exact (hexact pre i post e t).2 hlive
  exact placeOf_ne htfp (hproper.colored t hkt) (hproper.colored d hkd) (hproper.distinct t d hedge)

end

/-! ## Allocated blocks -/

section
variable {b : Block} {exit : List Temp} {cfg : AllocatorConfig} {a : Allocation}

/-- Live-out sets do not matter for what is used. -/
theorem uses_congr {code code' : List Instr} (h : code'.map Instr.bare = code.map Instr.bare) {t : Temp} :
    (∃ i ∈ code', t ∈ i.temps) ↔ ∃ i ∈ code, t ∈ i.temps := by
  have hf : ∀ code : List Instr, (∃ i ∈ code.map Instr.bare, t ∈ i.temps) = ∃ i ∈ code, t ∈ i.temps := by
    intro code
    simp [Instr.temps_bare]
  exact (Instr.congr_of_map_bare (fun code => ∃ i ∈ code, t ∈ i.temps) hf h).to_iff

/-- **Allocation preserves meaning.**  Let the live-out sets of a checked block be
    computed from its exit and its registers be allocated.  Whatever the
    instructions compute, from a register state that agrees with the temps on the
    memory, the frame pointer and the operands live at entry, the allocated block
    ends with the same memory, and with the same values for the exit. -/
theorem allocate_preserves_run {V M : Type} (hcheck : b.check = .ok ()) (hctl : b.hasControl = false)
    (hexit : ∀ t ∈ exit, b.hasTemp t = true) (hspill : cfg.spiller = none)
    (halloc : (allocate cfg (b.computeLiveness exit).1).result = .ok a)
    (I : Interpretation V M) (s : State Temp V M) (r : State Place V M)
    (h : Agrees (placeOf cfg.fp a.assignment) (Needed cfg.fp b.Uses exit b.code) s r) :
    (b.computeLiveness exit).2 = .ok () ∧
      (∀ t, b.Uses t → some t ≠ cfg.fp → ∃ x ∈ cfg.regs, a.assignment.get? t = some x) ∧
      (run I (placeOf cfg.fp a.assignment) a.block.code r).memory = (run I id b.code s).memory ∧
      ∀ t ∈ exit, some t = cfg.fp ∨ b.Uses t →
        (run I (placeOf cfg.fp a.assignment) a.block.code r).values (placeOf cfg.fp a.assignment t) =
          (run I id b.code s).values t := by
  obtain ⟨code, hfill, hbare, hexact⟩ := Block.computeLiveness_spec hcheck hctl hexit
  rw [hfill] at halloc ⊢
  obtain ⟨-, hcheck', hblock, g', hcolor⟩ := allocate_ok hspill halloc
  have hcode : ∀ i ∈ code, ∀ t ∈ i.temps, 0 ≤ t := Block.nonneg_of_check hcheck'
  obtain ⟨hproper, hregs⟩ := Graph.color_ok_spec (Graph.wellFormed_ofCode hcode) hcolor
  have huses : ∀ t, (∃ i ∈ code, t ∈ i.temps) ↔ b.Uses t := fun t => uses_congr hbare
  have hstart : Agrees (placeOf cfg.fp a.assignment)
      (Needed cfg.fp (fun t => ∃ i ∈ code, t ∈ i.temps) exit code) s r := by
    refine ⟨h.memory, fun t ht => h.values t (ht.imp_right fun ⟨hu, hlive⟩ => ?_)⟩
    exact ⟨(huses t).1 hu, (liveIn_congr hbare).1 hlive⟩
  have hend := hstart.run (I := I) (fun i hi t ht => ⟨i, hi, Instr.mem_temps_of_read ht⟩)
    (hproper.separates hcode hexact)
  rw [run_congr I id s hbare] at hend
  rw [hblock]
  refine ⟨rfl, fun t ht hfp => ?_, hend.memory, fun t ht hu => hend.values t ?_⟩
  · have hknown := (Graph.known_ofCode hcode).2 ⟨(huses t).2 ht, hfp⟩
    obtain ⟨x, hx⟩ := Option.isSome_iff_exists.1 (hproper.colored t hknown)
    exact ⟨x, hregs t x hx, hx⟩
  · exact hu.imp_right fun h => ⟨(huses t).2 h, liveIn_nil.2 ht⟩

end

/-- A block with a definition from the frame pointer, a temp that is live at entry and
    defined anew, and a call that defines nothing. -/
def sampleBlock : Block :=
  ⟨utf8 "sample", [utf8 "a", utf8 "b", utf8 "c", utf8 "f"],
    [⟨.load, ⟨some 1, some 3, none⟩, 8, [], ∅⟩, ⟨.add, ⟨some 2, some 0, some 1⟩, 0, [], ∅⟩,
      ⟨.mul, ⟨some 0, some 2, some 0⟩, 0, [], ∅⟩, ⟨.call, ⟨none, none, none⟩, 0, utf8 "g", ∅⟩,
      ⟨.store, ⟨some 2, some 3, none⟩, 8, [], ∅⟩], none⟩

/-- Two registers, with `f` as the frame pointer of the sample block. -/
def sampleConfig : AllocatorConfig :=
  ⟨[utf8 "r0", utf8 "r1"], some 3, none, 0⟩

/-- Count what was read, and add up numbers. -/
def sampleInterpretation : Interpretation Int Nat :=
  fun _ imm _ values memory => (values.foldl (· + ·) imm, memory + values.length)

/-- Only `a` and the frame pointer are live before the sample block. -/
theorem liveIn_sampleBlock {t : Temp} (h : LiveIn [0] sampleBlock.code t) : t = 0 ∨ t = 3 := by
  simp [sampleBlock, liveIn_cons, liveIn_nil, Instr.reads, Instr.definitions, Instr.operands,
    Instr.operandAt, Op.roles, Op.signature, Signature.binary, Role.reads, Role.defines] at h
  tauto

theorem allocate_preserves_run_sample : ∃ a,
    (allocate sampleConfig (sampleBlock.computeLiveness [0]).1).result = .ok a ∧
      (run sampleInterpretation (placeOf (some 3) a.assignment) a.block.code
        ⟨fun p => if p = .frame then 3 else 0, 0⟩).memory =
          (run sampleInterpretation id sampleBlock.code ⟨fun t => t, 0⟩).memory ∧
      (run sampleInterpretation (placeOf (some 3) a.assignment) a.block.code
        ⟨fun p => if p = .frame then 3 else 0, 0⟩).values (placeOf (some 3) a.assignment 0) =
          (run sampleInterpretation id sampleBlock.code ⟨fun t => t, 0⟩).values 0 := by
  have hok : (allocate sampleConfig (sampleBlock.computeLiveness [0]).1).result.isOk = true := by cbv
  rcases ha : (allocate sampleConfig (sampleBlock.computeLiveness [0]).1).result with e | a
  · rw [ha] at hok; cases hok
  have hstart : Agrees (placeOf (some 3) a.assignment) (Needed (some 3) sampleBlock.Uses [0] sampleBlock.code)
      (⟨fun t => t, 0⟩ : State Temp Int Nat) ⟨fun p => if p = .frame then 3 else 0, 0⟩ := by
    refine ⟨rfl, ?_⟩
    rintro t (hfp | ⟨-, ht⟩)
    · cases hfp; rfl
    · rcases liveIn_sampleBlock ht with rfl | rfl <;> rfl
  obtain ⟨-, -, hmem, hval⟩ := allocate_preserves_run (by decide) (by decide) (by decide) rfl ha
    sampleInterpretation _ _ hstart
  refine ⟨a, rfl, hmem, hval 0 (by decide) (Or.inr ?_)⟩
  exact ⟨_, .tail _ (.head _), by decide⟩

end Straightline
