/-
  The pressure is the exact demand for registers.

  If nothing but the frame pointer is live at entry, then the nodes that are live
  at one point are pairwise adjacent, so each of them needs a register of its own.
  If moreover every temp is defined once, then among any nodes the one that is
  defined last has only neighbours that are live with its definition.

  * `hasEdge_of_live_together`: what is live at one point is adjacent;
  * `Graph.Proper.pressure_le`: a proper assignment needs as many registers as the
    pressure says;
  * `SingleAssignment`: every temp other than the frame pointer is defined once;
  * `SingleAssignment.degreeIn_lt_pressure`: every non-empty set of nodes has one
    with fewer neighbours in the set than the pressure says;
  * `spill_iff_lt_pressure`: with single assignment, a block needs a spill iff
    there are fewer registers than the pressure says.
-/
import Straightline.Proofs.Allocation

namespace Straightline

/-! ## Temps that are live together -/

section
variable {fp : Option Temp} {exit : List Temp} {code pre post : List Instr} {i : Instr} {d t u : Temp}
  {asg : Assignment} {regs : RegisterFile}
  (hcode : ∀ i ∈ code, ∀ t ∈ i.temps, 0 ≤ t) (hexact : ExactLiveness exit code)
  (hentry : ∀ t, LiveIn exit code t → some t = fp)
include hcode hexact hentry

/-- **Nodes that are live at one point are adjacent**: the later one of their
    definitions finds the other one live. -/
theorem hasEdge_of_live_together (hsplit : code = pre ++ post)
    (hkt : (Graph.ofCode fp code).known t = true) (hku : (Graph.ofCode fp code).known u = true)
    (hne : t ≠ u) (ht : LiveIn exit post t) (hu : LiveIn exit post u) :
    (Graph.ofCode fp code).hasEdge t u = true := by
  have hnot : ¬ (LiveIn exit (pre ++ post) t ∧ LiveIn exit (pre ++ post) u) := by
    rw [← hsplit]
    exact fun h => ((Graph.known_ofCode hcode).1 hkt).2 (hentry t h.1)
  rw [hsplit] at hexact
  obtain ⟨j, hj, hdef⟩ := hexact.defined_together ht hu hnot
  simp only [Instr.mem_definitions] at hdef
  exact (Graph.hasEdge_ofCode hcode).2 ⟨hne, hkt, hku, j, by simp [hsplit, hj], hdef⟩

/-- What an instruction defines and the nodes live after it are pairwise adjacent. -/
theorem hasEdge_of_definition (hi : i ∈ code) (hd : i.definition? = some d) (hfp : some d ≠ fp)
    (ht : t ∈ d :: (Graph.ofCode fp code).liveNodes fp d i)
    (hu : u ∈ d :: (Graph.ofCode fp code).liveNodes fp d i) (hne : t ≠ u) :
    (Graph.ofCode fp code).hasEdge t u = true := by
  have hg : (Graph.ofCode fp code).WellFormed := Graph.wellFormed_ofCode hcode
  have hkd : (Graph.ofCode fp code).known d = true := Graph.known_of_definition hcode hi hd hfp
  have hdef : ∀ v ∈ (Graph.ofCode fp code).liveNodes fp d i,
      (Graph.ofCode fp code).hasEdge d v = true := by
    intro v hv
    obtain ⟨hlive, hvd, -, hkv⟩ := Graph.mem_liveNodes.1 hv
    exact (Graph.hasEdge_ofCode hcode).2 ⟨hvd.symm, hkd, hkv, i, hi, Or.inl ⟨hd, hlive⟩⟩
  rcases List.mem_cons.1 ht with rfl | ht
  · rcases List.mem_cons.1 hu with rfl | hu
    · exact absurd rfl hne
    · exact hdef u hu
  · rcases List.mem_cons.1 hu with rfl | hu
    · exact hg.symm u t (hdef t ht)
    · obtain ⟨hlt, -, -, hkt⟩ := Graph.mem_liveNodes.1 ht
      obtain ⟨hlu, -, -, hku⟩ := Graph.mem_liveNodes.1 hu
      obtain ⟨pre, post, rfl⟩ := List.append_of_mem hi
      have hsplit : pre ++ i :: post = (pre ++ [i]) ++ post := by simp
      exact hasEdge_of_live_together hcode hexact hentry hsplit hkt hku hne
        ((hexact pre i post rfl t).1 hlt) ((hexact pre i post rfl u).1 hlu)

/-- **A proper assignment uses as many registers as the pressure says.** -/
theorem Graph.Proper.pressure_le (h : (Graph.ofCode fp code).Proper asg)
    (hregs : ∀ t r, asg.get? t = some r → r ∈ regs) :
    (Graph.ofCode fp code).pressure ≤ regs.length := by
  rcases Graph.pressure_eq_demand hcode fp with hp | ⟨i, hi, hp⟩
  · rw [hp]; exact Int.natCast_nonneg _
  rw [hp, Int.ofNat_le]
  rcases Graph.withDefinition_cases (Graph.ofCode fp code) fp i with ⟨-, hzero, -⟩ | ⟨d, hd, hfp, -⟩
  · rw [hzero]; exact Nat.zero_le _
  rw [Graph.demand_of_definition hd hfp, ← List.length_cons (a := d)]
  set nodes := d :: (Graph.ofCode fp code).liveNodes fp d i
  have hknown : ∀ t ∈ nodes, (Graph.ofCode fp code).known t = true := by
    intro t ht
    rcases List.mem_cons.1 ht with rfl | ht
    · exact Graph.known_of_definition hcode hi hd hfp
    · exact (Graph.mem_liveNodes.1 ht).2.2.2
  -- the nodes and their registers, which all differ
  have hnodup : (nodes.map asg.get?).Nodup := by
    refine List.Nodup.map_on (fun t ht u hu e => ?_) ?_
    · by_contra hne
      exact h.distinct t u (hasEdge_of_definition hcode hexact hentry hi hd hfp ht hu hne) e
    · exact List.nodup_cons.2 ⟨fun hmem => (Graph.mem_liveNodes.1 hmem).2.1 rfl, Graph.nodup_liveNodes⟩
  have hsub : nodes.map asg.get? ⊆ regs.map some := by
    intro x hx
    obtain ⟨t, ht, rfl⟩ := List.mem_map.1 hx
    obtain ⟨r, hr⟩ := Option.isSome_iff_exists.1 (h.colored t (hknown t ht))
    rw [hr]
    exact List.mem_map_of_mem (hregs t r hr)
  simpa using (hnodup.subperm hsub).length_le

end

/-! ## Single assignment -/

/-- Every temp other than the frame pointer is defined by at most one instruction. -/
def SingleAssignment (fp : Option Temp) (code : List Instr) : Prop :=
  ∀ t, some t ≠ fp → (code.countP fun i => t ∈ i.definitions) ≤ 1

section
variable {fp : Option Temp} {exit : List Temp} {code code' pre post : List Instr} {i j : Instr}
  {d t : Temp} {S : Finset Temp}

theorem SingleAssignment.congr (h : SingleAssignment fp code)
    (hbare : code'.map Instr.bare = code.map Instr.bare) : SingleAssignment fp code' := by
  intro t ht
  have hf : ∀ code : List Instr, ((code.map Instr.bare).countP fun i => t ∈ i.definitions) =
      code.countP fun i => t ∈ i.definitions := by
    intro code
    rw [List.countP_map]; rfl
  rw [Instr.congr_of_map_bare (fun code => code.countP fun i => t ∈ i.definitions) hf hbare]
  exact h t ht

/-- The one instruction that defines a temp. -/
theorem SingleAssignment.not_defined (h : SingleAssignment fp (pre ++ i :: post)) (hfp : some t ≠ fp)
    (hi : t ∈ i.definitions) : (∀ j ∈ pre, t ∉ j.definitions) ∧ ∀ j ∈ post, t ∉ j.definitions := by
  have hcount := h t hfp
  rw [List.countP_append, List.countP_cons_of_pos (by simpa using hi)] at hcount
  have hpre : (pre.countP fun i => t ∈ i.definitions) = 0 := by omega
  have hpost : (post.countP fun i => t ∈ i.definitions) = 0 := by omega
  rw [List.countP_eq_zero] at hpre hpost
  exact ⟨fun j hj => by simpa using hpre j hj, fun j hj => by simpa using hpost j hj⟩

/-- The last instruction that defines one of some temps. -/
theorem exists_last_definition (h : ∃ j ∈ code, ∃ t ∈ S, t ∈ j.definitions) :
    ∃ pre i post, code = pre ++ i :: post ∧ (∃ t ∈ S, t ∈ i.definitions) ∧
      ∀ k ∈ post, ∀ t ∈ S, t ∉ k.definitions := by
  induction code with
  | nil => obtain ⟨j, hj, -⟩ := h; cases hj
  | cons i rest ih =>
    by_cases hlater : ∃ j ∈ rest, ∃ t ∈ S, t ∈ j.definitions
    · obtain ⟨pre, j, post, rfl, hdef, hlast⟩ := ih hlater
      exact ⟨i :: pre, j, post, rfl, hdef, hlast⟩
    · push Not at hlater
      obtain ⟨j, hj, t, ht, hdef⟩ := h
      rcases List.mem_cons.1 hj with rfl | hj
      · exact ⟨[], j, rest, rfl, ⟨t, ht, hdef⟩, hlater⟩
      · exact absurd hdef (hlater j hj t ht)

variable (hcode : ∀ i ∈ code, ∀ t ∈ i.temps, 0 ≤ t) (hexact : ExactLiveness exit code)
  (hentry : ∀ t, LiveIn exit code t → some t = fp) (hsingle : SingleAssignment fp code)
include hcode hexact hentry hsingle

/-- **The neighbours of what is defined last.**  If no temp of `S` is defined after
    `i` defines `d`, then the neighbours of `d` in `S` are live after `i`. -/
theorem SingleAssignment.mem_liveNodes (hsplit : code = pre ++ i :: post) (hd : i.definition? = some d)
    (hlast : ∀ k ∈ post, ∀ t ∈ S, t ∉ k.definitions) (ht : t ∈ S)
    (hedge : (Graph.ofCode fp code).hasEdge d t = true) :
    t ∈ (Graph.ofCode fp code).liveNodes fp d i := by
  obtain ⟨hne, hkd, hkt, j, hj, hdef⟩ := (Graph.hasEdge_ofCode hcode).1 hedge
  have hfpd := ((Graph.known_ofCode hcode).1 hkd).2
  have hfpt := ((Graph.known_ofCode hcode).1 hkt).2
  subst hsplit
  obtain ⟨hpre, hpost⟩ := hsingle.not_defined hfpd (Instr.mem_definitions.2 hd)
  have hlive : i.liveOut.contains t = true := by
    rcases hdef with ⟨hjd, hjlive⟩ | ⟨hjt, hjlive⟩
    · -- `d` has one definition, so it is `i` that finds `t` live
      rcases List.mem_append.1 hj with hj | hj
      · exact absurd (Instr.mem_definitions.2 hjd) (hpre j hj)
      rcases List.mem_cons.1 hj with rfl | hj
      · exact hjlive
      · exact absurd (Instr.mem_definitions.2 hjd) (hpost j hj)
    · rcases List.mem_append.1 hj with hj | hj
      · -- `d` would be live before its only definition, and so at entry
        exfalso
        obtain ⟨before, between, rfl⟩ := List.append_of_mem hj
        have hafter : LiveIn exit (between ++ i :: post) d :=
          (hexact before j (between ++ i :: post) (by simp) d).1 hjlive
        refine hfpd (hentry d ?_)
        rw [show before ++ j :: between ++ i :: post = (before ++ [j]) ++ (between ++ i :: post) by simp]
        refine hafter.append fun k hk => hpre k ?_
        rcases List.mem_append.1 hk with hk | hk
        · simp [hk]
        · simp [List.mem_singleton.1 hk]
      · rcases List.mem_cons.1 hj with rfl | hj
        · exact absurd (Option.some.inj (hd.symm.trans hjt)) hne
        · exact absurd (Instr.mem_definitions.2 hjt) (hlast j hj t ht)
  exact Graph.mem_liveNodes.2 ⟨hlive, hne.symm, hfpt, hkt⟩

/-- **Every non-empty set of nodes has one with few neighbours in it.** -/
theorem SingleAssignment.degreeIn_lt_pressure (hne : S.Nonempty)
    (hS : ∀ t ∈ S, (Graph.ofCode fp code).known t = true) :
    ∃ d ∈ S, ((Graph.ofCode fp code).degreeIn S d : Int) < (Graph.ofCode fp code).pressure := by
  have hdefined : ∃ j ∈ code, ∃ t ∈ S, t ∈ j.definitions := by
    obtain ⟨t, ht⟩ := hne
    obtain ⟨⟨i, hi, hmem⟩, hfp⟩ := (Graph.known_ofCode hcode).1 (hS t ht)
    rcases (liveIn_or_defined hi hmem : LiveIn exit code t ∨ _) with hlive | ⟨j, hj, hdef⟩
    · exact absurd (hentry t hlive) hfp
    · exact ⟨j, hj, t, ht, hdef⟩
  obtain ⟨pre, i, post, hsplit, ⟨d, hdS, hd⟩, hlast⟩ := exists_last_definition hdefined
  rw [Instr.mem_definitions] at hd
  refine ⟨d, hdS, ?_⟩
  have hfp := ((Graph.known_ofCode hcode).1 (hS d hdS)).2
  have hsub : (S.filter fun t => (Graph.ofCode fp code).hasEdge d t = true) ⊆
      ((Graph.ofCode fp code).liveNodes fp d i).toFinset := by
    intro t ht
    obtain ⟨htS, hedge⟩ := Finset.mem_filter.1 ht
    rw [List.mem_toFinset]
    exact SingleAssignment.mem_liveNodes hcode hexact hentry hsingle hsplit hd hlast htS hedge
  have hdegree : (Graph.ofCode fp code).degreeIn S d < (Graph.ofCode fp code).demand fp i := by
    rw [Graph.demand_of_definition hd hfp]
    exact Nat.lt_succ_of_le ((Finset.card_le_card hsub).trans (List.toFinset_card_le _))
  exact lt_of_lt_of_le (Int.ofNat_lt.2 hdegree) (Graph.demand_le_pressure hcode (by simp [hsplit]))

end

/-! ## The demand of a block -/

section
variable {b : Block} {exit : List Temp} {cfg : AllocatorConfig} (hspill : cfg.spiller = none)
  (hexact : ExactLiveness exit b.code) (hentry : ∀ t, LiveIn exit b.code t → some t = cfg.fp)
include hspill hexact hentry

theorem pressure_le_of_allocate {a : Allocation} (h : (allocate cfg b).result = .ok a) :
    (Graph.ofCode cfg.fp b.code).pressure ≤ cfg.regs.length := by
  obtain ⟨-, hcheck, -, g', hcolor⟩ := allocate_ok hspill h
  have hcode : ∀ i ∈ b.code, ∀ t ∈ i.temps, 0 ≤ t := Block.nonneg_of_check hcheck
  obtain ⟨hproper, hregs⟩ := Graph.color_ok_spec (Graph.wellFormed_ofCode hcode) hcolor
  exact hproper.pressure_le hcode hexact hentry hregs

theorem allocate_of_pressure_le (hregs : cfg.regs ≠ []) (hnodup : cfg.regs.Nodup)
    (hctl : b.hasControl = false) (hcheck : b.check = .ok ()) (hsingle : SingleAssignment cfg.fp b.code)
    (hle : (Graph.ofCode cfg.fp b.code).pressure ≤ cfg.regs.length) :
    ∃ a, (allocate cfg b).result = .ok a := by
  have hcode : ∀ i ∈ b.code, ∀ t ∈ i.temps, 0 ≤ t := Block.nonneg_of_check hcheck
  refine allocate_of_no_dense hspill hregs hctl hcheck hnodup ?_
  rintro ⟨S, hS, hdense⟩
  obtain ⟨d, hd, hlt⟩ := SingleAssignment.degreeIn_lt_pressure hcode hexact hentry hsingle hS
    fun t ht => Graph.known_of_hasNode (hdense t ht).1
  exact absurd (hdense d hd).2 (not_le.2 (lt_of_lt_of_le hlt hle))

end

/-- **The pressure is the exact demand for registers.**  Let the live-out sets of a
    checked block be computed from its exit, and let nothing but the frame pointer be
    live at entry.  A block that gets registers gets as many as the pressure of its
    graph says; and if every other temp is defined once, then it gets them as soon as
    the file has so many different ones, and asks for a spill exactly if not. -/
theorem spill_iff_lt_pressure (b : Block) (exit : List Temp) (cfg : AllocatorConfig)
    (hcheck : b.check = .ok ()) (hctl : b.hasControl = false)
    (hexit : ∀ t ∈ exit, b.hasTemp t = true) (hspill : cfg.spiller = none)
    (hentry : ∀ t, LiveIn exit b.code t → some t = cfg.fp) :
    (b.computeLiveness exit).2 = .ok () ∧
      ∃ g, (b.computeLiveness exit).1.interference cfg.fp = .ok g ∧
        ((∃ a, (allocate cfg (b.computeLiveness exit).1).result = .ok a) →
          g.pressure ≤ cfg.regs.length) ∧
        (SingleAssignment cfg.fp b.code → cfg.regs ≠ [] → cfg.regs.Nodup →
          (g.pressure ≤ cfg.regs.length →
            ∃ a, (allocate cfg (b.computeLiveness exit).1).result = .ok a) ∧
          ((∃ e, (allocate cfg (b.computeLiveness exit).1).result = .error (.spill e)) ↔
            cfg.regs.length < g.pressure)) := by
  obtain ⟨code, hfill, hbare, hexact⟩ := Block.computeLiveness_spec hcheck hctl hexit
  rw [← Block.check_congr hbare] at hcheck
  rw [← Block.hasControl_congr hbare] at hctl
  have hentry' : ∀ t, LiveIn exit code t → some t = cfg.fp :=
    fun t ht => hentry t ((liveIn_congr hbare).1 ht)
  have hneed : (∃ a, (allocate cfg { b with code }).result = .ok a) →
      (Graph.ofCode cfg.fp code).pressure ≤ cfg.regs.length :=
    fun ⟨a, ha⟩ => pressure_le_of_allocate hspill hexact hentry' ha
  rw [hfill]
  refine ⟨rfl, .ofCode cfg.fp code, Block.interference_ok_iff.2 ⟨hctl, hcheck, rfl⟩, hneed,
    fun hsingle hregs hnodup => ?_⟩
  have hfits : (Graph.ofCode cfg.fp code).pressure ≤ cfg.regs.length →
      ∃ a, (allocate cfg { b with code }).result = .ok a :=
    allocate_of_pressure_le hspill hexact hentry' hregs hnodup hctl hcheck (hsingle.congr hbare)
  refine ⟨hfits, ?_, fun hlt => ?_⟩
  · rintro ⟨e, he⟩
    by_contra hle
    obtain ⟨a, ha⟩ := hfits (not_lt.1 hle)
    rw [ha] at he; cases he
  · rcases allocate_ok_or_spill hspill hregs hctl hcheck hnodup with hok | hspilled
    · exact absurd (hneed hok) (not_le.2 hlt)
    · exact hspilled

/-- The sum of two loads through the frame pointer `f`. -/
def sumBlock : Block :=
  ⟨utf8 "sum", [utf8 "a", utf8 "b", utf8 "c", utf8 "f"],
    [⟨.load, ⟨some 0, some 3, none⟩, 0, [], ∅⟩, ⟨.load, ⟨some 1, some 3, none⟩, 8, [], ∅⟩,
      ⟨.add, ⟨some 2, some 0, some 1⟩, 0, [], ∅⟩, ⟨.store, ⟨some 2, some 3, none⟩, 0, [], ∅⟩], none⟩

/-- One register, with `f` as the frame pointer. -/
def sumConfig : AllocatorConfig :=
  ⟨[utf8 "r0"], some 3, none, 0⟩

theorem liveIn_sumBlock {t : Temp} (h : LiveIn [] sumBlock.code t) : t = 3 := by
  simp [sumBlock, liveIn_cons, liveIn_nil, Instr.reads, Instr.definitions, Instr.operands,
    Instr.operandAt, Op.roles, Op.signature, Signature.binary, Role.reads, Role.defines] at h
  tauto

theorem singleAssignment_sumBlock : SingleAssignment (some 3) sumBlock.code := by
  intro t _
  by_cases h₀ : t = 0
  · subst h₀; decide
  by_cases h₁ : t = 1
  · subst h₁; decide
  by_cases h₂ : t = 2
  · subst h₂; decide
  simp [sumBlock, Instr.definitions, Instr.operands, Instr.operandAt, Op.roles, Op.signature,
    Signature.binary, Role.defines, h₀, h₁, h₂]

/-- Two of the values are live at once, which is too much for one register. -/
theorem spill_iff_lt_pressure_sum :
    ∃ g, (sumBlock.computeLiveness []).1.interference (some 3) = .ok g ∧ g.pressure = 2 ∧
      ∃ e, (allocate sumConfig (sumBlock.computeLiveness []).1).result = .error (.spill e) := by
  obtain ⟨-, g, hg, -, hsingle⟩ := spill_iff_lt_pressure sumBlock [] sumConfig (by decide) (by decide)
    (by simp) rfl fun t ht => congrArg some (liveIn_sumBlock ht)
  have hpressure : ((sumBlock.computeLiveness []).1.interference (some 3)).map (·.pressure) = .ok 2 := by
    cbv
  have hp : g.pressure = 2 := by
    rw [show (sumBlock.computeLiveness []).1.interference (some 3) = .ok g from hg] at hpressure
    exact Except.ok.inj hpressure
  refine ⟨g, hg, hp, ((hsingle singleAssignment_sumBlock (by decide) (by decide)).2).2 ?_⟩
  rw [hp]; decide

end Straightline
