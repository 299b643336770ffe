/-
  Temps that are live together.

  Edges are made at definitions only.  Of two temps that are live at one point the
  one that was defined last finds the other one live, so they are adjacent.  Where
  both are live since the block was entered, and neither has been defined yet, there
  is no such definition, and nothing keeps their registers apart.

  * `ExactLiveness.defined_while_live`: the last definition before a point finds
    what is live at the point;
  * `live_together_distinct`: temps that are live at one point, and of which one was
    defined before it, have different registers;
  * `live_at_entry_share`: temps that are live at entry may share one.
-/
import Straightline.Proofs.Execution

namespace Straightline

section
variable {exit : List Temp} {code pre post : List Instr} {i : Instr} {t u : Temp}

/-- **The last definition of either temp before a point at which both are live** finds
    the other one live. -/
theorem ExactLiveness.defined_while_live (h : ExactLiveness exit (pre ++ post)) (ht : LiveIn exit post t)
    (hu : LiveIn exit post u) (hdef : ∃ i ∈ pre, t ∈ i.definitions ∨ u ∈ i.definitions) :
    ∃ i ∈ pre, Graph.DefinedWith i t u ∨ Graph.DefinedWith i u t := by
  induction pre with
  | nil => obtain ⟨i, hi, -⟩ := hdef; cases hi
  | cons i pre ih =>
    obtain ⟨hi, hrest⟩ := exactLiveness_cons.1 h
    by_cases hlater : ∃ j ∈ pre, t ∈ j.definitions ∨ u ∈ j.definitions
    · obtain ⟨j, hj, hwith⟩ := ih hrest hlater
      exact ⟨j, by simp [hj], hwith⟩
    · -- `i` is the last one, so both are live from it on up to the point
      push Not at hlater
      have hlt : i.liveOut.contains t = true := (hi t).2 (ht.append fun j hj => (hlater j hj).1)
      have hlu : i.liveOut.contains u = true := (hi u).2 (hu.append fun j hj => (hlater j hj).2)
      obtain ⟨j, hj, hdef⟩ := hdef
      rcases List.mem_cons.1 hj with rfl | hj
      · refine ⟨j, by simp, hdef.imp (fun h => ⟨?_, hlu⟩) fun h => ⟨?_, hlt⟩⟩
        · exact Instr.mem_definitions.1 h
        · exact Instr.mem_definitions.1 h
      · exact absurd hdef (not_or.2 (hlater j hj))

/-- Instructions that differ in their live-out sets can be cut at the same points. -/
theorem exists_cut {code' : List Instr} (h : code'.map Instr.bare = (pre ++ post).map Instr.bare) :
    ∃ pre' post', code' = pre' ++ post' ∧ pre'.map Instr.bare = pre.map Instr.bare ∧
      post'.map Instr.bare = post.map Instr.bare := by
  rw [List.map_append] at h
  exact List.map_eq_append_iff.1 h

/-- Live-out sets do not matter for what is defined. -/
theorem defines_congr {code' : List Instr} (h : code'.map Instr.bare = code.map Instr.bare)
    {p : List Temp → Prop} :
    (∃ i ∈ code', p i.definitions) ↔ ∃ i ∈ code, p i.definitions := by
  have hf : ∀ code : List Instr,
      (∃ i ∈ code.map Instr.bare, p i.definitions) = ∃ i ∈ code, p i.definitions := by
    intro code
    simp [Instr.definitions_bare]
  exact (Instr.congr_of_map_bare (fun code => ∃ i ∈ code, p i.definitions) hf h).to_iff

end

section
variable {b : Block} {exit : List Temp} {cfg : AllocatorConfig} {a : Allocation}

/-- **Temps that are live together have different registers**, if one of them was
    defined before.  Let the live-out sets of a checked block be computed from its
    exit, and let its registers be allocated.  Take a point of the block, its entry or
    behind an instruction, and two operands other than the frame pointer that are live
    there.  If an instruction before the point defines one of them, their registers
    differ.  A spiller may be asked, as long as the block is not changed by it. -/
theorem live_together_distinct (hcheck : b.check = .ok ()) (hctl : b.hasControl = false)
    (hexit : ∀ t ∈ exit, b.hasTemp t = true)
    (halloc : (allocate cfg (b.computeLiveness exit).1).result = .ok a) :
    (cfg.spiller = none → a.block = (b.computeLiveness exit).1) ∧
      (a.block = (b.computeLiveness exit).1 →
        ∀ pre post, b.code = pre ++ post → ∀ t u, t ≠ u → some t ≠ cfg.fp → some u ≠ cfg.fp →
          b.Uses t → b.Uses u → LiveIn exit post t → LiveIn exit post u →
            (∃ i ∈ pre, t ∈ i.definitions ∨ u ∈ i.definitions) →
              ∃ x ∈ cfg.regs, ∃ y ∈ cfg.regs,
                a.assignment.get? t = some x ∧ a.assignment.get? u = some y ∧ x ≠ y) := by
  refine ⟨fun hspill => (allocate_ok hspill halloc).2.2.1, ?_⟩
  intro hblock pre post hcut t u hne htfp hufp htused huused htlive hulive hdef
  obtain ⟨code, hfill, hbare, hexact⟩ := Block.computeLiveness_spec hcheck hctl hexit
  obtain ⟨hcheck', g', hcolor⟩ := allocate_colored halloc
  rw [hblock, hfill] at hcheck' hcolor
  have hcode : ∀ i ∈ code, ∀ t ∈ i.temps, 0 ≤ t := Block.nonneg_of_check hcheck'
  obtain ⟨hproper, hregs⟩ := Graph.color_ok_spec (Graph.wellFormed_ofCode hcode) hcolor
  have hkt : (Graph.ofCode cfg.fp code).known t = true :=
    (Graph.known_ofCode hcode).2 ⟨(uses_congr hbare).2 htused, htfp⟩
  have hku : (Graph.ofCode cfg.fp code).known u = true :=
    (Graph.known_ofCode hcode).2 ⟨(uses_congr hbare).2 huused, hufp⟩
  have hedge : (Graph.ofCode cfg.fp code).hasEdge t u = true := by
    rw [hcut] at hbare
    obtain ⟨pre', post', rfl, hpre, hpost⟩ := exists_cut hbare
    obtain ⟨i, hi, hwith⟩ := hexact.defined_while_live ((liveIn_congr hpost).2 htlive)
      ((liveIn_congr hpost).2 hulive) ((defines_congr (p := fun ds => t ∈ ds ∨ u ∈ ds) hpre).2 hdef)
    exact (Graph.hasEdge_ofCode hcode).2 ⟨hne, hkt, hku, i, List.mem_append_left _ hi, hwith⟩
  obtain ⟨x, hx⟩ := Option.isSome_iff_exists.1 (hproper.colored t hkt)
  obtain ⟨y, hy⟩ := Option.isSome_iff_exists.1 (hproper.colored u hku)
  refine ⟨x, hregs t x hx, y, hregs u y hy, hx, hy, ?_⟩
  rintro rfl
  exact hproper.distinct t u hedge (hx.trans hy.symm)

end

/-- `a` is live at entry and defined anew while `c` is live, so the two registers of
    the sample block hold one each. -/
theorem live_together_distinct_sample : ∃ a x y,
    (allocate sampleConfig (sampleBlock.computeLiveness [0]).1).result = .ok a ∧
      a.assignment.get? 0 = some x ∧ a.assignment.get? 2 = some y ∧ x ≠ y := by
  have hok : (allocate sampleConfig (sampleBlock.computeLiveness [0]).1).result.isOk = true := by cbv
  rcases ha : (allocate sampleConfig (sampleBlock.computeLiveness [0]).1).result with e | a
  · rw [ha] at hok; cases hok
  obtain ⟨hsame, hdistinct⟩ := live_together_distinct (by decide) (by decide) (by decide) ha
  obtain ⟨x, -, y, -, hx, hy, hne⟩ := hdistinct (hsame rfl) (sampleBlock.code.take 3)
    (sampleBlock.code.drop 3) rfl 0 2 (by decide) (by decide) (by decide)
    ⟨_, .tail _ (.head _), by decide⟩ ⟨_, .tail _ (.head _), by decide⟩
    (Or.inr ⟨by decide, by decide⟩)
    (Or.inl ⟨[_], _, [], rfl, by decide, by decide⟩) ⟨_, .tail _ (.tail _ (.head _)), by decide⟩
  exact ⟨a, x, y, rfl, hx, hy, hne⟩

/-- Two values are handed over that the block did not define. -/
def handoverBlock : Block :=
  ⟨utf8 "handover", [utf8 "a", utf8 "c"],
    [⟨.parm, ⟨some 0, none, none⟩, 0, [], ∅⟩, ⟨.parm, ⟨some 1, none, none⟩, 0, [], ∅⟩], none⟩

/-- Two registers, and no frame pointer. -/
def handoverConfig : AllocatorConfig :=
  ⟨[utf8 "r0", utf8 "r1"], none, none, 0⟩

/-- **Temps that are live at entry may share a register**, although there is another one:
    it is not true that operands that are live together always have different ones. -/
theorem live_at_entry_share : ¬ ∀ (b : Block) (exit : List Temp) (cfg : AllocatorConfig) (a : Allocation),
    b.check = .ok () → b.hasControl = false → (∀ t ∈ exit, b.hasTemp t = true) → cfg.spiller = none →
      (allocate cfg (b.computeLiveness exit).1).result = .ok a →
        ∀ pre post, b.code = pre ++ post → ∀ t u, t ≠ u → some t ≠ cfg.fp → some u ≠ cfg.fp →
          b.Uses t → b.Uses u → LiveIn exit post t → LiveIn exit post u →
            a.assignment.get? t ≠ a.assignment.get? u := by
  intro h
  have hshared : ((allocate handoverConfig (handoverBlock.computeLiveness []).1).result.map fun a =>
      decide (a.assignment.get? 0 = a.assignment.get? 1)) = .ok true := by cbv
  rcases ha : (allocate handoverConfig (handoverBlock.computeLiveness []).1).result with e | a
  · rw [ha] at hshared; cases hshared
  · rw [ha] at hshared
    refine h handoverBlock [] handoverConfig a (by decide) (by decide) (by simp) rfl ha [] _ rfl 0 1
      (by decide) (by decide) (by decide) ⟨_, .head _, by decide⟩ ⟨_, .tail _ (.head _), by decide⟩
      (Or.inl ⟨[], _, _, rfl, by decide, by simp⟩) (Or.inl ⟨[_], _, [], rfl, by decide, by decide⟩) ?_
    simpa [Except.map] using hshared

end Straightline
