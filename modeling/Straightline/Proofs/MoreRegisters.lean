/-
  More registers change nothing that fits.

  Simplification looks at the number of registers only to see whether it is stuck, and
  selection only to see whether a color is left.  A run in which neither happens is the
  same with more registers behind those there are, whatever their names.

  * `simplify_mono`, `selectColors_mono`: the nodes are removed in the same order and get
    the same colors;
  * `color_append`: so they get the same registers, and the check looks at nothing else;
  * `allocate_append_registers`: hence the allocation is the same.
-/
import Mathlib
import Straightline.Proofs.Allocation

namespace Straightline

theorem TempMap.mem_insertEntry {α : Type} {t : Temp} {a : α} {e : Temp × α} {es : List (Temp × α)}
    (h : e ∈ insertEntry t a es) : e = (t, a) ∨ e ∈ es := by
  induction es with
  | nil => exact Or.inl (List.mem_singleton.1 h)
  | cons d es ih =>
    rw [insertEntry] at h
    split at h
    · exact List.mem_cons.1 h
    split at h
    · exact (List.mem_cons.1 h).imp_right (List.mem_cons_of_mem d)
    · rcases List.mem_cons.1 h with rfl | h
      · exact Or.inr (List.mem_cons_self ..)
      · exact (ih h).imp_right (List.mem_cons_of_mem d)

namespace Graph

/-! ## Simplification -/

section
variable {queue : Queue} {k k' : Int} {left : Nat} {g g' : Graph} {q : queue.Carrier} {stack : List Temp}

/-- As long as it is not stuck, simplification takes the same nodes. -/
theorem simplifyFrom_mono (hk : k ≤ k') (h : simplifyFrom queue k left g q = (g', .ok stack)) :
    simplifyFrom queue k' left g q = (g', .ok stack) := by
  induction left generalizing g g' q stack with
  | zero => exact h
  | succ left ih =>
    rw [simplifyFrom] at h ⊢
    rcases hpop : g.popFresh? queue q with _ | ⟨c, q'⟩
    · rw [hpop] at h; cases h
    simp only [hpop] at h ⊢
    by_cases hc : k ≤ c.degree
    · rw [if_pos hc] at h; cases h
    have hc' : ¬ k' ≤ c.degree := fun hle => hc (hk.trans hle)
    rw [if_neg hc] at h
    rw [if_neg hc']
    rcases hrest : simplifyFrom queue k left (g.remove c.temp)
        ((g.remove c.temp).pushPresent queue q' ((g.remove c.temp).neighbors c.temp).keys) with ⟨g₁, e | rest⟩
    · rw [hrest] at h; cases h
    · rw [hrest] at h
      rw [ih hrest]; exact h

theorem simplify_mono (hk : k ≤ k') (h : g.simplify k = (g', .ok stack)) : g.simplify k' = (g', .ok stack) :=
  simplifyFrom_mono hk h

end

/-! ## Selection -/

section
variable {k k' : Nat} {g : Graph} {colors colors' : TempMap Nat} {stack : List Temp} {t : Temp}

theorem colorNode_mono (hk : k ≤ k') (h : g.colorNode k colors t = .ok colors') :
    g.colorNode k' colors t = .ok colors' := by
  obtain ⟨c, hc, rfl⟩ := colorNode_eq_ok_iff.1 h
  exact colorNode_eq_ok_iff.2 ⟨c, DenseSet.firstUnset_mono (Int.ofNat_le.2 hk) hc, rfl⟩

/-- As long as a color is left, every node gets the same one. -/
theorem selectColors_mono (hk : k ≤ k') (h : g.selectColors k stack = .ok colors) :
    g.selectColors k' stack = .ok colors := by
  induction stack generalizing colors with
  | nil => exact h
  | cons t stack ih =>
    obtain ⟨before, hbefore, hnode⟩ := selectColors_cons_eq_ok_iff.1 h
    exact selectColors_cons_eq_ok_iff.2 ⟨before, ih hbefore, colorNode_mono hk hnode⟩

theorem selectColors_lt (h : g.selectColors k stack = .ok colors) : ∀ e ∈ colors.entries, e.2 < k := by
  induction stack generalizing colors with
  | nil =>
    cases h
    simp [TempMap.empty]
  | cons t stack ih =>
    obtain ⟨before, hbefore, hnode⟩ := selectColors_cons_eq_ok_iff.1 h
    obtain ⟨c, hc, rfl⟩ := colorNode_eq_ok_iff.1 hnode
    intro e he
    rcases TempMap.mem_insertEntry he with rfl | he
    · obtain ⟨-, hlt, -⟩ := DenseSet.firstUnset_eq_iff.1 hc
      exact Int.ofNat_lt.1 hlt
    · exact ih hbefore e he

end

/-! ## Coloring -/

/-- **More registers change nothing** about a graph that has been colored. -/
theorem color_append {g g' : Graph} {regs : RegisterFile} {asg : Assignment}
    (h : g.color regs = (g', .ok asg)) (more : RegisterFile) : g.color (regs ++ more) = (g', .ok asg) := by
  obtain ⟨stack, colors, hrun, hsel, rfl, hv⟩ := color_eq_ok_iff.1 h
  have hlen : regs.length ≤ (regs ++ more).length := by simp
  -- every color is the place of a register in the first part of the file
  have hsame : (colors.map fun c => regs.getD c []) = colors.map fun c => (regs ++ more).getD c [] := by
    simp only [TempMap.map, TempMap.mk.injEq]
    refine List.map_congr_left fun e he => ?_
    have hlt := selectColors_lt hsel e he
    rw [List.getD_append _ _ _ _ hlt]
  exact color_eq_ok_iff.2 ⟨stack, colors, simplify_mono (Int.ofNat_le.2 hlen) hrun,
    selectColors_mono hlen hsel, hsame, hv⟩

end Graph

/-- **Registers behind those that are enough are never used**: with them, the allocation
    of a block is the same, down to the graph that is left of it. -/
theorem allocate_append_registers {cfg : AllocatorConfig} {b : Block} {a : Allocation}
    (hspill : cfg.spiller = none) (h : (allocate cfg b).result = .ok a) (more : RegisterFile) :
    (allocate { cfg with regs := cfg.regs ++ more } b).result = .ok a := by
  have hregs : cfg.regs ≠ [] := by
    intro hnil
    rw [allocate_of_no_registers hnil] at h
    cases h
  obtain ⟨hctl, hcheck, -, g', hcolor⟩ := allocate_ok hspill h
  rw [allocate_of_color hspill hregs hctl hcheck hcolor] at h
  let wider : AllocatorConfig := { cfg with regs := cfg.regs ++ more }
  have hspill' : wider.spiller = none := hspill
  have hregs' : wider.regs ≠ [] := List.append_ne_nil_of_left_ne_nil hregs more
  rw [← h]
  exact allocate_of_color hspill' hregs' hctl hcheck (Graph.color_append hcolor more)

/-- The sum of two constants, which are live together. -/
def pairBlock : Block :=
  ⟨utf8 "pair", [utf8 "a", utf8 "b", utf8 "c"],
    [⟨.imm4, ⟨some 0, none, none⟩, 1, [], Block.liveSet [0]⟩,
      ⟨.imm4, ⟨some 1, none, none⟩, 2, [], Block.liveSet [0, 1]⟩,
      ⟨.add, ⟨some 2, some 0, some 1⟩, 0, [], Block.liveSet [2]⟩], none⟩

/-- Two registers. -/
def pairConfig : AllocatorConfig :=
  ⟨[utf8 "r0", utf8 "r1"], none, none, 0⟩

/-- The registers behind may repeat those that are enough. -/
theorem allocate_append_registers_repeated : ∃ a, (allocate pairConfig pairBlock).result = .ok a ∧
    (allocate { pairConfig with regs := pairConfig.regs ++ [utf8 "r1", utf8 "r0"] } pairBlock).result =
      .ok a := by
  have hok : (allocate pairConfig pairBlock).result.isOk = true := by cbv
  rcases ha : (allocate pairConfig pairBlock).result with e | a
  · rw [ha] at hok; cases hok
  · exact ⟨a, rfl, allocate_append_registers rfl ha [utf8 "r1", utf8 "r0"]⟩

end Straightline
