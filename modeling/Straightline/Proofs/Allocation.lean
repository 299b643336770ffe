/-
  Allocation without a spiller.

  There is one round: the interference graph of the block is built and colored.

  * `allocate_eq_once`: allocation is that round, if there is a register at all;
  * `allocate_ok`: what is known of a block that was allocated, and
    `allocate_colored`: so much is known with a spiller too;
  * `allocate_of_no_dense`, `allocate_of_dense`: allocation succeeds or asks for a
    spill as coloring does, and has no other outcome (`allocate_ok_or_spill`);
  * `allocateAfter_eq`: a block after others is allocated as a first one, by another
    spiller; by the same one if it is `Spiller.Memoryless`.
-/
import Straightline.Allocation
import Straightline.Proofs.Coloring
import Straightline.Proofs.Interference

namespace Straightline

variable {cfg : AllocatorConfig} {b : Block} {a : Allocation}

theorem allocateFrom_no_spiller (hspill : cfg.spiller = none) (left round : Nat)
    (requests : List SpillRequest) : allocateFrom cfg left round requests b =
      ⟨requests, allocateOnce cfg b round⟩ := by
  cases left with
  | zero => rfl
  | succ left =>
    rw [allocateFrom]
    split
    · rename_i h; rw [hspill] at h; cases h
    · rfl

theorem allocate_of_no_registers (hregs : cfg.regs = []) :
    (allocate cfg b).result = .error .emptyRegisterFile := by
  rw [allocate, allocateAfter, if_pos (by rw [hregs]; rfl)]

theorem allocate_eq_once (hspill : cfg.spiller = none) (hregs : cfg.regs ≠ []) :
    (allocate cfg b).result = allocateOnce cfg b 1 := by
  rw [allocate, allocateAfter, if_neg (by simpa using hregs), allocateFrom_no_spiller hspill]

theorem allocateOnce_ok {round : Nat} (h : allocateOnce cfg b round = .ok a) :
    b.hasControl = false ∧ b.check = .ok () ∧ a.block = b ∧
      ∃ g', (Graph.ofCode cfg.fp b.code).color cfg.regs = (g', .ok a.assignment) := by
  rw [allocateOnce] at h
  rcases hg : b.interference cfg.fp with e | g
  · rw [hg] at h; cases h
  obtain ⟨hctl, hcheck, rfl⟩ := Block.interference_ok_iff.1 hg
  refine ⟨hctl, hcheck, ?_⟩
  simp only [hg, Except.mapError, bind, Except.bind] at h
  rcases hc : (Graph.ofCode cfg.fp b.code).color cfg.regs with ⟨g', e | asg⟩
  · cases e <;> rw [hc] at h <;> cases h
  · rw [hc] at h; cases h
    exact ⟨rfl, g', rfl⟩

theorem allocate_ok (hspill : cfg.spiller = none) (h : (allocate cfg b).result = .ok a) :
    b.hasControl = false ∧ b.check = .ok () ∧ a.block = b ∧
      ∃ g', (Graph.ofCode cfg.fp b.code).color cfg.regs = (g', .ok a.assignment) := by
  by_cases hregs : cfg.regs = []
  · rw [allocate_of_no_registers hregs] at h
    cases h
  rw [allocate_eq_once hspill hregs] at h
  exact allocateOnce_ok h

/-- Whoever gave the last block, the last round colored it. -/
theorem allocateFrom_ok {left round : Nat} {requests : List SpillRequest}
    (h : (allocateFrom cfg left round requests b).result = .ok a) :
    ∃ b' round', allocateOnce cfg b' round' = .ok a := by
  induction left generalizing round requests b with
  | zero => exact ⟨b, round, h⟩
  | succ left ih =>
    rw [allocateFrom] at h
    split at h
    · split at h
      · cases h
      · exact ih h
    · exact ⟨b, round, h⟩

/-- The assignment colors the block that it comes with, also after spills. -/
theorem allocate_colored (h : (allocate cfg b).result = .ok a) :
    a.block.check = .ok () ∧
      ∃ g', (Graph.ofCode cfg.fp a.block.code).color cfg.regs = (g', .ok a.assignment) := by
  rw [allocate, allocateAfter] at h
  split at h
  · cases h
  obtain ⟨b', round, hlast⟩ := allocateFrom_ok h
  obtain ⟨-, hcheck, rfl, hcolor⟩ := allocateOnce_ok hlast
  exact ⟨hcheck, hcolor⟩

theorem allocate_of_control (hspill : cfg.spiller = none) (hregs : cfg.regs ≠ []) {u : UsageError}
    (hctl : b.firstControl? = some u) : (allocate cfg b).result = .error (.build (.usage u)) := by
  rw [allocate_eq_once hspill hregs, allocateOnce, Block.interference, hctl]
  rfl

section
variable (hspill : cfg.spiller = none) (hregs : cfg.regs ≠ []) (hctl : b.hasControl = false)
  (hcheck : b.check = .ok ())
include hspill hregs hctl hcheck

/-- Allocation of a block that has a graph ends as coloring does. -/
theorem allocate_of_color {g' : Graph} {r : Except ColoringError Assignment}
    (hc : (Graph.ofCode cfg.fp b.code).color cfg.regs = (g', r)) :
    (allocate cfg b).result = match r with
      | .ok asg => .ok ⟨b, asg, g', 1⟩
      | .error (.internal e) => .error (.internal e)
      | .error (.spill e) => .error (.spill { e with block := b.name }) := by
  rw [allocate_eq_once hspill hregs, allocateOnce, Block.interference_ok_iff.2 ⟨hctl, hcheck, rfl⟩]
  simp only [Except.mapError, bind, Except.bind, hc]
  rcases r with e | asg
  · cases e <;> rfl
  · rfl

theorem allocate_of_no_dense (hnodup : cfg.regs.Nodup) (h : ¬ ∃ S : Finset Temp, S.Nonempty ∧
    (Graph.ofCode cfg.fp b.code).Dense cfg.regs.length S) : ∃ a, (allocate cfg b).result = .ok a := by
  have hcode : ∀ i ∈ b.code, ∀ t ∈ i.temps, 0 ≤ t := Block.nonneg_of_check hcheck
  obtain ⟨g', asg, hc, -⟩ := Graph.color_of_no_dense (Graph.wellFormed_ofCode hcode)
    (fun t => Graph.hasNode_ofCode hcode) hnodup h
  exact ⟨_, allocate_of_color hspill hregs hctl hcheck hc⟩

theorem allocate_of_dense {S : Finset Temp} (hne : S.Nonempty)
    (hS : (Graph.ofCode cfg.fp b.code).Dense cfg.regs.length S) :
    ∃ e, (allocate cfg b).result = .error (.spill e) := by
  have hcode : ∀ i ∈ b.code, ∀ t ∈ i.temps, 0 ≤ t := Block.nonneg_of_check hcheck
  obtain ⟨g', e, -, hc⟩ := Graph.color_of_dense (Graph.wellFormed_ofCode hcode) hne hS
  exact ⟨_, allocate_of_color hspill hregs hctl hcheck hc⟩

/-- There is no other outcome. -/
theorem allocate_ok_or_spill (hnodup : cfg.regs.Nodup) :
    (∃ a, (allocate cfg b).result = .ok a) ∨ ∃ e, (allocate cfg b).result = .error (.spill e) := by
  by_cases h : ∃ S : Finset Temp, S.Nonempty ∧ (Graph.ofCode cfg.fp b.code).Dense cfg.regs.length S
  · obtain ⟨S, hne, hS⟩ := h
    exact Or.inr (allocate_of_dense hspill hregs hctl hcheck hne hS)
  · exact Or.inl (allocate_of_no_dense hspill hregs hctl hcheck hnodup h)

end

/-! ## Spillers that were asked before -/

/-- The settings with the spiller as it is after some requests. -/
def AllocatorConfig.after (cfg : AllocatorConfig) (earlier : List SpillRequest) : AllocatorConfig :=
  { cfg with spiller := cfg.spiller.map fun spiller requests => spiller (requests ++ earlier) }

theorem allocateFrom_append (left round : Nat) (requests earlier : List SpillRequest) :
    allocateFrom cfg left round (requests ++ earlier) b =
      ⟨(allocateFrom (cfg.after earlier) left round requests b).requests ++ earlier,
        (allocateFrom (cfg.after earlier) left round requests b).result⟩ := by
  induction left generalizing round requests b with
  | zero => rfl
  | succ left ih =>
    have hround : allocateOnce (cfg.after earlier) b round = allocateOnce cfg b round := rfl
    have hspiller : (cfg.after earlier).spiller = cfg.spiller.map fun s requests => s (requests ++ earlier) := rfl
    rw [allocateFrom, allocateFrom, hround, hspiller]
    rcases allocateOnce cfg b round with e | a
    · cases cfg.spiller with
      | none => cases e <;> rfl
      | some spiller =>
        cases e with
        | spill e =>
          dsimp only [Option.map_some]
          rcases spiller (requests ++ earlier) ⟨b, e⟩ with message | b'
          · rfl
          · exact ih (round + 1) (⟨b, e⟩ :: requests)
        | _ => rfl
    · cases cfg.spiller <;> rfl

/-- **A block after others is allocated as a first one**, by a spiller that takes the earlier
    requests into account. -/
theorem allocateAfter_eq (cfg : AllocatorConfig) (earlier : List SpillRequest) (b : Block) :
    allocateAfter cfg earlier b =
      ⟨(allocate (cfg.after earlier) b).requests ++ earlier, (allocate (cfg.after earlier) b).result⟩ := by
  have hregs : (cfg.after earlier).regs = cfg.regs := rfl
  rw [allocate, allocateAfter, allocateAfter, hregs]
  split
  · rfl
  · exact allocateFrom_append _ 1 [] earlier

/-- What the spiller answers does not depend on the requests made before. -/
def Spiller.Memoryless (spiller : Spiller) : Prop :=
  ∀ earlier r, spiller earlier r = spiller [] r

theorem memoryless_of_none {spiller? : Option Spiller} (h : spiller? = none) :
    ∀ spiller ∈ spiller?, spiller.Memoryless := by
  subst h
  intro spiller hs
  cases hs

theorem AllocatorConfig.after_eq (hspill : ∀ spiller ∈ cfg.spiller, spiller.Memoryless)
    (earlier : List SpillRequest) : cfg.after earlier = cfg := by
  have hsame : (cfg.spiller.map fun spiller requests => spiller (requests ++ earlier)) = cfg.spiller := by
    rcases hs : cfg.spiller with _ | spiller
    · rfl
    · refine congrArg some (funext fun requests => funext fun r => ?_)
      exact (hspill spiller hs _ r).trans (hspill spiller hs requests r).symm
  rw [after, hsame]

/-- Without a memory of the spiller, a block after others is allocated as if it were alone. -/
theorem result_allocateAfter (hspill : ∀ spiller ∈ cfg.spiller, spiller.Memoryless)
    (earlier : List SpillRequest) : (allocateAfter cfg earlier b).result = (allocate cfg b).result := by
  rw [allocateAfter_eq, AllocatorConfig.after_eq hspill]

end Straightline
