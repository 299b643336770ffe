/-
  The rounds of an allocation.

  A round that asks for a spill hands its block to the spiller, and the next round is
  made on the block that comes back.

  * `logged`: allocation that also notes the block of every round;
  * `HandedOver`: the block that the next round gets after some calls of the spiller;
  * `Begun`, `Begun.next`, `loggedFrom_ended`: what is known when a round begins, that one
    more round keeps it, and how the rounds can end;
  * `Graph.Simplifiable`, `Graph.simplifiable_iff`: what a block that fits means;
  * `allocate_rounds`: there are no more rounds than set, and what comes out belongs to the
    block of the last round.
-/
import Straightline.Proofs.Allocation

namespace Straightline

/-! ## Graphs that can be taken apart -/

namespace Graph

/-- The nodes can be taken away one by one, each having fewer than `k` neighbours among
    those that are left. -/
inductive TakenApart (g : Graph) (k : Int) : Finset Temp → Prop
  | empty : TakenApart g k ∅
  | take {S : Finset Temp} {t : Temp} : t ∈ S → (g.degreeIn S t : Int) < k →
      TakenApart g k (S.erase t) → TakenApart g k S

/-- The present nodes can be taken away one by one, each having fewer than `k` neighbours
    then. -/
def Simplifiable (g : Graph) (k : Int) : Prop :=
  g.TakenApart k g.present

section
variable {g g' : Graph} {k : Int} {S D : Finset Temp} {stack : List Temp}

theorem TakenApart.congr (h : g'.TakenApart k S) (he : ∀ t u, g'.hasEdge t u = g.hasEdge t u) :
    g.TakenApart k S := by
  induction h with
  | empty => exact .empty
  | take ht hk _ ih => exact .take ht (by rwa [degreeIn_congr (he _)] at hk) ih

theorem Peels.simplifiable (h : Peels k g stack g') (hg : g.WellFormed) (hempty : g'.present = ∅) :
    g.Simplifiable k := by
  induction h with
  | nil => rw [Simplifiable, hempty]; exact .empty
  | cons hleast hlt _ ih =>
    have hrest := ih (hg.remove _) hempty
    rw [Simplifiable, present_remove] at hrest
    rw [hg.degree _ hleast.present] at hlt
    exact .take (mem_present.2 hleast.present) hlt (hrest.congr fun _ _ => hasEdge_remove)

theorem TakenApart.not_dense (h : g.TakenApart k S) (hsub : D ⊆ S) (hne : D.Nonempty) :
    ¬ g.Dense k D := by
  -- the first member of `D` to go has all of `D` around it still
  intro hD
  induction h with
  | empty => exact hne.ne_empty (Finset.subset_empty.1 hsub)
  | @take S t _ hk _ ih =>
    by_cases ht : t ∈ D
    · have hdeg : g.degreeIn D t ≤ g.degreeIn S t := degreeIn_mono hsub
      have := (hD t ht).2
      omega
    · exact ih (Finset.subset_erase.2 ⟨hsub, ht⟩)

theorem simplifiable_iff (hg : g.WellFormed) :
    g.Simplifiable k ↔ ¬ ∃ S : Finset Temp, S.Nonempty ∧ g.Dense k S := by
  constructor
  · rintro h ⟨S, hne, hS⟩
    exact h.not_dense hS.subset_present hne hS
  · intro h
    obtain ⟨stack, g', hp, hempty, -⟩ := simplify_of_no_dense hg h
    exact hp.simplifiable hg hempty

/-- Coloring asks for a spill only if the graph cannot be taken apart. -/
theorem not_simplifiable_of_spill {regs : RegisterFile} {s : SpillRequired} (hg : g.WellFormed)
    (h : (g.color regs).2 = .error (.spill s)) : ¬ g.Simplifiable regs.length := by
  rw [simplifiable_iff hg]
  intro hnone
  obtain ⟨stack, g', hp, hempty, hrun⟩ := simplify_of_no_dense hg hnone
  obtain ⟨colors, -, hcolor⟩ := color_of_simplified hg hp hempty hrun
  rw [hcolor] at h
  rcases hv : g'.verify (colors.map fun c => regs.getD c []) with e | u
  · rw [hv] at h; cases h
  · rw [hv] at h; cases h

end

end Graph

/-! ## One round -/

section
variable {cfg : AllocatorConfig} {b : Block} {round : Nat} {a : Allocation} {e : SpillRequired}

theorem rounds_of_allocateOnce (h : allocateOnce cfg b round = .ok a) : a.rounds = round := by
  obtain ⟨hctl, hcheck, rfl, g', hc⟩ := allocateOnce_ok h
  rw [allocateOnce, Block.interference_ok_iff.2 ⟨hctl, hcheck, rfl⟩] at h
  simp only [Except.mapError, bind, Except.bind, hc] at h
  injection h with h
  rw [← h]

/-- An assignment of registers of the file to exactly the temps of the block that are not
    the frame pointer, with different ones at the ends of every edge. -/
theorem coloring_of_allocateOnce (h : allocateOnce cfg b round = .ok a) :
    ∃ g, b.interference cfg.fp = .ok g ∧
      (∀ t, (a.assignment.get? t).isSome = true ↔ (∃ i ∈ b.code, t ∈ i.temps) ∧ some t ≠ cfg.fp) ∧
      (∀ t r, a.assignment.get? t = some r → r ∈ cfg.regs) ∧
      ∀ t u, g.hasEdge t u = true → a.assignment.get? t ≠ a.assignment.get? u := by
  obtain ⟨hctl, hcheck, -, g', hc⟩ := allocateOnce_ok h
  have hcode : ∀ i ∈ b.code, ∀ t ∈ i.temps, 0 ≤ t := Block.nonneg_of_check hcheck
  have hcol := Graph.color_ok_coloring (Graph.wellFormed_ofCode hcode)
    (fun t => Graph.hasNode_ofCode hcode) hc
  refine ⟨_, Block.interference_ok_iff.2 ⟨hctl, hcheck, rfl⟩, fun t => ?_, hcol.registers, hcol.distinct⟩
  rw [hcol.domain, ← Graph.known_iff_mem, Graph.known_ofCode hcode]

theorem spill_of_allocateOnce (h : allocateOnce cfg b round = .error (.spill e)) :
    ∃ g s, b.interference cfg.fp = .ok g ∧ (g.color cfg.regs).2 = .error (.spill s) ∧
      e = { s with block := b.name } ∧ ¬ g.Simplifiable cfg.regs.length := by
  rw [allocateOnce] at h
  rcases hg : b.interference cfg.fp with x | g
  · rw [hg] at h; cases h
  obtain ⟨-, hcheck, rfl⟩ := Block.interference_ok_iff.1 hg
  have hwf : (Graph.ofCode cfg.fp b.code).WellFormed :=
    Graph.wellFormed_ofCode (Block.nonneg_of_check hcheck)
  simp only [hg, Except.mapError, bind, Except.bind] at h
  rcases hc : (Graph.ofCode cfg.fp b.code).color cfg.regs with ⟨g', x | asg⟩
  · rw [hc] at h
    cases x with
    | internal x => cases h
    | spill s =>
      cases h
      have hspill : ((Graph.ofCode cfg.fp b.code).color cfg.regs).2 = .error (.spill s) := by rw [hc]
      exact ⟨_, s, rfl, hspill, rfl, Graph.not_simplifiable_of_spill hwf hspill⟩
  · rw [hc] at h; cases h

end

/-! ## The rounds -/

/-- A run with the blocks that its rounds built and colored, the latest first. -/
structure RunLog where
  blocks : List Block
  run : AllocationRun

/-- The rounds that `allocateFrom` makes, noted one by one. -/
def loggedFrom (cfg : AllocatorConfig) :
    (left round : Nat) → List SpillRequest → List Block → Block → RunLog
  | 0, round, requests, blocks, b => ⟨b :: blocks, requests, allocateOnce cfg b round⟩
  | left + 1, round, requests, blocks, b =>
    match allocateOnce cfg b round, cfg.spiller with
    | .error (.spill e), some spiller =>
      match spiller requests ⟨b, e⟩ with
      | .error message => ⟨b :: blocks, ⟨b, e⟩ :: requests, .error (.spiller round message)⟩
      | .ok b' => loggedFrom cfg left (round + 1) (⟨b, e⟩ :: requests) (b :: blocks) b'
    | result, _ => ⟨b :: blocks, requests, result⟩

/-- Allocation that notes the block of every round. -/
def logged (cfg : AllocatorConfig) (b : Block) : RunLog :=
  if cfg.regs.isEmpty then ⟨[], [], .error .emptyRegisterFile⟩
  else loggedFrom cfg (cfg.rounds - 1) 1 [] [] b

/-- The block that the next round gets after some calls of the spiller, the latest first:
    the given one, or what the last call returned. -/
def HandedOver (cfg : AllocatorConfig) (b : Block) : List SpillRequest → Block → Prop
  | [], b' => b' = b
  | r :: earlier, b' => ∃ spiller, cfg.spiller = some spiller ∧ spiller earlier r = .ok b'

section
variable {cfg : AllocatorConfig} {b₀ b b' : Block} {requests : List SpillRequest}

theorem run_loggedFrom (left round : Nat) (blocks : List Block) :
    (loggedFrom cfg left round requests blocks b).run = allocateFrom cfg left round requests b := by
  induction left generalizing round requests blocks b with
  | zero => rfl
  | succ left ih =>
    rw [loggedFrom, allocateFrom]
    rcases allocateOnce cfg b round with e | a
    · cases cfg.spiller with
      | none => cases e <;> rfl
      | some spiller =>
        cases e with
        | spill e =>
          dsimp only
          rcases spiller requests ⟨b, e⟩ with message | b'
          · rfl
          · exact ih ..
        | _ => rfl
    · cases cfg.spiller <;> rfl

theorem run_logged : (logged cfg b).run = allocate cfg b := by
  rw [logged, allocate, allocateAfter]
  split
  · rfl
  · exact run_loggedFrom ..

theorem HandedOver.no_spiller (h : HandedOver cfg b₀ requests b) (hspill : cfg.spiller = none) :
    requests = [] := by
  cases requests with
  | nil => rfl
  | cons r earlier =>
    obtain ⟨spiller, hs, -⟩ := h
    rw [hspill] at hs; cases hs

/-- What is known when a round begins on a block: every call got the block that was handed
    over by the calls before it, and so did this round. -/
structure Begun (cfg : AllocatorConfig) (b₀ : Block) (requests : List SpillRequest) (b : Block) :
    Prop where
  calls : ∀ later r earlier, requests = later ++ r :: earlier → HandedOver cfg b₀ earlier r.block
  block : HandedOver cfg b₀ requests b

theorem begun_start : Begun cfg b₀ [] b₀ :=
  ⟨fun later r earlier h => by simp at h, rfl⟩

/-- The call that a round makes gets the block of the round. -/
theorem Begun.call (h : Begun cfg b₀ requests b) (e : SpillRequired) (later : List SpillRequest)
    (r : SpillRequest) (earlier : List SpillRequest) (hr : ⟨b, e⟩ :: requests = later ++ r :: earlier) :
    HandedOver cfg b₀ earlier r.block := by
  cases later with
  | nil => cases hr; exact h.block
  | cons r' later =>
    cases hr
    exact h.calls later r earlier rfl

theorem Begun.next {spiller : Spiller} {e : SpillRequired} (h : Begun cfg b₀ requests b)
    (hs : cfg.spiller = some spiller) (hb : spiller requests ⟨b, e⟩ = .ok b') :
    Begun cfg b₀ (⟨b, e⟩ :: requests) b' :=
  ⟨h.call e, spiller, hs, hb⟩

/-- The ways in which at most `most` rounds can end: in a round, or because the spiller
    gives up. -/
inductive Ended (cfg : AllocatorConfig) (b₀ : Block) (most : Nat) : RunLog → Prop
  | noRegisters : Ended cfg b₀ most ⟨[], [], .error .emptyRegisterFile⟩
  | round {requests : List SpillRequest} {b : Block} : Begun cfg b₀ requests b → requests.length + 1 ≤ most →
      (∀ e, allocateOnce cfg b (requests.length + 1) = .error (.spill e) →
        cfg.spiller = none ∨ requests.length + 1 = most) →
      Ended cfg b₀ most
        ⟨b :: requests.map (·.block), requests, allocateOnce cfg b (requests.length + 1)⟩
  | gaveUp {requests : List SpillRequest} {b : Block} {e : SpillRequired} {message : Text} :
      Begun cfg b₀ requests b → requests.length + 1 < most → cfg.spiller ≠ none → Ended cfg b₀ most
        ⟨b :: requests.map (·.block), ⟨b, e⟩ :: requests, .error (.spiller (requests.length + 1) message)⟩

theorem loggedFrom_ended (left : Nat) (h : Begun cfg b₀ requests b) :
    Ended cfg b₀ (requests.length + 1 + left)
      (loggedFrom cfg left (requests.length + 1) requests (requests.map (·.block)) b) := by
  induction left generalizing requests b with
  | zero => exact .round h le_rfl fun _ _ => Or.inr rfl
  | succ left ih =>
    rw [loggedFrom]
    split
    · rename_i e spiller _ hs
      split
      · exact .gaveUp h (by omega) (by simp [hs])
      · rename_i b' hb
        have hnext := ih (h.next hs hb)
        rw [List.length_cons, List.map_cons] at hnext
        rwa [show requests.length + 1 + (left + 1) = requests.length + 1 + 1 + left by omega]
    · rename_i hno
      refine .round h (by omega) fun e he => Or.inl ?_
      rcases hs : cfg.spiller with _ | spiller
      · rfl
      · exact (hno e spiller he hs).elim

theorem AllocatorConfig.rounds_pos (cfg : AllocatorConfig) : 0 < cfg.rounds := by
  rw [AllocatorConfig.rounds]
  split
  · omega
  · exact Nat.succ_pos _

theorem logged_ended (cfg : AllocatorConfig) (b : Block) : Ended cfg b cfg.rounds (logged cfg b) := by
  rw [logged]
  split
  · exact .noRegisters
  · have h : Ended cfg b (1 + (cfg.rounds - 1)) (loggedFrom cfg (cfg.rounds - 1) 1 [] [] b) :=
      loggedFrom_ended (cfg.rounds - 1) begun_start
    rwa [Nat.add_sub_cancel' cfg.rounds_pos] at h

namespace Ended

variable {most : Nat} {log : RunLog} (h : Ended cfg b₀ most log)
include h

theorem bounded : log.blocks.length ≤ most ∧ log.run.requests.length ≤ most - 1 := by
  cases h with
  | noRegisters => exact ⟨Nat.zero_le _, Nat.zero_le _⟩
  | round _ hmost _ =>
    simp only [List.length_cons, List.length_map]
    omega
  | gaveUp _ hmost _ =>
    simp only [List.length_cons, List.length_map]
    omega

theorem no_spiller (hspill : cfg.spiller = none) : log.blocks.length ≤ 1 ∧ log.run.requests = [] := by
  cases h with
  | noRegisters => exact ⟨Nat.zero_le _, rfl⟩
  | round hb _ _ =>
    obtain rfl := hb.block.no_spiller hspill
    exact ⟨le_rfl, rfl⟩
  | gaveUp _ _ hs => exact absurd hspill hs

theorem calls (later : List SpillRequest) (r : SpillRequest) (earlier : List SpillRequest)
    (hr : log.run.requests = later ++ r :: earlier) : HandedOver cfg b₀ earlier r.block := by
  cases h with
  | noRegisters => simp at hr
  | round hb _ _ => exact hb.calls later r earlier hr
  | gaveUp hb _ _ => exact hb.call _ later r earlier hr

theorem last_of_ok {a : Allocation} (ha : log.run.result = .ok a) :
    HandedOver cfg b₀ log.run.requests a.block ∧ log.blocks.head? = some a.block ∧
      allocateOnce cfg a.block (log.run.requests.length + 1) = .ok a := by
  cases h with
  | noRegisters => cases ha
  | round hb _ _ =>
    obtain ⟨-, -, rfl, -⟩ := allocateOnce_ok ha
    exact ⟨hb.block, rfl, ha⟩
  | gaveUp _ _ _ => cases ha

theorem last_of_spill {e : SpillRequired} (he : log.run.result = .error (.spill e)) :
    ∃ last round, log.blocks.head? = some last ∧ allocateOnce cfg last round = .error (.spill e) ∧
      (cfg.spiller = none ∨ log.blocks.length = most) := by
  cases h with
  | noRegisters => cases he
  | round _ _ hend =>
    refine ⟨_, _, rfl, he, ?_⟩
    rw [List.length_cons, List.length_map]
    exact hend e he
  | gaveUp _ _ _ => cases he

end Ended

/-- **The rounds are bounded, and what comes out belongs to the last block.** There are at most
    as many rounds as set, with one call of the spiller less, and one round without a
    spiller; every call gets what was handed over by the calls before it.  A success comes
    with the block that was handed over last, and colors it.  The request of a round for a
    spill comes out only if its block cannot be simplified and there is no spiller or no
    round left. -/
theorem allocate_rounds (cfg : AllocatorConfig) (b : Block) :
    let most := if 0 < cfg.maxRounds then cfg.maxRounds.toNat else 4
    let run := allocate cfg b
    let blocks := (logged cfg b).blocks
    (logged cfg b).run = run ∧
    (blocks.length ≤ most ∧ run.requests.length ≤ most - 1 ∧
      (cfg.spiller = none → blocks.length ≤ 1 ∧ run.requests = [])) ∧
    (∀ later r earlier, run.requests = later ++ r :: earlier → HandedOver cfg b earlier r.block) ∧
    (∀ a, run.result = .ok a →
      HandedOver cfg b run.requests a.block ∧ blocks.head? = some a.block ∧
      a.rounds = run.requests.length + 1 ∧
      ∃ g, a.block.interference cfg.fp = .ok g ∧
        (∀ t, (a.assignment.get? t).isSome = true ↔
          (∃ i ∈ a.block.code, t ∈ i.temps) ∧ some t ≠ cfg.fp) ∧
        (∀ t r, a.assignment.get? t = some r → r ∈ cfg.regs) ∧
        ∀ t u, g.hasEdge t u = true → a.assignment.get? t ≠ a.assignment.get? u) ∧
    ∀ e, run.result = .error (.spill e) → ∃ last, blocks.head? = some last ∧
      (∃ g s, last.interference cfg.fp = .ok g ∧ (g.color cfg.regs).2 = .error (.spill s) ∧
        e = { s with block := last.name } ∧ ¬ g.Simplifiable cfg.regs.length) ∧
      (cfg.spiller = none ∨ blocks.length = most) := by
  intro most run blocks
  have hrun : (logged cfg b).run = run := run_logged
  have hended : Ended cfg b most (logged cfg b) := logged_ended cfg b
  rw [← hrun]
  refine ⟨rfl, ⟨hended.bounded.1, hended.bounded.2, hended.no_spiller⟩, hended.calls, ?_, ?_⟩
  · intro a ha
    obtain ⟨hover, hlast, honce⟩ := hended.last_of_ok ha
    exact ⟨hover, hlast, rounds_of_allocateOnce honce, coloring_of_allocateOnce honce⟩
  · intro e he
    obtain ⟨last, round, hlast, honce, hend⟩ := hended.last_of_spill he
    exact ⟨last, hlast, spill_of_allocateOnce honce, hend⟩

end

end Straightline
