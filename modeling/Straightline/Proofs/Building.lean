/-
  Building gives exactly the interference graph.

  `Graph.IsInterference` says which graph belongs to some instructions, without
  building it: by its nodes in order, by who is adjacent, and by its pressure.

  * `temps_ofCode_eq`: the nodes stand in the order of their first occurrence;
  * `pressure_ofCode_eq`: the pressure is the largest of the `demands`;
  * `isInterference_ofCode`: what is built from instructions without negative temps
    is their interference graph;
  * `Block.interference_exact`: a block with control flow has none, nor has one that
    does not fit the op table, in this order; every other block gets its graph, and
    no call on the way ends with a fault.
-/
import Mathlib
import Straightline.Proofs.Errors
import Straightline.Proofs.Renumbering

namespace Straightline

namespace Graph

/-- For every definition of a temp other than the frame pointer, the number of nodes
    that are that temp or live after it. -/
def demands (g : Graph) (fp : Option Temp) (code : List Instr) : List Nat :=
  code.flatMap fun i => (i.definitions.filter fun d => some d ≠ fp).map fun d =>
    g.temps.countP fun t => t = d || i.liveOut.contains t

/-- The graph is the interference graph of the instructions. -/
structure IsInterference (g : Graph) (fp : Option Temp) (code : List Instr) : Prop where
  /-- The nodes are the temps of the instructions other than the frame pointer, each
      once, in the order of their first occurrence. -/
  temps : g.temps = ((code.flatMap Instr.temps).filter fun t => some t ≠ fp).eraseDups
  /-- All of them are present. -/
  hasNode : ∀ t, g.hasNode t = true ↔ t ∈ g.temps
  /-- Two nodes are adjacent iff they differ and some instruction defines one of them
      and has the other one live after it. -/
  hasEdge : ∀ a b, g.hasEdge a b = true ↔ a ≠ b ∧ a ∈ g.temps ∧ b ∈ g.temps ∧ ∃ i ∈ code,
    (a ∈ i.definitions ∧ i.liveOut.contains b = true) ∨ (b ∈ i.definitions ∧ i.liveOut.contains a = true)
  /-- Each node knows the number of its neighbours. -/
  degree : ∀ t ∈ g.temps, g.degree t = g.temps.countP fun u => g.hasEdge t u
  /-- The pressure is the largest demand, or zero if there is none. -/
  pressure : g.pressure = (g.demands fp code).max?.getD 0

section
variable {g : Graph} {fp : Option Temp} {code : List Instr} {i : Instr} {d : Temp} {n : Nat}

/-! ## Nodes -/

theorem foldl_withOperands : code.foldl (withOperands fp) g =
    ((code.flatMap Instr.temps).filter fun t => some t ≠ fp).foldl withNode g := by
  rw [List.foldl_filter, List.foldl_flatMap]
  congr 1
  funext g i
  rw [withOperands, Instr.temps]
  congr 1
  funext g t
  by_cases h : some t = fp <;> simp [h]

/-- Added to the empty graph, temps become nodes in the order of their first occurrence. -/
theorem temps_foldl_withNode {ts : List Temp} (hts : ∀ t ∈ ts, 0 ≤ t) :
    (ts.foldl withNode empty).temps = ts.eraseDups := by
  have hcalls : ts.foldl withNode empty = after (ts.map .addNode) := by
    rw [after, List.foldl_map]
    rfl
  have hadded : (ts.map GraphCall.addNode).filterMap GraphCall.added? = ts := by
    rw [List.filterMap_map, List.filterMap_congr (g := some) fun t ht => ?_, List.filterMap_some]
    simp [GraphCall.added?, hts t ht]
  rw [hcalls, temps_after, hadded]

/-- **The nodes in order.** -/
theorem temps_ofCode_eq (hcode : ∀ i ∈ code, ∀ t ∈ i.temps, 0 ≤ t) : (ofCode fp code).temps =
    ((code.flatMap Instr.temps).filter fun t => some t ≠ fp).eraseDups := by
  rw [temps_ofCode, foldl_withOperands]
  refine temps_foldl_withNode fun t ht => ?_
  obtain ⟨i, hi, hti⟩ := List.mem_flatMap.1 (List.mem_filter.1 ht).1
  exact hcode i hi t hti

theorem WellFormed.degree_eq_countP (hg : g.WellFormed) (hall : ∀ t, g.hasNode t = true ↔ t ∈ g.temps)
    {t : Temp} (ht : t ∈ g.temps) : g.degree t = g.temps.countP fun u => g.hasEdge t u := by
  have hpresent : g.present = g.temps.toFinset := by
    ext u
    rw [mem_present, hall, List.mem_toFinset]
  rw [hg.degree t ((hall t).2 ht), degreeIn, hpresent, ← List.toFinset_filter,
    List.toFinset_card_of_nodup (hg.nodup.filter _), List.countP_eq_length_filter]

/-! ## Pressure -/

/-- What a definition demands, counted over the nodes. -/
theorem countP_eq_demand (hg : g.temps.Nodup) (hfp : ∀ t ∈ g.temps, some t ≠ fp)
    (hd : i.definition? = some d) (hnode : d ∈ g.temps) :
    (g.temps.countP fun t => t = d || i.liveOut.contains t) = g.demand fp i := by
  have hnot : d ∉ g.liveNodes fp d i := fun h => (mem_liveNodes.1 h).2.1 rfl
  have hperm : (g.temps.filter fun t => t = d || i.liveOut.contains t).Perm (d :: g.liveNodes fp d i) := by
    rw [List.perm_ext_iff_of_nodup (hg.filter _) (List.nodup_cons.2 ⟨hnot, nodup_liveNodes⟩)]
    intro t
    rw [List.mem_filter, List.mem_cons, mem_liveNodes, known_iff_mem, Bool.or_eq_true, decide_eq_true_eq]
    constructor
    · rintro ⟨ht, htd | hlive⟩
      · exact .inl htd
      · by_cases htd : t = d
        · exact .inl htd
        · exact .inr ⟨hlive, htd, hfp t ht, ht⟩
    · rintro (rfl | ⟨hlive, -, -, ht⟩)
      · exact ⟨hnode, .inl rfl⟩
      · exact ⟨ht, .inr hlive⟩
  rw [List.countP_eq_length_filter, hperm.length_eq, List.length_cons, demand_of_definition hd (hfp d hnode)]

section
variable (hcode : ∀ i ∈ code, ∀ t ∈ i.temps, 0 ≤ t)
include hcode

theorem mem_demands_ofCode : n ∈ (ofCode fp code).demands fp code ↔
    ∃ i ∈ code, ∃ d, i.definition? = some d ∧ some d ≠ fp ∧ n = (ofCode fp code).demand fp i := by
  have hfp : ∀ t ∈ (ofCode fp code).temps, some t ≠ fp := fun t ht =>
    ((known_ofCode hcode).1 (known_iff_mem.2 ht)).2
  have hcount : ∀ i ∈ code, ∀ d, i.definition? = some d → some d ≠ fp →
      ((ofCode fp code).temps.countP fun t => t = d || i.liveOut.contains t) =
        (ofCode fp code).demand fp i := fun i hi d hd hne =>
    countP_eq_demand (wellFormed_ofCode hcode).nodup hfp hd
      (known_iff_mem.1 (known_of_definition hcode hi hd hne))
  simp only [demands, List.mem_flatMap, List.mem_map, List.mem_filter, Instr.mem_definitions,
    decide_eq_true_eq]
  constructor
  · rintro ⟨i, hi, d, ⟨hd, hne⟩, rfl⟩
    exact ⟨i, hi, d, hd, hne, hcount i hi d hd hne⟩
  · rintro ⟨i, hi, d, hd, hne, rfl⟩
    exact ⟨i, hi, d, ⟨hd, hne⟩, hcount i hi d hd hne⟩

/-- An instruction without a demand of its own demands nothing. -/
theorem demand_eq_zero_or_mem (fp : Option Temp) (hi : i ∈ code) : (ofCode fp code).demand fp i = 0 ∨
    (ofCode fp code).demand fp i ∈ (ofCode fp code).demands fp code := by
  rcases withDefinition_cases (ofCode fp code) fp i with ⟨-, hzero, -⟩ | ⟨d, hd, hne, -⟩
  · exact .inl hzero
  · exact .inr ((mem_demands_ofCode hcode).2 ⟨i, hi, d, hd, hne, rfl⟩)

/-- **The pressure is the largest demand.** -/
theorem pressure_ofCode_eq (fp : Option Temp) :
    (ofCode fp code).pressure = ((ofCode fp code).demands fp code).max?.getD 0 := by
  rcases hmax : ((ofCode fp code).demands fp code).max? with _ | m
  · rw [List.max?_eq_none_iff] at hmax
    rcases pressure_eq_demand hcode fp with hzero | ⟨i, hi, hp⟩
    · exact hzero
    · rcases demand_eq_zero_or_mem hcode fp hi with hzero | hmem
      · rw [hp, hzero]
        rfl
      · rw [hmax] at hmem
        cases hmem
  · obtain ⟨hmem, hle⟩ := List.max?_eq_some_iff.1 hmax
    obtain ⟨i, hi, -, -, -, rfl⟩ := (mem_demands_ofCode hcode).1 hmem
    refine le_antisymm ?_ (demand_le_pressure hcode hi)
    rcases pressure_eq_demand hcode fp with hzero | ⟨j, hj, hp⟩
    · rw [hzero]
      exact Int.natCast_nonneg _
    · rw [hp, Option.getD_some]
      rcases demand_eq_zero_or_mem hcode fp hj with hzero | hjmem
      · rw [hzero]
        exact Int.natCast_nonneg _
      · exact Int.ofNat_le.2 (hle _ hjmem)

/-- **What is built is the interference graph.** -/
theorem isInterference_ofCode (fp : Option Temp) : (ofCode fp code).IsInterference fp code := by
  have hall : ∀ t, (ofCode fp code).hasNode t = true ↔ t ∈ (ofCode fp code).temps := fun t =>
    ⟨fun h => known_iff_mem.1 (known_of_hasNode h), fun h => hasNode_ofCode hcode (known_iff_mem.2 h)⟩
  refine ⟨temps_ofCode_eq hcode, hall, fun a b => ?_,
    fun t ht => (wellFormed_ofCode hcode).degree_eq_countP hall ht, pressure_ofCode_eq hcode fp⟩
  rw [hasEdge_ofCode hcode, known_iff_mem, known_iff_mem]
  simp only [DefinedWith, Instr.mem_definitions]

end

/-- A temp that is the frame pointer, or that no instruction touches, is no node and has no
    neighbours, even if it is live. -/
theorem IsInterference.isolated (hg : g.IsInterference fp code) {t : Temp}
    (ht : some t = fp ∨ ∀ i ∈ code, t ∉ i.temps) :
    g.known t = false ∧ ∀ u, g.hasEdge t u = false ∧ g.hasEdge u t = false := by
  have hnot : t ∉ g.temps := by
    rw [hg.temps, List.mem_eraseDups, List.mem_filter, List.mem_flatMap, decide_eq_true_eq]
    rintro ⟨⟨i, hi, hti⟩, hne⟩
    exact ht.elim hne fun h => h i hi hti
  refine ⟨by rw [← Bool.not_eq_true, known_iff_mem]; exact hnot, fun u => ⟨?_, ?_⟩⟩
  · rw [← Bool.not_eq_true, hg.hasEdge]
    exact fun h => hnot h.2.1
  · rw [← Bool.not_eq_true, hg.hasEdge]
    exact fun h => hnot h.2.2.1

/-- An instruction that defines nothing adds nothing. -/
theorem withDefinition_of_no_definition (hi : i.definitions = []) (g : Graph) :
    g.withDefinition fp i = g := by
  rcases withDefinition_cases g fp i with ⟨-, -, e⟩ | ⟨d, hd, -, -⟩
  · exact e
  · rw [← Instr.mem_definitions, hi] at hd
    cases hd

end

end Graph

namespace Block

variable {b : Block}

theorem firstControl_of_split {pre post : List Instr} {i : Instr} (hsplit : b.code = pre ++ i :: post)
    (hpre : ∀ j ∈ pre, j.op.control = false) (hi : i.op.control = true) :
    b.firstControl? = some ⟨b.name, pre.length, i.op⟩ := by
  have hfind : (b.code.zipIdx.find? fun p => p.1.op.control) = some (i, pre.length) := by
    rw [hsplit, List.zipIdx_append, List.zipIdx_cons, List.find?_eq_some_iff_append]
    refine ⟨hi, pre.zipIdx, post.zipIdx (0 + pre.length + 1), by rw [Nat.zero_add], ?_⟩
    rintro ⟨j, n⟩ hj
    simp [hpre j (List.fst_mem_of_mem_zipIdx hj)]
  exact congrArg (Option.map fun p : Instr × Nat => (⟨b.name, p.2, p.1.op⟩ : UsageError)) hfind

/-- **Building gives exactly the interference graph**, for every block and frame pointer.
    The first control op is reported, whatever else is wrong; else the first instruction that
    does not fit the op table.  Else there is a graph: looking up ops, adding nodes and adding
    edges ran into no fault, and it is the interference graph of the block.  So the frame
    pointer and temps that are only ever live are neither nodes nor neighbours, and
    instructions that define nothing add nothing. -/
theorem interference_exact (b : Block) (fp : Option Temp) :
    (∀ pre i post, b.code = pre ++ i :: post → (∀ j ∈ pre, j.op.control = false) →
      i.op.control = true → b.interference fp = .error (.usage ⟨b.name, pre.length, i.op⟩)) ∧
    ((∀ i ∈ b.code, i.op.control = false) →
      (∀ e, b.check = .error e → b.interference fp = .error (.malformed b.name e)) ∧
      (b.check = .ok () → ∃ g, b.interference fp = .ok g ∧
        (∀ i ∈ b.code, ∃ s, i.op.info = .ok s) ∧ Graph.build fp b.code = .ok g ∧
        g.IsInterference fp b.code ∧
        (∀ t, (some t = fp ∨ ∀ i ∈ b.code, t ∉ i.temps) →
          g.known t = false ∧ ∀ u, g.hasEdge t u = false ∧ g.hasEdge u t = false) ∧
        ∀ i ∈ b.code, i.definitions = [] → ∀ h : Graph, h.withDefinition fp i = h)) := by
  refine ⟨fun pre i post hsplit hpre hi => ?_, fun hfree => ?_⟩
  · rw [interference, firstControl_of_split hsplit hpre hi]
  have hctl := hasControl_eq_false.2 hfree
  refine ⟨fun e he => ?_, fun hcheck => ?_⟩
  · rw [interference, firstControl_eq_none.2 hctl, he]
  · have hcode := nonneg_of_check hcheck
    have hgraph := Graph.isInterference_ofCode hcode fp
    exact ⟨.ofCode fp b.code, interference_ok_iff.2 ⟨hctl, hcheck, rfl⟩,
      fun i hi => Op.info_eq_ok (check_ok hcheck i hi).1, Graph.build_eq fp hcode, hgraph,
      fun t ht => hgraph.isolated ht, fun i _ hi h => Graph.withDefinition_of_no_definition hi h⟩

/-- Temp 0 points to a frame, and temp 3 is live but not touched. -/
def frameBlock : Block :=
  ⟨utf8 "frame", [utf8 "fp", utf8 "x", utf8 "y", utf8 "z"],
    [⟨.load, ⟨some 1, some 0, none⟩, 8, [], liveSet [0, 1, 3]⟩,
      ⟨.add, ⟨some 2, some 1, some 0⟩, 0, [], liveSet [0, 1, 2, 3]⟩,
      ⟨.store, ⟨some 2, some 0, none⟩, 4, [], liveSet [0, 1, 2]⟩], none⟩

/-- A control op behind an op that is not in the table. -/
def brokenBlock : Block :=
  ⟨utf8 "broken", [], [⟨.unknown 99, .vacant, 0, [], ∅⟩, ⟨.branch, .vacant, 0, utf8 "end", ∅⟩], none⟩

/-- Only the two temps of the frame block that are neither the frame pointer nor merely live are
    nodes; the broken block is refused for its control op. -/
theorem interference_exact_frame :
    (∃ g, frameBlock.interference (some 0) = .ok g ∧ g.temps = [1, 2] ∧ g.hasEdge 2 1 = true ∧
      g.known 3 = false ∧ g.pressure = 2) ∧
    brokenBlock.interference none = .error (.usage ⟨utf8 "broken", 1, .branch⟩) := by
  constructor
  · obtain ⟨g, hg, -, -, hgraph, hisolated, -⟩ :=
      ((interference_exact frameBlock (some 0)).2 (by decide)).2 (by cbv)
    have htemps : g.temps = [1, 2] := by rw [hgraph.temps]; cbv
    refine ⟨g, hg, htemps, (hgraph.hasEdge 2 1).2 ?_, (hisolated 3 (.inr (by decide))).1, ?_⟩
    · rw [htemps]
      exact ⟨by decide, by decide, by decide, _, List.mem_cons_of_mem _ List.mem_cons_self,
        .inl ⟨Instr.mem_definitions.2 rfl, by cbv⟩⟩
    · rw [hgraph.pressure, Graph.demands, htemps]
      cbv
  · exact (interference_exact brokenBlock none).1 [_] _ [] rfl (by decide) rfl

end Block

end Straightline
