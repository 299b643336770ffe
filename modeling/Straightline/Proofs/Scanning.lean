/-
  Simplification does what scanning all nodes would do.

  The worklist holds several entries for a node, of which all but one are stale.  A
  loop without a worklist looks at every present node each time and takes off the one
  with the least degree and, of these, the one added first (`Graph.scanLoop`).

  * `scan?_eq_some_iff`: a scan finds the least node;
  * `Peels.scanLoop`: the loop takes off the nodes that can be peeled off;
  * `skeleton`: what of a graph does not depend on which nodes are present; removing
    nodes does not change it (`Peels.skeleton`);
  * `simplify_eq_scanLoop`: hence simplification ends as the loop does, after any calls,
    and leaves the nodes, the edges and the pressure as they were.
-/
import Mathlib
import Straightline.Proofs.Renumbering

namespace Straightline

namespace Graph

/-! ## Scanning -/

/-- What decides which node comes first: its degree, then its place in the order of
    addition. -/
def removalKey (g : Graph) (t : Temp) : Nat ×ₗ Nat :=
  toLex (g.degree t, g.rank t)

/-- Look at every present node for the one that comes first. -/
def scan? (g : Graph) : Option Temp :=
  (g.temps.filter fun t => g.hasNode t).argmin g.removalKey

section
variable {g g' : Graph} {t u : Temp} {k : Int} {stack ts : List Temp}

theorem mem_filter_hasNode : t ∈ (g.temps.filter fun t => g.hasNode t) ↔ g.hasNode t = true := by
  rw [List.mem_filter, and_iff_right_iff_imp]
  exact fun h => known_iff_mem.1 (known_of_hasNode h)

theorem hasNode_of_scan (h : g.scan? = some t) : g.hasNode t = true :=
  mem_filter_hasNode.1 (List.argmin_mem h)

/-- The worklist takes its entries in the order of these keys. -/
theorem removalKey_le_iff :
    g.removalKey t ≤ g.removalKey u ↔ (g.candidate u).before (g.candidate t) = false := by
  rw [removalKey, removalKey, Prod.Lex.toLex_le_toLex, Candidate.before, candidate, candidate]
  simp only [Bool.or_eq_false_iff, Bool.and_eq_false_imp, decide_eq_false_iff_not, beq_iff_eq]
  omega

theorem least_of_scan (h : g.scan? = some t) : g.Least t :=
  ⟨hasNode_of_scan h, fun _ hu => removalKey_le_iff.1 (List.le_of_mem_argmin (mem_filter_hasNode.2 hu) h)⟩

theorem scan?_eq_none_iff : g.scan? = none ↔ g.present = ∅ := by
  rw [scan?, List.argmin_eq_none, List.eq_nil_iff_forall_not_mem, Finset.eq_empty_iff_forall_notMem]
  simp only [mem_filter_hasNode, mem_present]

/-- **A scan finds the least node.** -/
theorem scan?_eq_some_iff : g.scan? = some t ↔ g.Least t := by
  refine ⟨least_of_scan, fun ht => ?_⟩
  rcases hscan : g.scan? with _ | u
  · have hmem := mem_present.2 ht.present
    rw [scan?_eq_none_iff.1 hscan] at hmem
    cases hmem
  · rw [ht.unique (least_of_scan hscan)]

/-! ## The loop -/

/-- Take off one node after the other, each found by a scan; the nodes taken off so far
    are on the stack. -/
def scanLoop (k : Int) (stack : List Temp) (g : Graph) : Graph × Except ColoringError (List Temp) :=
  match h : g.scan? with
  | none => (g, .ok stack)
  | some t =>
    if k ≤ g.degree t then (g, .error (.spill (g.spillRequired k)))
    else
      have : (g.remove t).present.card < g.present.card := by
        rw [present_remove]
        exact Finset.card_erase_lt_of_mem (mem_present.2 (hasNode_of_scan h))
      scanLoop k (stack ++ [t]) (g.remove t)
termination_by g.present.card

theorem scanLoop_of_empty (h : g.present = ∅) : scanLoop k stack g = (g, .ok stack) := by
  have hscan := scan?_eq_none_iff.2 h
  rw [scanLoop]
  split
  · rfl
  · simp_all

theorem scanLoop_of_least (h : g.Least t) : scanLoop k stack g =
    if k ≤ g.degree t then (g, .error (.spill (g.spillRequired k)))
    else scanLoop k (stack ++ [t]) (g.remove t) := by
  have hscan := scan?_eq_some_iff.2 h
  rw [scanLoop]
  split
  · simp_all
  · rename_i u hu
    obtain rfl : t = u := Option.some.inj (hscan.symm.trans hu)
    rfl

/-- **The loop takes off what can be peeled off.** -/
theorem Peels.scanLoop (h : Peels k g ts g') : scanLoop k stack g = scanLoop k (stack ++ ts) g' := by
  induction h generalizing stack with
  | nil => rw [List.append_nil]
  | cons hleast hlt _ ih =>
    rw [scanLoop_of_least hleast, if_neg (not_le.2 hlt), ih, List.append_assoc, List.singleton_append]

/-- The loop and simplification of a well-formed graph end alike. -/
theorem WellFormed.scanLoop_eq (hg : g.WellFormed) (k : Int) :
    Graph.scanLoop k [] g = g.simplify k := by
  obtain ⟨stack, e, hpeel, ⟨hempty, hrun⟩ | ⟨t, ht, hk, hrun⟩⟩ := simplify_spec hg k
  · rw [hrun, hpeel.scanLoop, scanLoop_of_empty hempty, List.nil_append]
  · rw [hrun, hpeel.scanLoop, scanLoop_of_least ht, if_pos hk]

/-! ## What removing nodes does not change -/

/-- The graph without the knowledge which nodes are present and what their degrees are. -/
def skeleton (g : Graph) : Graph :=
  { g with nodes := g.nodes.map fun n => { n with present := false, degree := 0 } }

theorem skeleton_remove : (g.remove t).skeleton = g.skeleton := by
  unfold remove
  split
  · simp only [skeleton, modifyNode, List.map_map]
    congr 1
    refine List.map_congr_left fun n _ => ?_
    simp only [Function.comp_apply, unlink]
    split <;> split <;> rfl
  · rfl

theorem Peels.skeleton (h : Peels k g ts g') : g'.skeleton = g.skeleton := by
  induction h with
  | nil => rfl
  | cons _ _ _ ih => rw [ih, skeleton_remove]

/-- Graphs that differ in presence and degrees only have the same edges. -/
theorem edges_skeleton : g.skeleton.edges = g.edges := by
  rw [edges, edges, skeleton, List.flatMap_map]
  rfl

end

/-- **Simplification does what scanning all nodes would do.**  After any calls, for every
    `k` and with any queue, it ends with the graph and the stack or the spill request of the
    loop that looks at all present nodes each time; and only which nodes are present, and
    their degrees, are different afterwards. -/
theorem simplify_eq_scanLoop (queue : Queue) (calls : List GraphCall) (k : Int) :
    (after calls).simplifyWith queue k = scanLoop k [] (after calls) ∧
    ((after calls).simplifyWith queue k).1.skeleton = (after calls).skeleton ∧
    ((after calls).simplifyWith queue k).1.temps = (after calls).temps ∧
    ((after calls).simplifyWith queue k).1.edges = (after calls).edges ∧
    (∀ t, ((after calls).simplifyWith queue k).1.neighbors t = (after calls).neighbors t) ∧
    ((after calls).simplifyWith queue k).1.pressure = (after calls).pressure := by
  have hg := wellFormed_after calls
  rw [hg.simplifyWith_eq queue]
  have hpeels : ∃ stack, Peels k (after calls) stack ((after calls).simplify k).1 := by
    obtain ⟨stack, e, hpeel, ⟨-, hrun⟩ | ⟨-, -, -, hrun⟩⟩ := simplify_spec hg k
    · exact ⟨stack, by rw [hrun]; exact hpeel⟩
    · exact ⟨stack, by rw [hrun]; exact hpeel⟩
  obtain ⟨stack, hpeel⟩ := hpeels
  refine ⟨(hg.scanLoop_eq k).symm, hpeel.skeleton, hpeel.temps, ?_, fun t => hpeel.neighbors,
    hpeel.pressure⟩
  rw [← edges_skeleton, hpeel.skeleton, edges_skeleton]

/-- In a star, two tips go first; then the middle has as few neighbours as the last tip, and was
    added before it. -/
example : ((after [.addNode 0, .addNode 1, .addNode 2, .addNode 3, .addEdge 0 1, .addEdge 0 2,
    .addEdge 0 3]).simplify 2).2 = .ok [1, 2, 0, 3] := by cbv

end Graph

end Straightline
