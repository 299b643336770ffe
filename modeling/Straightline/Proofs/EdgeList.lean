/-
  The list of edges.

  Edges are collected from the nodes in the order of their addition and then sorted, while
  their number is counted as they are added.  What comes out depends on adjacency only.

  * `WellFormed.hasEdge_call`, `hasEdge_after`: which temps one call and a whole run make
    adjacent;
  * `ascending_edges`: the list ascends strictly, so that no edge is listed twice;
  * `WellFormed.length_edges`: it is as long as there are adjacent pairs;
  * `WellFormed.edges_eq_iff`: graphs have the same list iff the same temps are adjacent;
  * `edges_after`: all this together holds of every graph that calls can make.
-/
import Mathlib
import Straightline.Proofs.Verification

namespace Straightline

namespace Graph

variable {g h : Graph} {a b : Temp} {calls : List GraphCall} {c : GraphCall}

/-! ## Adjacency -/

/-- An edge between the two temps was asked for when both had been added. -/
def Joined (calls : List GraphCall) (a b : Temp) : Prop :=
  ∃ pre c post, calls = pre ++ c :: post ∧
    (c = .addEdge a b ∨ c = .addEdge b a) ∧ .addNode a ∈ pre ∧ .addNode b ∈ pre

theorem joined_concat : Joined (calls ++ [c]) a b ↔ Joined calls a b ∨
    ((c = .addEdge a b ∨ c = .addEdge b a) ∧ .addNode a ∈ calls ∧ .addNode b ∈ calls) :=
  exists_split_concat

/-- A call makes temps adjacent only by asking for the edge between them. -/
theorem WellFormed.hasEdge_call (hg : g.WellFormed) : (g.call c).hasEdge a b = true ↔
    g.hasEdge a b = true ∨
      ((c = .addEdge a b ∨ c = .addEdge b a) ∧ a ≠ b ∧ g.known a = true ∧ g.known b = true) := by
  cases c with
  | addNode t => simp [Graph.call, hasEdge_withNode]
  | addEdge x y =>
    rw [Graph.call, hg.hasEdge_withEdge]
    simp only [GraphCall.addEdge.injEq]
    refine or_congr_right ⟨?_, ?_⟩
    · rintro ⟨hx, hy, hne, ⟨rfl, rfl⟩ | ⟨rfl, rfl⟩⟩
      · exact ⟨Or.inl ⟨rfl, rfl⟩, hne, hx, hy⟩
      · exact ⟨Or.inr ⟨rfl, rfl⟩, hne.symm, hy, hx⟩
    · rintro ⟨⟨rfl, rfl⟩ | ⟨rfl, rfl⟩, hne, ha, hb⟩
      · exact ⟨ha, hb, hne, Or.inl ⟨rfl, rfl⟩⟩
      · exact ⟨hb, ha, hne.symm, Or.inr ⟨rfl, rfl⟩⟩
  | remove t => simp [Graph.call, hasEdge_remove]
  | setPressure p => simp [Graph.call, hasEdge, neighbors, node?]

/-- **Temps are adjacent** iff an edge between them was asked for when both were nodes. -/
theorem hasEdge_after (calls : List GraphCall) (a b : Temp) :
    (after calls).hasEdge a b = true ↔ 0 ≤ a ∧ 0 ≤ b ∧ a ≠ b ∧ Joined calls a b := by
  induction calls using List.reverseRecOn with
  | nil => simp [after, hasEdge, neighbors, node?, empty, Joined, DenseSet.not_contains_empty]
  | append_singleton calls c ih =>
    rw [after_concat, (wellFormed_after calls).hasEdge_call, ih, known_after_iff, known_after_iff,
      joined_concat]
    tauto

/-! ## The list -/

theorem nodup_upwardEdges (n : Node) : (upwardEdges n).Nodup :=
  ((DenseSet.nodup_keys _).filter _).map (Prod.mk_right_injective n.temp)

/-- No edge is listed twice, as it is listed by its lower end only. -/
theorem nodup_edges (hg : g.temps.Nodup) : g.edges.Nodup := by
  rw [edges, (List.mergeSort_perm _ _).nodup_iff, List.nodup_flatMap]
  refine ⟨fun n _ => nodup_upwardEdges n, ?_⟩
  rw [temps, List.Nodup, List.pairwise_map] at hg
  refine hg.imp fun {m n} hne e hm hn => ?_
  simp only [upwardEdges, List.mem_map] at hm hn
  obtain ⟨t, -, rfl⟩ := hm
  obtain ⟨u, -, he⟩ := hn
  exact hne (congrArg Prod.fst he).symm

/-- **The list ascends strictly.** -/
theorem ascending_edges (hg : g.temps.Nodup) : g.edges.Pairwise fun e f => toLex e < toLex f := by
  refine ((pairwise_edges g).and (nodup_edges hg)).imp ?_
  rintro e f ⟨hle, hne⟩
  exact lt_of_le_of_ne hle fun he => hne (toLex_inj.1 he)

theorem WellFormed.length_edges (hg : g.WellFormed) : g.edges.length = g.adjacentPairs.card := by
  have hpairs : g.edges.toFinset = g.adjacentPairs := by
    ext ⟨a, b⟩
    rw [List.mem_toFinset, mem_edges hg.nodup, hg.mem_adjacentPairs]
  rw [← hpairs, List.toFinset_card_of_nodup (nodup_edges hg.nodup)]

/-- **The list is canonical**: it tells which temps are adjacent, and nothing else. -/
theorem WellFormed.edges_eq_iff (hg : g.WellFormed) (hh : h.WellFormed) :
    h.edges = g.edges ↔ ∀ a b, h.hasEdge a b = g.hasEdge a b := by
  constructor
  · intro heq a b
    rw [Bool.eq_iff_iff, hh.hasEdge_iff_mem_edges, hg.hasEdge_iff_mem_edges, heq]
  · intro hsame
    have hmem : ∀ e, e ∈ h.edges ↔ e ∈ g.edges := by
      rintro ⟨a, b⟩
      rw [mem_edges hh.nodup, mem_edges hg.nodup, hsame]
    have hperm : h.edges.Perm g.edges :=
      (List.perm_ext_iff_of_nodup (nodup_edges hh.nodup) (nodup_edges hg.nodup)).2 hmem
    -- of two pairs only one can stand before the other, so the order is forced
    exact hperm.eq_of_pairwise (fun e f _ _ hef hfe => (lt_asymm hef hfe).elim)
      (ascending_edges hh.nodup) (ascending_edges hg.nodup)

/-- **The list of edges is exact and canonical.** It ascends strictly in the lexicographic order,
    has the adjacent temps with the lower one first and no other pairs, and is as long as the count
    says.  Adjacent are the temps between which an edge was asked for when both were nodes.  Two
    graphs have the same list iff the same temps are adjacent, whatever the order in which they were
    made and whatever was removed. -/
theorem edges_after (calls : List GraphCall) :
    (after calls).edges.Pairwise (fun e f => toLex e < toLex f) ∧
      (∀ a b, (a, b) ∈ (after calls).edges ↔ a < b ∧ (after calls).hasEdge a b = true) ∧
      (after calls).edges.length = (after calls).edgeCount ∧
      (∀ a b, (after calls).hasEdge a b = true ↔ 0 ≤ a ∧ 0 ≤ b ∧ a ≠ b ∧ Joined calls a b) ∧
      ∀ calls', (after calls').edges = (after calls).edges ↔
        ∀ a b, (after calls').hasEdge a b = (after calls).hasEdge a b := by
  have hg : (after calls).WellFormed := wellFormed_after calls
  refine ⟨ascending_edges hg.nodup, fun a b => mem_edges hg.nodup, ?_, hasEdge_after calls, fun calls' => ?_⟩
  · rw [hg.length_edges, edgeCount_after]
  · exact hg.edges_eq_iff (wellFormed_after calls')

/-- An edge of a removed node is listed, and one asked for twice is listed once. -/
example : (after [.addNode 2, .addNode 0, .addNode 1, .addEdge 2 0, .remove 2, .addEdge 1 0, .addEdge 0 1,
    .addEdge 2 1]).edges = [(0, 1), (0, 2), (1, 2)] := by cbv

end Graph

end Straightline
