/-
  What is known of a graph from the calls that made it.

  Nodes and edges may be added and nodes removed in any order, and calls may end
  with a fault.  Removing a node changes nothing but which nodes are present and
  how many present neighbours they have.

  * `temps_after`: the nodes are the temps added, in the order of their first
    addition;
  * `hasNode_after`: a node is present iff it was never removed, so that it
    cannot come back;
  * `sameRows_after`: the neighbours are those of the same calls without the
    removals;
  * `edgeCount_after`: the edges are counted right;
  * `madeBy_after`: all this together holds of every graph that calls can make.
-/
import Mathlib.Data.Finset.Prod
import Straightline.Proofs.Graph

namespace Straightline

namespace GraphCall

/-- The temp that a call adds, if it adds one without a fault. -/
def added? : GraphCall → Option Temp
  | addNode t => if 0 ≤ t then some t else none
  | _ => none

/-- Is the call a removal? -/
def removes : GraphCall → Bool
  | remove _ => true
  | _ => false

end GraphCall

namespace Graph

variable {g h : Graph} {t u a b : Temp} {calls : List GraphCall} {c : GraphCall}

theorem after_concat : after (calls ++ [c]) = (after calls).call c := by
  simp [after, List.foldl_append]

/-- A call among some and one more is among these or it is the last one. -/
theorem exists_split_concat {P : List GraphCall → GraphCall → Prop} :
    (∃ pre d post, calls ++ [c] = pre ++ d :: post ∧ P pre d) ↔
      (∃ pre d post, calls = pre ++ d :: post ∧ P pre d) ∨ P calls c := by
  constructor
  · rintro ⟨pre, d, post, hsplit, hd⟩
    rcases post.eq_nil_or_concat with rfl | ⟨post, e, rfl⟩
    · obtain ⟨rfl, hlast⟩ := List.append_inj' hsplit rfl
      obtain rfl := List.head_eq_of_cons_eq hlast
      exact Or.inr hd
    · have hsplit' : calls ++ [c] = (pre ++ d :: post) ++ [e] := by simp [hsplit]
      exact Or.inl ⟨pre, d, post, (List.append_inj' hsplit' rfl).1, hd⟩
  · rintro (⟨pre, d, post, rfl, hd⟩ | hd)
    · exact ⟨pre, d, post ++ [c], by simp, hd⟩
    · exact ⟨calls, c, [], rfl, hd⟩

/-! ## Nodes -/

theorem temps_withNode :
    (g.withNode t).temps = if 0 ≤ t ∧ t ∉ g.temps then g.temps ++ [t] else g.temps := by
  rcases withNode_cases g t with ⟨hold, e⟩ | ⟨hnonneg, hnew, e⟩
  · have hnot : ¬ (0 ≤ t ∧ t ∉ g.temps) := by
      rintro ⟨hnonneg, hmem⟩
      exact hold.elim (not_lt.2 hnonneg) fun hk => hmem (known_iff_mem.1 hk)
    rw [e, if_neg hnot]
  · have hmem : t ∉ g.temps := fun h => by rw [known_iff_mem.2 h] at hnew; cases hnew
    rw [e, if_pos ⟨hnonneg, hmem⟩]
    simp [temps]

theorem eraseDups_concat (ts : List Temp) (t : Temp) :
    (ts ++ [t]).eraseDups = if t ∈ ts then ts.eraseDups else ts.eraseDups ++ [t] := by
  rw [List.eraseDups_append]
  by_cases h : t ∈ ts
  · simp [List.removeAll, h]
  · simp [List.removeAll, h, List.eraseDups_cons]

/-- A call adds at most one node, as the last one. -/
theorem temps_call : (g.call c).temps = match c.added? with
    | some t => if t ∈ g.temps then g.temps else g.temps ++ [t]
    | none => g.temps := by
  cases c with
  | addNode t =>
    rw [call, temps_withNode]
    by_cases hnonneg : 0 ≤ t
    · by_cases hold : t ∈ g.temps
      · simp [GraphCall.added?, hnonneg, hold]
      · simp [GraphCall.added?, hnonneg, hold]
    · simp [GraphCall.added?, hnonneg]
  | addEdge a b => exact temps_withEdge
  | remove t => exact temps_remove
  | setPressure p => rfl

/-- **The nodes** are the temps that were added, in the order of their first addition. -/
theorem temps_after (calls : List GraphCall) :
    (after calls).temps = (calls.filterMap GraphCall.added?).eraseDups := by
  induction calls using List.reverseRecOn with
  | nil => rfl
  | append_singleton calls c ih =>
    rw [after_concat, temps_call]
    cases hc : c.added? with
    | none => simp [hc, ih]
    | some t =>
      have hmem : t ∈ (after calls).temps ↔ t ∈ calls.filterMap GraphCall.added? := by
        rw [ih, List.mem_eraseDups]
      have hlast : [c].filterMap GraphCall.added? = [t] := by simp [hc]
      rw [List.filterMap_append, hlast, eraseDups_concat, ← ih]
      exact if_congr hmem rfl rfl

theorem mem_temps_append (h : t ∈ (after calls).temps) (more : List GraphCall) :
    t ∈ (after (calls ++ more)).temps := by
  rw [temps_after, List.mem_eraseDups] at h ⊢
  rw [List.filterMap_append]
  exact List.mem_append_left _ h

/-- The temp was removed when it was a node. -/
def Retired (calls : List GraphCall) (t : Temp) : Prop :=
  ∃ pre post, calls = pre ++ .remove t :: post ∧ t ∈ (after pre).temps

theorem Retired.mem_temps (h : Retired calls t) : t ∈ (after calls).temps := by
  obtain ⟨pre, post, rfl, hmem⟩ := h
  exact mem_temps_append hmem _

theorem retired_concat :
    Retired (calls ++ [c]) t ↔ Retired calls t ∨ (c = .remove t ∧ t ∈ (after calls).temps) := by
  have hsome : ∀ calls, Retired calls t ↔
      ∃ pre d post, calls = pre ++ d :: post ∧ d = .remove t ∧ t ∈ (after pre).temps := by
    intro calls
    constructor
    · rintro ⟨pre, post, hsplit, hmem⟩
      exact ⟨pre, _, post, hsplit, rfl, hmem⟩
    · rintro ⟨pre, _, post, hsplit, rfl, hmem⟩
      exact ⟨pre, post, hsplit, hmem⟩
  rw [hsome, hsome, exists_split_concat]

/-- **A node is present** iff it was never removed: one that was does not come back. -/
theorem hasNode_after (calls : List GraphCall) (t : Temp) :
    (after calls).hasNode t = true ↔ t ∈ (after calls).temps ∧ ¬ Retired calls t := by
  induction calls using List.reverseRecOn with
  | nil => simp [after, hasNode, node?, empty, temps]
  | append_singleton calls c ih =>
    rw [retired_concat, after_concat]
    cases c with
    | addNode u =>
      have hkeep : ¬ (GraphCall.addNode u = .remove t ∧ t ∈ (after calls).temps) := by simp
      rw [or_iff_left hkeep, call]
      rcases withNode_cases (after calls) u with ⟨-, e⟩ | ⟨hnonneg, hnew, e⟩
      · rw [e, ih]
      · have hmem : u ∉ (after calls).temps := fun h => by rw [known_iff_mem.2 h] at hnew; cases hnew
        have hfresh : t = u → ¬ Retired calls t := by rintro rfl hret; exact hmem hret.mem_temps
        rw [temps_withNode, if_pos ⟨hnonneg, hmem⟩, e, hasNode_withNode_new hnew, ih, List.mem_append,
          List.mem_singleton]
        tauto
    | addEdge a b => simp [call, hasNode_withEdge, temps_withEdge, ih]
    | remove u =>
      simp only [call, hasNode_remove, temps_remove, ih, GraphCall.remove.injEq]
      constructor
      · rintro ⟨hne, hmem, hret⟩
        exact ⟨hmem, fun h => h.elim hret fun h => hne h.1.symm⟩
      · rintro ⟨hmem, hret⟩
        exact ⟨fun e => hret (Or.inr ⟨e.symm, hmem⟩), hmem, fun h => hret (Or.inl h)⟩
    | setPressure p => simpa [call, hasNode, node?, temps] using ih

/-! ## Neighbours -/

theorem neighbors_withNode : (g.withNode t).neighbors u = g.neighbors u := by
  rcases withNode_cases g t with ⟨-, e⟩ | ⟨-, hnew, e⟩
  · rw [e]
  · have hnone : g.node? t = none := by simpa [known] using hnew
    rw [e]
    by_cases hu : u = t
    · simp [neighbors, node?_withNode_new hnew, hu, hnone]
    · simp [neighbors, node?_withNode_new hnew, hu]

theorem neighbors_withEdge : (g.withEdge a b).neighbors u =
    if g.known a = true ∧ g.known b = true ∧ a ≠ b ∧ g.hasEdge a b = false then
      if u = a then (g.neighbors u).put b.toNat
      else if u = b then (g.neighbors u).put a.toNat else g.neighbors u
    else g.neighbors u := by
  rcases withEdge_cases g a b with ⟨hnot, e⟩ | ⟨ha, hb, hab, hnew, e⟩
  · have hnot' : ¬ (g.known a = true ∧ g.known b = true ∧ a ≠ b ∧ g.hasEdge a b = false) := by
      rintro ⟨ha, hb, hab, hnew⟩
      simp [ha, hb, hab, hnew] at hnot
    rw [e, if_neg hnot']
  · have hlinked : (g.withEdge a b).neighbors u = (g.linked a b).neighbors u := by rw [e]; rfl
    rw [hlinked, if_pos ⟨ha, hb, hab, hnew⟩]
    simp only [neighbors, node?_linked hab]
    rcases hn : g.node? u with _ | n
    · have hua : u ≠ a := by rintro rfl; simp [known, hn] at ha
      have hub : u ≠ b := by rintro rfl; simp [known, hn] at hb
      simp [hua, hub]
    · simp only [Option.map_some]
      split
      · rfl
      · split <;> rfl

/-- Graphs that have the same nodes and the same neighbours, present or not. -/
structure SameRows (g h : Graph) : Prop where
  temps : h.temps = g.temps
  neighbors : ∀ t, h.neighbors t = g.neighbors t

theorem SameRows.known (hs : SameRows g h) : h.known t = g.known t := by
  rw [Bool.eq_iff_iff, known_iff_mem, known_iff_mem, hs.temps]

theorem SameRows.call (hs : SameRows g h) (hc : c.removes = false) : SameRows (g.call c) (h.call c) := by
  cases c with
  | addNode t =>
    refine ⟨?_, fun u => ?_⟩
    · simp only [Graph.call, temps_withNode, hs.temps]
    · simp only [Graph.call, neighbors_withNode, hs.neighbors]
  | addEdge a b =>
    refine ⟨?_, fun u => ?_⟩
    · simp only [Graph.call, temps_withEdge, hs.temps]
    · simp only [Graph.call, neighbors_withEdge, hasEdge, hs.known, hs.neighbors]
      congr
  | remove t => cases hc
  | setPressure p => exact ⟨hs.temps, hs.neighbors⟩

/-- **Removing nodes changes no neighbours**: they are as if nothing had been removed. -/
theorem sameRows_after (calls : List GraphCall) :
    SameRows (after (calls.filter fun c => !c.removes)) (after calls) := by
  induction calls using List.reverseRecOn with
  | nil => exact ⟨rfl, fun _ => rfl⟩
  | append_singleton calls c ih =>
    rw [after_concat, List.filter_append]
    by_cases hc : c.removes = true
    · rw [List.filter_singleton, hc, Bool.not_true, cond_false, List.append_nil]
      cases c with
      | remove t => exact ⟨temps_remove.trans ih.temps, fun u => neighbors_remove.trans (ih.neighbors u)⟩
      | addNode t => cases hc
      | addEdge a b => cases hc
      | setPressure p => cases hc
    · rw [Bool.not_eq_true] at hc
      rw [List.filter_singleton, hc, Bool.not_false, cond_true, after_concat]
      exact ih.call hc

/-! ## Counting -/

/-- The pairs of adjacent nodes, the lower temp first. -/
def adjacentPairs (g : Graph) : Finset (Temp × Temp) :=
  (g.temps.toFinset ×ˢ g.temps.toFinset).filter fun e => e.1 < e.2 ∧ g.hasEdge e.1 e.2 = true

theorem WellFormed.mem_adjacentPairs (hg : g.WellFormed) :
    (a, b) ∈ g.adjacentPairs ↔ a < b ∧ g.hasEdge a b = true := by
  simp only [adjacentPairs, Finset.mem_filter, Finset.mem_product, List.mem_toFinset,
    and_iff_right_iff_imp]
  rintro ⟨-, hedge⟩
  exact ⟨known_iff_mem.1 (known_of_hasEdge hedge), known_iff_mem.1 (hg.known_right hedge)⟩

/-- Graphs with the same adjacent temps have the same adjacent pairs. -/
theorem WellFormed.adjacentPairs_congr (hg : g.WellFormed) (hh : h.WellFormed)
    (he : ∀ a b, h.hasEdge a b = g.hasEdge a b) : h.adjacentPairs = g.adjacentPairs := by
  ext ⟨a, b⟩
  rw [hh.mem_adjacentPairs, hg.mem_adjacentPairs, he]

theorem WellFormed.adjacentPairs_withEdge (hg : g.WellFormed) (ha : g.known a = true)
    (hb : g.known b = true) (hab : a ≠ b) :
    (g.withEdge a b).adjacentPairs = insert (min a b, max a b) g.adjacentPairs := by
  ext ⟨x, y⟩
  rw [(hg.withEdge a b).mem_adjacentPairs, hg.hasEdge_withEdge, Finset.mem_insert, hg.mem_adjacentPairs,
    Prod.mk.injEq]
  rcases lt_or_gt_of_ne hab with hlt | hlt
  · rw [min_eq_left hlt.le, max_eq_right hlt.le]
    constructor
    · rintro ⟨hxy, hedge | ⟨-, -, -, ⟨rfl, rfl⟩ | ⟨rfl, rfl⟩⟩⟩
      · exact Or.inr ⟨hxy, hedge⟩
      · exact Or.inl ⟨rfl, rfl⟩
      · exact absurd hxy hlt.asymm
    · rintro (⟨rfl, rfl⟩ | ⟨hxy, hedge⟩)
      · exact ⟨hlt, Or.inr ⟨ha, hb, hab, Or.inl ⟨rfl, rfl⟩⟩⟩
      · exact ⟨hxy, Or.inl hedge⟩
  · rw [min_eq_right hlt.le, max_eq_left hlt.le]
    constructor
    · rintro ⟨hxy, hedge | ⟨-, -, -, ⟨rfl, rfl⟩ | ⟨rfl, rfl⟩⟩⟩
      · exact Or.inr ⟨hxy, hedge⟩
      · exact absurd hxy hlt.asymm
      · exact Or.inl ⟨rfl, rfl⟩
    · rintro (⟨rfl, rfl⟩ | ⟨hxy, hedge⟩)
      · exact ⟨hlt, Or.inr ⟨ha, hb, hab, Or.inr ⟨rfl, rfl⟩⟩⟩
      · exact ⟨hxy, Or.inl hedge⟩

theorem WellFormed.edgeCount_withEdge (hg : g.WellFormed) (hcount : g.edgeCount = g.adjacentPairs.card) :
    (g.withEdge a b).edgeCount = (g.withEdge a b).adjacentPairs.card := by
  rcases withEdge_cases g a b with ⟨-, e⟩ | ⟨ha, hb, hab, hnew, e⟩
  · rw [e]; exact hcount
  · have hnot : (min a b, max a b) ∉ g.adjacentPairs := by
      rw [hg.mem_adjacentPairs]
      rintro ⟨-, hedge⟩
      rcases le_total a b with hle | hle
      · rw [min_eq_left hle, max_eq_right hle, hnew] at hedge; cases hedge
      · rw [min_eq_right hle, max_eq_left hle, hg.hasEdge_comm, hnew] at hedge; cases hedge
    rw [hg.adjacentPairs_withEdge ha hb hab, Finset.card_insert_of_notMem hnot, ← hcount, e]

/-- **Every edge is counted once.** -/
theorem edgeCount_after (calls : List GraphCall) :
    (after calls).edgeCount = (after calls).adjacentPairs.card := by
  induction calls using List.reverseRecOn with
  | nil => rfl
  | append_singleton calls c ih =>
    have hg : (after calls).WellFormed := wellFormed_after calls
    rw [after_concat]
    cases c with
    | addNode t =>
      have hedges : ((after calls).withNode t).edgeCount = (after calls).edgeCount := by
        rcases withNode_cases (after calls) t with ⟨-, e⟩ | ⟨-, -, e⟩ <;> rw [e]
      rw [call, hedges, hg.adjacentPairs_congr (hg.withNode t) fun _ _ => hasEdge_withNode, ih]
    | addEdge a b => exact hg.edgeCount_withEdge ih
    | remove t =>
      have hedges : ((after calls).remove t).edgeCount = (after calls).edgeCount := by
        unfold Graph.remove; split <;> rfl
      rw [call, hedges, hg.adjacentPairs_congr (hg.remove t) fun _ _ => hasEdge_remove, ih]
    | setPressure p => exact ih

theorem presentIn_neighbors : g.presentIn (g.neighbors t) = g.degreeIn g.present t := by
  have hnodup : ((g.neighbors t).keys.filter g.hasNode).Nodup := (DenseSet.nodup_keys _).filter _
  rw [presentIn, List.countP_eq_length_filter, ← List.toFinset_card_of_nodup hnodup, degreeIn]
  congr 1
  ext u
  rw [List.mem_toFinset, List.mem_filter, mem_neighbors_keys, Finset.mem_filter, mem_present, and_comm]

/-- Counting the degrees anew finds no difference. -/
theorem WellFormed.checkDegrees (hg : g.WellFormed) : g.checkDegrees = .ok () := by
  have hnone : (g.nodes.find? fun n => n.present && g.presentIn n.neighbors != n.degree) = none := by
    rw [List.find?_eq_none]
    intro n hn
    have hfound : g.node? n.temp = some n := node?_of_mem hg.nodup hn
    by_cases hp : n.present = true
    · have hnode : g.hasNode n.temp = true := by simp [hasNode, hfound, hp]
      have hdegree := hg.degree n.temp hnode
      rw [← presentIn_neighbors] at hdegree
      simp only [neighbors, Graph.degree, hfound] at hdegree
      simp [hdegree]
    · simp [hp]
  rw [Graph.checkDegrees, hnone]

/-! ## Whole runs -/

/-- What is known of a graph from the calls that made it. -/
structure MadeBy (g : Graph) (calls : List GraphCall) : Prop where
  /-- The nodes are listed once each, in the order of their first addition. -/
  nodup : g.temps.Nodup
  temps : g.temps = (calls.filterMap GraphCall.added?).eraseDups
  /-- The present ones are those that were never removed. -/
  hasNode : ∀ t, g.hasNode t = true ↔ t ∈ g.temps ∧ ¬ Retired calls t
  /-- Adjacency is symmetric, without loops, and between nodes only. -/
  symm : ∀ a b, g.hasEdge a b = true → g.hasEdge b a = true
  loopless : ∀ a, g.hasEdge a a = false
  ends : ∀ a b, g.hasEdge a b = true → a ∈ g.temps ∧ b ∈ g.temps
  /-- A removed node keeps all its neighbours, and so does every other one. -/
  neighbors : ∀ t, g.neighbors t = (after (calls.filter fun c => !c.removes)).neighbors t
  /-- Present nodes know the number of their present neighbours. -/
  degree : ∀ t, g.hasNode t = true → g.degree t = g.degreeIn g.present t
  checkDegrees : g.checkDegrees = .ok ()
  edgeCount : g.edgeCount = g.adjacentPairs.card

/-- **Every graph is what its calls made it.** -/
theorem madeBy_after (calls : List GraphCall) : (after calls).MadeBy calls := by
  have hg : (after calls).WellFormed := wellFormed_after calls
  refine ⟨hg.nodup, temps_after calls, hasNode_after calls, hg.symm, hg.loopless, fun a b hedge => ?_,
    (sameRows_after calls).neighbors, hg.degree, hg.checkDegrees, edgeCount_after calls⟩
  exact ⟨known_iff_mem.1 (known_of_hasEdge hedge), known_iff_mem.1 (hg.known_right hedge)⟩

end Graph

end Straightline
