/-
  Graphs under any sequence of calls.

  A graph is changed by adding nodes, adding edges, removing nodes and noting a
  pressure; a call that breaks its precondition leaves it as it was.

  * `Graph.call`, `Graph.after`: one call, and the graph after a whole sequence;
  * `Graph.WellFormed`: nodes are listed once, adjacency is symmetric and
    without loops, and the stored degree of a present node is the number of its
    present neighbours;
  * `Graph.wellFormed_after`: every graph that calls can make is well formed;
  * `hasNode_remove`, `hasEdge_remove`, `degree_remove` and their likes say what
    each call does to what can be seen of a graph.
-/
import Mathlib.Data.Finset.Card
import Straightline.Interference.Build
import Straightline.Proofs.DenseSet

namespace Straightline

/-- A call that changes a graph. -/
inductive GraphCall where
  | addNode (t : Temp)
  | addEdge (a b : Temp)
  | remove (t : Temp)
  | setPressure (p : Int)
  deriving DecidableEq

namespace Graph

/-- The graph after one call; a call that ends with a fault changes nothing. -/
def call (g : Graph) : GraphCall → Graph
  | .addNode t => g.withNode t
  | .addEdge a b => g.withEdge a b
  | .remove t => g.remove t
  | .setPressure p => { g with pressure := p }

/-- The graph after some calls, made one after the other on an empty graph. -/
def after (calls : List GraphCall) : Graph :=
  calls.foldl call empty

/-- The nodes that were not removed, as a set. -/
def present (g : Graph) : Finset Temp :=
  g.temps.toFinset.filter fun t => g.hasNode t

/-- The number of neighbours of a temp in a set. -/
def degreeIn (g : Graph) (S : Finset Temp) (t : Temp) : Nat :=
  (S.filter fun u => g.hasEdge t u).card

/-- What holds of every graph that calls can make. -/
structure WellFormed (g : Graph) : Prop where
  nodup : g.temps.Nodup
  nonneg : ∀ t, g.known t = true → 0 ≤ t
  symm : ∀ a b, g.hasEdge a b = true → g.hasEdge b a = true
  loopless : ∀ a, g.hasEdge a a = false
  degree : ∀ t, g.hasNode t = true → g.degree t = g.degreeIn g.present t

/-! ## Looking -/

section
variable {g : Graph} {t u a b : Temp} {n : Node}

theorem temp_of_node? (h : g.node? t = some n) : n.temp = t := by
  simpa using List.find?_some h

theorem known_iff_mem : g.known t = true ↔ t ∈ g.temps := by
  simp [known, node?, temps, List.find?_isSome]

theorem known_of_hasNode (h : g.hasNode t = true) : g.known t = true := by
  simp only [hasNode, Option.any_eq_true] at h
  obtain ⟨n, hn, -⟩ := h
  simp [known, hn]

theorem mem_present : t ∈ g.present ↔ g.hasNode t = true := by
  simp only [present, Finset.mem_filter, List.mem_toFinset, and_iff_right_iff_imp]
  exact fun h => known_iff_mem.1 (known_of_hasNode h)

theorem known_of_hasEdge (h : g.hasEdge a b = true) : g.known a = true := by
  rcases hn : g.node? a with _ | n
  · simp only [hasEdge, neighbors, hn] at h
    exact absurd h (DenseSet.not_contains_empty b)
  · simp [known, hn]

theorem WellFormed.known_right (hg : g.WellFormed) (h : g.hasEdge a b = true) : g.known b = true :=
  known_of_hasEdge (hg.symm a b h)

theorem WellFormed.ne_of_hasEdge (hg : g.WellFormed) (h : g.hasEdge a b = true) : a ≠ b := by
  rintro rfl
  rw [hg.loopless a] at h; cases h

theorem mem_neighbors_keys : b ∈ (g.neighbors a).keys ↔ g.hasEdge a b = true := DenseSet.mem_keys

/-- Of nodes with different temps, a node is found under its own temp. -/
theorem node?_of_mem (hg : g.temps.Nodup) (h : n ∈ g.nodes) : g.node? n.temp = some n := by
  rw [node?, List.find?_eq_some_iff_append]
  obtain ⟨pre, post, hsplit⟩ := List.append_of_mem h
  refine ⟨by simp, pre, post, hsplit, fun m hm => ?_⟩
  rw [temps, hsplit, List.map_append, List.map_cons] at hg
  have hne : m.temp ≠ n.temp := fun e =>
    List.disjoint_of_nodup_append hg (List.mem_map_of_mem (f := (·.temp)) hm) (by simp [e])
  simpa using hne

end

/-! ## Changing nodes -/

section
variable (g : Graph) (t u : Temp)

theorem node?_mapNodes {f : Node → Node} (hf : ∀ n, (f n).temp = n.temp) :
    ({ g with nodes := g.nodes.map f } : Graph).node? u = (g.node? u).map f := by
  simp only [node?, List.find?_map]
  congr 2
  funext n
  simp [hf]

theorem temps_mapNodes {f : Node → Node} (hf : ∀ n, (f n).temp = n.temp) :
    ({ g with nodes := g.nodes.map f } : Graph).temps = g.temps := by
  simp [temps, Function.comp_def, hf]

theorem node?_modifyNode {f : Node → Node} (hf : ∀ n, (f n).temp = n.temp) :
    (g.modifyNode t f).node? u = (g.node? u).map fun n => if u = t then f n else n := by
  rw [modifyNode, node?_mapNodes]
  · rcases hn : g.node? u with _ | n
    · rfl
    · simp only [Option.map_some, temp_of_node? hn]
  · intro n; split
    · exact hf n
    · rfl

theorem temps_modifyNode {f : Node → Node} (hf : ∀ n, (f n).temp = n.temp) :
    (g.modifyNode t f).temps = g.temps := by
  rw [modifyNode, temps_mapNodes]
  intro n; split
  · exact hf n
  · rfl

end

/-! ## Adding a node -/

section
variable {g : Graph} {t u a b : Temp}

/-- Adding a node either does nothing or puts a node without neighbours last. -/
theorem withNode_cases (g : Graph) (t : Temp) :
    ((t < 0 ∨ g.known t = true) ∧ g.withNode t = g) ∨
      (0 ≤ t ∧ g.known t = false ∧
        g.withNode t = { g with nodes := g.nodes ++ [⟨t, true, ∅, 0⟩] }) := by
  unfold withNode addNode
  by_cases ht : t < 0
  · exact Or.inl ⟨Or.inl ht, by simp [ht]⟩
  · by_cases hk : g.known t = true
    · exact Or.inl ⟨Or.inr hk, by simp [ht, hk]⟩
    · exact Or.inr ⟨not_lt.1 ht, by simpa using hk, by simp [ht, hk]⟩

theorem node?_withNode_new (h : g.known t = false) :
    ({ g with nodes := g.nodes ++ [⟨t, true, ∅, 0⟩] } : Graph).node? u =
      if u = t then some ⟨t, true, ∅, 0⟩ else g.node? u := by
  have hnone : g.node? t = none := by simpa [known] using h
  simp only [node?, List.find?_append] at hnone ⊢
  by_cases hu : u = t
  · subst hu; rw [hnone]; simp
  · simp [hu, Ne.symm hu]

theorem known_withNode :
    (g.withNode t).known u = true ↔ g.known u = true ∨ (u = t ∧ 0 ≤ t) := by
  rcases withNode_cases g t with ⟨h, e⟩ | ⟨h, hk, e⟩
  · rw [e]
    refine ⟨Or.inl, ?_⟩
    rintro (hu | ⟨rfl, hu⟩)
    · exact hu
    · exact h.resolve_left (not_lt.2 hu)
  · rw [e]
    by_cases hu : u = t
    · simp [known, node?_withNode_new hk, hu, h]
    · simp [known, node?_withNode_new hk, hu]

theorem hasNode_withNode_new (hk : g.known t = false) :
    ({ g with nodes := g.nodes ++ [⟨t, true, ∅, 0⟩] } : Graph).hasNode u = true ↔
      u = t ∨ g.hasNode u = true := by
  by_cases hu : u = t
  · simp [hasNode, node?_withNode_new hk, hu]
  · simp [hasNode, node?_withNode_new hk, hu]

/-- If all nodes are present, so they are with one more. -/
theorem hasNode_withNode_of_known (hg : ∀ u, g.known u = true → g.hasNode u = true)
    (hu : (g.withNode t).known u = true) : (g.withNode t).hasNode u = true := by
  rcases withNode_cases g t with ⟨-, e⟩ | ⟨-, hk, e⟩
  · rw [e] at hu ⊢; exact hg u hu
  · rw [e, hasNode_withNode_new hk]
    rcases known_withNode.1 hu with h | ⟨h, -⟩
    · exact Or.inr (hg u h)
    · exact Or.inl h

theorem hasEdge_withNode : (g.withNode t).hasEdge a b = g.hasEdge a b := by
  rcases withNode_cases g t with ⟨-, e⟩ | ⟨-, hk, e⟩
  · rw [e]
  · have hnone : g.node? t = none := by simpa [known] using hk
    rw [e]
    simp only [hasEdge, neighbors, node?_withNode_new hk]
    by_cases ha : a = t
    · subst ha; simp [hnone]
    · simp [ha]

theorem pressure_withNode : (g.withNode t).pressure = g.pressure := by
  rcases withNode_cases g t with ⟨-, e⟩ | ⟨-, -, e⟩ <;> rw [e]

theorem degreeIn_congr {h : Graph} {S : Finset Temp} (he : ∀ u, h.hasEdge t u = g.hasEdge t u) :
    h.degreeIn S t = g.degreeIn S t := by
  simp only [degreeIn, he]

/-- A temp without an edge to `a` has as many neighbours without `a`. -/
theorem degreeIn_insert_of_not {S : Finset Temp} (h : g.hasEdge t a = false) :
    g.degreeIn (insert a S) t = g.degreeIn S t := by
  simp [degreeIn, Finset.filter_insert, h]

/-- A new node has no neighbours, and no node gets a neighbour by it. -/
theorem WellFormed.degree_withNode_new (hg : g.WellFormed) (hk : g.known t = false)
    (hu : u = t ∨ g.hasNode u = true) :
    ({ g with nodes := g.nodes ++ [⟨t, true, ∅, 0⟩] } : Graph).degree u =
      g.degreeIn (insert t g.present) u := by
  have hnone : g.hasEdge u t = false := by
    by_contra h
    rw [hg.known_right (by simpa using h)] at hk; cases hk
  rw [degreeIn_insert_of_not hnone]
  by_cases h : u = t
  · subst h
    have hzero : g.degreeIn g.present u = 0 := by
      simp only [degreeIn, Finset.card_eq_zero, Finset.filter_eq_empty_iff]
      intro x _ hx
      rw [known_of_hasEdge hx] at hk; cases hk
    rw [hzero]; simp [Graph.degree, node?_withNode_new hk]
  · rw [← hg.degree u (hu.resolve_left h)]
    simp [Graph.degree, node?_withNode_new hk, h]

theorem WellFormed.withNode (hg : g.WellFormed) (t : Temp) : (g.withNode t).WellFormed := by
  rcases withNode_cases g t with ⟨-, e⟩ | ⟨ht, hk, e⟩
  · rw [e]; exact hg
  have hedge : ∀ a b, (g.withNode t).hasEdge a b = g.hasEdge a b := fun _ _ => hasEdge_withNode
  refine ⟨?_, ?_, ?_, ?_, ?_⟩
  · have hnot : t ∉ g.temps := fun h => by rw [known_iff_mem.2 h] at hk; cases hk
    rw [e]
    simp only [temps, List.map_append, List.map_cons, List.map_nil]
    exact List.nodup_append.2 ⟨hg.nodup, by simp, by
      rintro x hx y hy rfl
      exact hnot (by rw [List.mem_singleton] at hy; exact hy ▸ hx)⟩
  · intro u hu
    rcases known_withNode.1 hu with h | ⟨rfl, h⟩
    · exact hg.nonneg u h
    · exact h
  · intro a b h
    rw [hedge] at h ⊢; exact hg.symm a b h
  · intro a; rw [hedge]; exact hg.loopless a
  · intro u hu
    have hpresent : (g.withNode t).present = insert t g.present := by
      ext x; rw [mem_present, e, hasNode_withNode_new hk, Finset.mem_insert, mem_present]
    rw [hpresent, degreeIn_congr (hedge u)]
    rw [e, hasNode_withNode_new hk] at hu
    rw [e]; exact hg.degree_withNode_new hk hu

end

/-! ## Adding an edge -/

section
variable {g : Graph} {t u a b : Temp}

/-- Two nodes linked, before the edge is counted. -/
def linked (g : Graph) (a b : Temp) : Graph :=
  (g.modifyNode a (linkTo b (g.hasNode b))).modifyNode b (linkTo a (g.hasNode a))

/-- Adding an edge either does nothing or links two nodes that were not adjacent. -/
theorem withEdge_cases (g : Graph) (a b : Temp) :
    ((g.known a = false ∨ g.known b = false ∨ a = b ∨ g.hasEdge a b = true) ∧ g.withEdge a b = g) ∨
      (g.known a = true ∧ g.known b = true ∧ a ≠ b ∧ g.hasEdge a b = false ∧
        g.withEdge a b = { g.linked a b with edgeCount := g.edgeCount + 1 }) := by
  unfold withEdge addEdge
  by_cases ha : g.known a = true
  · by_cases hb : g.known b = true
    · by_cases h : a = b ∨ g.hasEdge a b = true
      · exact Or.inl ⟨Or.inr (Or.inr h), by simp [ha, hb, h]⟩
      · have h' := not_or.1 h
        exact Or.inr ⟨ha, hb, h'.1, by simpa using h'.2, by simp [ha, hb, h, linked]⟩
    · exact Or.inl ⟨Or.inr (Or.inl (by simpa using hb)), by simp [hb]⟩
  · exact Or.inl ⟨Or.inl (by simpa using ha), by simp [ha]⟩

theorem temp_linkTo (other : Temp) (p : Bool) (n : Node) : (linkTo other p n).temp = n.temp := rfl

theorem node?_linked (hab : a ≠ b) : (g.linked a b).node? u = (g.node? u).map fun n =>
    if u = a then linkTo b (g.hasNode b) n else if u = b then linkTo a (g.hasNode a) n else n := by
  rw [linked, node?_modifyNode _ _ _ (temp_linkTo _ _), node?_modifyNode _ _ _ (temp_linkTo _ _),
    Option.map_map]
  congr 1
  funext n
  by_cases ha : u = a
  · have : u ≠ b := fun h => hab (ha.symm.trans h)
    simp [ha, hab]
  · simp [ha]

theorem temps_linked : (g.linked a b).temps = g.temps := by
  rw [linked, temps_modifyNode _ _ (temp_linkTo _ _), temps_modifyNode _ _ (temp_linkTo _ _)]

theorem temps_withEdge : (g.withEdge a b).temps = g.temps := by
  rcases withEdge_cases g a b with ⟨-, e⟩ | ⟨-, -, -, -, e⟩
  · rw [e]
  · rw [e]; exact temps_linked

theorem known_withEdge : (g.withEdge a b).known u = g.known u := by
  rw [Bool.eq_iff_iff, known_iff_mem, known_iff_mem, temps_withEdge]

theorem pressure_withEdge : (g.withEdge a b).pressure = g.pressure := by
  rcases withEdge_cases g a b with ⟨-, e⟩ | ⟨-, -, -, -, e⟩ <;> rw [e]
  rfl

theorem hasNode_linked (hab : a ≠ b) : (g.linked a b).hasNode u = g.hasNode u := by
  rcases hn : g.node? u with _ | n
  · simp [hasNode, node?_linked hab, hn]
  · simp only [hasNode, node?_linked hab, hn, Option.map_some, Option.any_some]
    split
    · rfl
    · split <;> rfl

theorem hasNode_withEdge : (g.withEdge a b).hasNode u = g.hasNode u := by
  rcases withEdge_cases g a b with ⟨-, e⟩ | ⟨-, -, hab, -, e⟩
  · rw [e]
  · rw [e]; exact hasNode_linked hab

theorem contains_put_toNat {s : DenseSet} (ha : 0 ≤ a) :
    (s.put a.toNat).contains t = true ↔ t = a ∨ s.contains t = true := by
  rw [DenseSet.contains_put, Int.toNat_of_nonneg ha]

theorem hasEdge_linked (hab : a ≠ b) (ha : g.known a = true) (hb : g.known b = true) (ha₀ : 0 ≤ a)
    (hb₀ : 0 ≤ b) : (g.linked a b).hasEdge t u = true ↔
      g.hasEdge t u = true ∨ (t = a ∧ u = b) ∨ (t = b ∧ u = a) := by
  simp only [hasEdge, neighbors, node?_linked hab]
  rcases hn : g.node? t with _ | n
  · have hta : t ≠ a := by rintro rfl; simp [known, hn] at ha
    have htb : t ≠ b := by rintro rfl; simp [known, hn] at hb
    simp [hta, htb]
  · simp only [Option.map_some]
    by_cases hta : t = a
    · have htb : t ≠ b := fun h => hab (hta.symm.trans h)
      simp only [hta, if_true, linkTo, contains_put_toNat hb₀]
      simp [hab, or_comm]
    · by_cases htb : t = b
      · simp only [htb, hab.symm, if_true, if_false, linkTo, contains_put_toNat ha₀]
        simp [or_comm]
      · simp [hta, htb]

/-- An edge is there if it was there, or if it is the one that was added. -/
theorem WellFormed.hasEdge_withEdge (hg : g.WellFormed) : (g.withEdge a b).hasEdge t u = true ↔
    g.hasEdge t u = true ∨ (g.known a = true ∧ g.known b = true ∧ a ≠ b ∧
      ((t = a ∧ u = b) ∨ (t = b ∧ u = a))) := by
  rcases withEdge_cases g a b with ⟨h, e⟩ | ⟨ha, hb, hab, -, e⟩
  · rw [e]
    refine ⟨Or.inl, ?_⟩
    rintro (he | ⟨ha, hb, hab, hends⟩)
    · exact he
    · have hedge : g.hasEdge a b = true := by simpa [ha, hb, hab] using h
      rcases hends with ⟨rfl, rfl⟩ | ⟨rfl, rfl⟩
      · exact hedge
      · exact hg.symm _ _ hedge
  · rw [e]
    refine (hasEdge_linked hab ha hb (hg.nonneg a ha) (hg.nonneg b hb)).trans ?_
    simp [ha, hb, hab]

/-- One more neighbour counts if it is in the set. -/
theorem degreeIn_insert_edge {h : Graph} {S : Finset Temp} (hnew : g.hasEdge t a = false)
    (he : ∀ u, h.hasEdge t u = true ↔ g.hasEdge t u = true ∨ u = a) :
    h.degreeIn S t = g.degreeIn S t + if a ∈ S then 1 else 0 := by
  simp only [degreeIn, he]
  rw [Finset.filter_or, Finset.filter_eq']
  split
  · rw [Finset.card_union_of_disjoint (by simp [hnew]), Finset.card_singleton]
  · simp

theorem degree_linked (hab : a ≠ b) (ha : g.known a = true) (hb : g.known b = true) :
    (g.linked a b).degree t = g.degree t +
      if t = a then (g.hasNode b).toNat else if t = b then (g.hasNode a).toNat else 0 := by
  simp only [degree, node?_linked hab]
  rcases hn : g.node? t with _ | n
  · have hta : t ≠ a := by rintro rfl; simp [known, hn] at ha
    have htb : t ≠ b := by rintro rfl; simp [known, hn] at hb
    simp [hta, htb]
  · simp only [Option.map_some]
    split
    · rfl
    · split <;> rfl

/-- The ends of a new edge get one more neighbour, if that one is present, and it is
    counted exactly then. -/
theorem WellFormed.degree_withEdge (hg : g.WellFormed) (ht : g.hasNode t = true) :
    (g.withEdge a b).degree t = (g.withEdge a b).degreeIn g.present t := by
  have hedge : ∀ u, (g.withEdge a b).hasEdge t u = true ↔ _ := fun _ => hg.hasEdge_withEdge
  rcases withEdge_cases g a b with ⟨-, e⟩ | ⟨ha, hb, hab, hnew, e⟩
  · rw [e]; exact hg.degree t ht
  have hnew' : g.hasEdge b a = false := by
    by_contra h
    rw [hg.symm b a (by simpa using h)] at hnew; cases hnew
  have hdeg : (g.withEdge a b).degree t = (g.linked a b).degree t := by rw [e]; rfl
  have hcount : ∀ c : Temp, (g.hasNode c).toNat = if c ∈ g.present then 1 else 0 := by
    intro c; by_cases h : g.hasNode c = true <;> simp [mem_present, h]
  rw [hdeg, degree_linked hab ha hb, hg.degree t ht]
  by_cases hta : t = a
  · subst hta
    rw [if_pos rfl, hcount]
    exact (degreeIn_insert_edge hnew fun u => by rw [hedge]; simp [ha, hb, hab]).symm
  · by_cases htb : t = b
    · subst htb
      rw [if_neg hta, if_pos rfl, hcount]
      exact (degreeIn_insert_edge hnew' fun u => by rw [hedge]; simp [ha, hb, hab, hta]).symm
    · rw [if_neg hta, if_neg htb, Nat.add_zero]
      exact (degreeIn_congr fun u => by rw [Bool.eq_iff_iff, hedge]; simp [hta, htb]).symm

theorem WellFormed.withEdge (hg : g.WellFormed) (a b : Temp) : (g.withEdge a b).WellFormed := by
  have hedge : ∀ t u, (g.withEdge a b).hasEdge t u = true ↔ _ := fun _ _ => hg.hasEdge_withEdge
  refine ⟨by rw [temps_withEdge]; exact hg.nodup, ?_, ?_, ?_, ?_⟩
  · intro t ht
    rw [known_withEdge] at ht; exact hg.nonneg t ht
  · intro t u h
    rw [hedge] at h ⊢
    exact h.imp (hg.symm t u) fun ⟨h₁, h₂, h₃, h₄⟩ => ⟨h₁, h₂, h₃, h₄.symm.imp And.symm And.symm⟩
  · intro t
    rw [← Bool.not_eq_true, hedge]
    rintro (h | ⟨-, -, hab, ⟨rfl, rfl⟩ | ⟨rfl, rfl⟩⟩)
    · rw [hg.loopless t] at h; cases h
    · exact hab rfl
    · exact hab rfl
  · intro t ht
    rw [hasNode_withEdge] at ht
    have hpresent : (g.withEdge a b).present = g.present := by
      ext x; rw [mem_present, mem_present, hasNode_withEdge]
    rw [hpresent]
    exact hg.degree_withEdge ht

end

/-! ## Removing a node -/

section
variable {g : Graph} {t u a b : Temp}

theorem temp_unlink (gone : DenseSet) (n : Node) : (unlink gone n).temp = n.temp := by
  unfold unlink; split <;> rfl

theorem present_unlink (gone : DenseSet) (n : Node) : (unlink gone n).present = n.present := by
  unfold unlink; split <;> rfl

theorem neighbors_unlink (gone : DenseSet) (n : Node) : (unlink gone n).neighbors = n.neighbors := by
  unfold unlink; split <;> rfl

theorem node?_remove (h : g.hasNode t = true) : (g.remove t).node? u =
    (g.node? u).map fun n => unlink (g.neighbors t) (if u = t then { n with present := false } else n) := by
  rw [remove, if_pos h]
  refine (node?_mapNodes (g.modifyNode t _) u (temp_unlink _)).trans ?_
  rw [node?_modifyNode _ _ _ (by exact fun _ => rfl), Option.map_map]
  rfl

theorem temps_remove : (g.remove t).temps = g.temps := by
  unfold remove
  split
  · exact (temps_mapNodes (g.modifyNode t _) (temp_unlink _)).trans
      (temps_modifyNode g t (by exact fun _ => rfl))
  · rfl

theorem known_remove : (g.remove t).known u = g.known u := by
  rw [Bool.eq_iff_iff, known_iff_mem, known_iff_mem, temps_remove]

theorem rank_remove : (g.remove t).rank u = g.rank u := by
  rw [rank, rank, known_remove, temps_remove]

theorem pressure_remove : (g.remove t).pressure = g.pressure := by
  unfold remove; split <;> rfl

theorem neighbors_remove : (g.remove t).neighbors u = g.neighbors u := by
  by_cases h : g.hasNode t = true
  · simp only [neighbors, node?_remove h]
    rcases g.node? u with _ | n
    · rfl
    · simp only [Option.map_some, neighbors_unlink]; split <;> rfl
  · rw [remove, if_neg h]

theorem hasEdge_remove : (g.remove t).hasEdge a b = g.hasEdge a b := by
  rw [hasEdge, neighbors_remove, hasEdge]

theorem hasNode_remove : (g.remove t).hasNode u = true ↔ u ≠ t ∧ g.hasNode u = true := by
  by_cases h : g.hasNode t = true
  · rw [hasNode, node?_remove h]
    rcases hn : g.node? u with _ | n
    · simp [hasNode, hn]
    · simp only [Option.map_some, Option.any_some, present_unlink, hasNode, hn]
      by_cases hu : u = t
      · simp [hu]
      · simp [hu]
  · rw [remove, if_neg h]
    refine ⟨fun hu => ⟨?_, hu⟩, And.right⟩
    rintro rfl; exact h hu

theorem present_remove : (g.remove t).present = g.present.erase t := by
  ext u; rw [mem_present, hasNode_remove, Finset.mem_erase, mem_present]

/-- Removing a node takes one off the degree of its present neighbours. -/
theorem degree_remove (ht : g.hasNode t = true) (hu : g.hasNode u = true) (hne : u ≠ t) :
    (g.remove t).degree u = g.degree u - (g.hasEdge t u).toNat := by
  simp only [hasNode, Option.any_eq_true] at hu
  obtain ⟨n, hn, hp⟩ := hu
  have htemp := temp_of_node? hn
  simp only [degree, node?_remove ht, hn, Option.map_some, if_neg hne, unlink, hp, htemp, hasEdge,
    Bool.true_and]
  cases (g.neighbors t).contains u <;> simp

theorem degreeIn_erase {S : Finset Temp} (ht : t ∈ S) :
    g.degreeIn (S.erase t) u = g.degreeIn S u - (g.hasEdge u t).toNat := by
  have herase : (S.erase t).filter (fun x => g.hasEdge u x = true) =
      (S.filter fun x => g.hasEdge u x = true).erase t := by
    ext x; simp only [Finset.mem_filter, Finset.mem_erase]; tauto
  rw [degreeIn, degreeIn, herase]
  by_cases h : g.hasEdge u t = true
  · rw [Finset.card_erase_of_mem (by simp [ht, h]), h]; rfl
  · rw [Finset.erase_eq_of_notMem (by simp [h])]; simp [h]

theorem WellFormed.hasEdge_comm (hg : g.WellFormed) : g.hasEdge a b = g.hasEdge b a := by
  rw [Bool.eq_iff_iff]; exact ⟨hg.symm a b, hg.symm b a⟩

theorem WellFormed.remove (hg : g.WellFormed) (t : Temp) : (g.remove t).WellFormed := by
  refine ⟨by rw [temps_remove]; exact hg.nodup, ?_, ?_, ?_, ?_⟩
  · intro u hu
    rw [known_remove] at hu; exact hg.nonneg u hu
  · intro a b h
    rw [hasEdge_remove] at h ⊢; exact hg.symm a b h
  · intro a
    rw [hasEdge_remove]; exact hg.loopless a
  · intro u hu
    by_cases ht : g.hasNode t = true
    · obtain ⟨hne, hu⟩ := hasNode_remove.1 hu
      rw [degree_remove ht hu hne, hg.degree u hu, present_remove,
        degreeIn_congr (g := g) fun _ => hasEdge_remove, degreeIn_erase (mem_present.2 ht),
        hg.hasEdge_comm]
    · rw [Graph.remove, if_neg ht] at hu ⊢; exact hg.degree u hu

end

/-! ## Sequences of calls -/

section
variable {g : Graph}

theorem WellFormed.setPressure (hg : g.WellFormed) (p : Int) :
    ({ g with pressure := p } : Graph).WellFormed :=
  ⟨hg.nodup, hg.nonneg, hg.symm, hg.loopless, hg.degree⟩

theorem wellFormed_empty : empty.WellFormed := by
  refine ⟨List.nodup_nil, ?_, ?_, ?_, ?_⟩
  · intro t h; simp [known, node?, empty] at h
  · intro a b h
    have := known_of_hasEdge h
    simp [known, node?, empty] at this
  · intro a
    by_contra h
    have := known_of_hasEdge (by simpa using h)
    simp [known, node?, empty] at this
  · intro t h; simp [hasNode, node?, empty] at h

theorem WellFormed.call (hg : g.WellFormed) (c : GraphCall) : (g.call c).WellFormed := by
  cases c with
  | addNode t => exact hg.withNode t
  | addEdge a b => exact hg.withEdge a b
  | remove t => exact hg.remove t
  | setPressure p => exact hg.setPressure p

/-- **Every sequence of calls makes a well-formed graph.** -/
theorem wellFormed_after (calls : List GraphCall) : (after calls).WellFormed := by
  have h : ∀ g : Graph, g.WellFormed → (calls.foldl Graph.call g).WellFormed := by
    induction calls with
    | nil => exact fun _ hg => hg
    | cons c calls ih => exact fun g hg => ih _ (hg.call c)
  exact h _ wellFormed_empty

end

end Graph

end Straightline
