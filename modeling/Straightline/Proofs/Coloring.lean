/-
  Coloring never breaks its own invariants.

  Nodes get their colors in the reverse order of their removal.  When a node is
  colored, its colored neighbours are those that were present when it was
  removed, and these were fewer than there are colors.

  * `Proper`: every node has a register, and adjacent nodes have different ones;
  * `verify_eq_ok_iff`: verification accepts exactly the proper assignments;
  * `Colors`: what holds of the colors given so far, and `colorNode_spec`: one
    more node with fewer than `k` colored neighbours gets a color that keeps it;
  * `selectColors_spec`: hence a graph that was peeled off completely is colored;
  * `color_total`: coloring ends with a proper assignment or asks for a spill.
-/
import Mathlib
import Straightline.Coloring.Select
import Straightline.Proofs.Simplify

namespace Straightline

/-! ## Maps -/

namespace TempMap

variable {α β : Type} {m : TempMap α} {t u : Temp} {a : α}

theorem get?_empty : (empty : TempMap α).get? t = none := rfl

theorem lookup_cons (e : Temp × α) (es : List (Temp × α)) :
    (e :: es).lookup u = if u = e.1 then some e.2 else es.lookup u := by
  rw [List.lookup_cons]
  by_cases h : u = e.1
  · simp [h]
  · rw [beq_eq_false_iff_ne.2 h, if_neg h]

theorem lookup_insertEntry (es : List (Temp × α)) :
    (insertEntry t a es).lookup u = if u = t then some a else es.lookup u := by
  induction es with
  | nil => exact lookup_cons (t, a) []
  | cons e es ih =>
    rw [insertEntry]
    by_cases hlt : t < e.1
    · rw [if_pos hlt, lookup_cons]
    · rw [if_neg hlt]
      by_cases he : t = e.1
      · rw [if_pos he, lookup_cons, lookup_cons, ← he]
        split <;> rfl
      · rw [if_neg he, lookup_cons, lookup_cons, ih]
        by_cases h : u = t
        · rw [if_pos h, if_pos h, if_neg (h ▸ he)]
        · rw [if_neg h, if_neg h]

theorem get?_insert : (m.insert t a).get? u = if u = t then some a else m.get? u :=
  lookup_insertEntry m.entries

theorem get?_map (f : α → β) : (m.map f).get? t = (m.get? t).map f := by
  simp only [get?, map]
  induction m.entries with
  | nil => rfl
  | cons e es ih =>
    rw [List.map_cons, lookup_cons, lookup_cons, ih]
    split <;> rfl

end TempMap

namespace Graph

/-! ## Verification -/

/-- Every node has a register, and the two ends of an edge have different ones. -/
structure Proper (g : Graph) (asg : Assignment) : Prop where
  colored : ∀ t, g.known t = true → (asg.get? t).isSome = true
  distinct : ∀ a b, g.hasEdge a b = true → asg.get? a ≠ asg.get? b

section
variable {g : Graph} {asg : Assignment} {a b : Temp}

theorem mem_edges (hg : g.temps.Nodup) : (a, b) ∈ g.edges ↔ a < b ∧ g.hasEdge a b = true := by
  rw [edges, (List.mergeSort_perm _ _).mem_iff, List.mem_flatMap]
  simp only [upwardEdges, List.mem_map, List.mem_filter, DenseSet.mem_keys, decide_eq_true_eq,
    Prod.mk.injEq]
  constructor
  · rintro ⟨n, hn, t, ⟨ht, hlt⟩, rfl, rfl⟩
    exact ⟨hlt, by simpa [hasEdge, neighbors, node?_of_mem hg hn] using ht⟩
  · rintro ⟨hlt, he⟩
    rcases hn : g.node? a with _ | n
    · simp only [hasEdge, neighbors, hn] at he
      exact absurd he (DenseSet.not_contains_empty b)
    · have htemp := temp_of_node? hn
      simp only [hasEdge, neighbors, hn] at he
      exact ⟨n, List.mem_of_find?_eq_some hn, b, ⟨he, htemp ▸ hlt⟩, htemp, rfl⟩

/-- Every edge is listed, from its lower end. -/
theorem WellFormed.hasEdge_iff_mem_edges (hg : g.WellFormed) :
    g.hasEdge a b = true ↔ (a, b) ∈ g.edges ∨ (b, a) ∈ g.edges := by
  rw [mem_edges hg.nodup, mem_edges hg.nodup]
  constructor
  · intro he
    rcases lt_or_gt_of_ne (hg.ne_of_hasEdge he) with hlt | hlt
    · exact Or.inl ⟨hlt, he⟩
    · exact Or.inr ⟨hlt, hg.symm a b he⟩
  · rintro (⟨-, he⟩ | ⟨-, he⟩)
    · exact he
    · exact hg.symm b a he

theorem firstUncolored_eq_none :
    g.firstUncolored? asg = none ↔ ∀ t, g.known t = true → (asg.get? t).isSome = true := by
  simp [firstUncolored?, List.find?_eq_none, known_iff_mem, Option.isSome_iff_ne_none]

/-- Every edge is listed from its lower end, so looking at these is enough. -/
theorem WellFormed.firstClash_eq_none (hg : g.WellFormed) :
    g.firstClash? asg = none ↔ ∀ a b, g.hasEdge a b = true → asg.get? a ≠ asg.get? b := by
  rw [firstClash?, List.find?_eq_none]
  constructor
  · intro h a b he
    rcases hg.hasEdge_iff_mem_edges.1 he with hmem | hmem
    · simpa using h (a, b) hmem
    · have := h (b, a) hmem
      exact fun e => this (by simp [e])
  · rintro h ⟨a, b⟩ he
    have := h a b ((mem_edges hg.nodup).1 he).2
    simpa using this

/-- **Verification accepts exactly the proper assignments.** -/
theorem WellFormed.verify_eq_ok_iff (hg : g.WellFormed) : g.verify asg = .ok () ↔ g.Proper asg := by
  rw [verify]
  rcases hu : g.firstUncolored? asg with _ | t
  · have hcolored := firstUncolored_eq_none.1 hu
    rcases hc : g.firstClash? asg with _ | e
    · exact ⟨fun _ => ⟨hcolored, hg.firstClash_eq_none.1 hc⟩, fun _ => rfl⟩
    · refine ⟨fun h => (by cases h), fun h => ?_⟩
      rw [hg.firstClash_eq_none.2 h.distinct] at hc; cases hc
  · refine ⟨fun h => (by cases h), fun h => ?_⟩
    rw [firstUncolored_eq_none.2 h.colored] at hu; cases hu

end

/-! ## Selection -/

/-- What holds of the colors given to the nodes `done`. -/
structure Colors (g : Graph) (k : Nat) (done : List Temp) (colors : TempMap Nat) : Prop where
  domain : ∀ t, (colors.get? t).isSome = true ↔ t ∈ done
  bounded : ∀ t c, colors.get? t = some c → c < k
  distinct : ∀ a b c, g.hasEdge a b = true → colors.get? a = some c → colors.get? b ≠ some c

section
variable {g h : Graph} {k c : Nat} {done stack : List Temp} {colors : TempMap Nat} {t : Temp}

theorem mem_usedColors :
    c ∈ g.usedColors colors t ↔ ∃ u, g.hasEdge t u = true ∧ colors.get? u = some c := by
  rw [usedColors, DenseSet.mem_foldl_put, List.mem_filterMap]
  simp only [mem_neighbors_keys, DenseSet.not_mem_empty, or_false]

/-- A node with fewer than `k` colored neighbours leaves a color free. -/
theorem Colors.exists_free (hc : g.Colors k done colors) (hlt : g.degreeIn done.toFinset t < k) :
    ∃ c < k, c ∉ g.usedColors colors t := by
  by_contra hall
  push Not at hall
  -- every color would be that of a colored neighbour
  have hsub : Finset.range k ⊆ (done.toFinset.filter fun u => g.hasEdge t u).image
      fun u => (colors.get? u).getD 0 := by
    intro c hmem
    obtain ⟨u, he, hu⟩ := mem_usedColors.1 (hall c (Finset.mem_range.1 hmem))
    refine Finset.mem_image.2 ⟨u, Finset.mem_filter.2 ⟨?_, he⟩, by rw [hu]; rfl⟩
    rw [List.mem_toFinset, ← hc.domain, hu]; rfl
  have hcard := (Finset.card_le_card hsub).trans Finset.card_image_le
  rw [Finset.card_range] at hcard
  exact absurd hlt (not_lt.2 hcard)

/-- A node gets the least color that its neighbours leave. -/
theorem Colors.colorNode_spec (hc : g.Colors k done colors) (hg : g.WellFormed)
    (hlt : g.degreeIn done.toFinset t < k) :
    ∃ colors', g.colorNode k colors t = .ok colors' ∧ g.Colors k (t :: done) colors' := by
  obtain ⟨c₀, hc₀, hfree⟩ := hc.exists_free hlt
  obtain ⟨c, hfirst, hck, hused⟩ := DenseSet.firstUnset_isSome (Int.ofNat_lt.2 hc₀) hfree
  refine ⟨colors.insert t c, by simp only [colorNode, hfirst], ?_, ?_, ?_⟩
  · intro u
    rw [TempMap.get?_insert, List.mem_cons]
    by_cases hu : u = t
    · simp [hu]
    · rw [if_neg hu, hc.domain]; simp [hu]
  · intro u d hd
    rw [TempMap.get?_insert] at hd
    by_cases hu : u = t
    · rw [if_pos hu] at hd; cases hd; exact Int.ofNat_lt.1 hck
    · rw [if_neg hu] at hd; exact hc.bounded u d hd
  · intro a b d he ha hb
    rw [TempMap.get?_insert] at ha hb
    by_cases hat : a = t
    · have hbt : b ≠ t := fun e => hg.ne_of_hasEdge he (hat.trans e.symm)
      rw [if_pos hat] at ha; rw [if_neg hbt] at hb
      cases ha
      exact hused (mem_usedColors.2 ⟨b, hat ▸ he, hb⟩)
    · rw [if_neg hat] at ha
      by_cases hbt : b = t
      · rw [if_pos hbt] at hb; cases hb
        exact hused (mem_usedColors.2 ⟨a, hbt ▸ hg.symm a b he, ha⟩)
      · rw [if_neg hbt] at hb
        exact hc.distinct a b d he ha hb

theorem colors_empty : g.Colors k [] .empty :=
  ⟨fun t => by simp [TempMap.get?_empty], fun t c h => by simp [TempMap.get?_empty] at h,
    fun a b c _ h => by simp [TempMap.get?_empty] at h⟩

theorem Colors.congr (he : ∀ a b, h.hasEdge a b = g.hasEdge a b) (hc : h.Colors k done colors) :
    g.Colors k done colors :=
  ⟨hc.domain, hc.bounded, fun a b c hab => hc.distinct a b c (by rw [he]; exact hab)⟩

theorem selectColors_congr (hn : ∀ t, h.neighbors t = g.neighbors t) :
    h.selectColors k stack = g.selectColors k stack := by
  have hnode : h.colorNode k = g.colorNode k := by
    funext colors t; simp only [colorNode, usedColors, hn]
  rw [selectColors, selectColors, hnode]

theorem selectColors_cons : g.selectColors k (t :: stack) =
    (g.selectColors k stack).bind fun colors => g.colorNode k colors t := by
  rw [selectColors, List.reverse_cons, List.foldlM_append]
  simp only [List.foldlM_cons, List.foldlM_nil, bind_pure]
  rfl

theorem colorNode_eq_ok_iff {colors' : TempMap Nat} : g.colorNode k colors t = .ok colors' ↔
    ∃ c, (g.usedColors colors t).firstUnset k = some c ∧ colors' = colors.insert t c := by
  rw [colorNode]
  rcases (g.usedColors colors t).firstUnset k with _ | c
  · simp
  · simp [eq_comm]

theorem selectColors_cons_eq_ok_iff {colors' : TempMap Nat} : g.selectColors k (t :: stack) = .ok colors' ↔
    ∃ colors, g.selectColors k stack = .ok colors ∧ g.colorNode k colors t = .ok colors' := by
  rw [selectColors_cons]
  rcases g.selectColors k stack with e | colors
  · simp [Except.bind]
  · simp [Except.bind]

/-- **A graph that was peeled off completely gets colored.**  The colored
    neighbours of a node are those it had when it was taken off. -/
theorem Peels.selectColors_spec {g' : Graph} (hp : Peels k g stack g') (hg : g.WellFormed)
    (hempty : g'.present = ∅) : ∃ colors, g.selectColors k stack = .ok colors ∧ g.Colors k stack colors := by
  induction hp with
  | nil => exact ⟨.empty, rfl, colors_empty⟩
  | @cons g g' t ts hleast hlt hrest ih =>
    obtain ⟨colors, hsel, hcol⟩ := ih (hg.remove t) hempty
    rw [selectColors_congr fun _ => neighbors_remove] at hsel
    have hcol := hcol.congr (g := g) fun _ _ => hasEdge_remove
    -- the nodes colored before `t` were present with it, so their number is its degree at most
    have hsub : ts.toFinset ⊆ g.present := by
      intro u hu
      exact mem_present.2 (hasNode_remove.1 (hrest.nodup.2 u (List.mem_toFinset.1 hu))).2
    have hdeg : g.degreeIn ts.toFinset t < k := by
      have := degreeIn_mono (g := g) (t := t) hsub
      rw [← hg.degree t hleast.present] at this
      omega
    obtain ⟨colors', hnode, hcol'⟩ := hcol.colorNode_spec hg hdeg
    exact ⟨colors', by rw [selectColors_cons, hsel]; exact hnode, hcol'⟩

end

/-! ## Coloring -/

/-- An assignment of registers of the file to exactly the nodes of a graph, with
    different registers at the ends of every edge. -/
structure Coloring (g : Graph) (regs : RegisterFile) (asg : Assignment) : Prop where
  domain : ∀ t, (asg.get? t).isSome = true ↔ t ∈ g.temps
  registers : ∀ t r, asg.get? t = some r → r ∈ regs
  distinct : ∀ a b, g.hasEdge a b = true → asg.get? a ≠ asg.get? b

section
variable {g g' : Graph} {regs : RegisterFile} {stack : List Temp} {colors : TempMap Nat}

theorem Colors.register_mem (hc : g.Colors regs.length stack colors) {t : Temp} {r : Register}
    (hr : (colors.map fun c => regs.getD c []).get? t = some r) : r ∈ regs := by
  rw [TempMap.get?_map, Option.map_eq_some_iff] at hr
  obtain ⟨c, hcol, rfl⟩ := hr
  rw [List.getD_eq_getElem _ _ (hc.bounded t c hcol)]
  exact List.getElem_mem _

theorem Colors.coloring (hc : g.Colors regs.length stack colors) (hregs : regs.Nodup)
    (hstack : ∀ t, t ∈ stack ↔ t ∈ g.temps) :
    g.Coloring regs (colors.map fun c => regs.getD c []) := by
  refine ⟨fun t => ?_, fun t r hr => hc.register_mem hr, fun a b he hab => ?_⟩
  · rw [TempMap.get?_map, Option.isSome_map, hc.domain, hstack]
  · -- equal registers would be equal colors, as the file has no duplicates
    have ha := (hc.domain a).2 ((hstack a).2 (known_iff_mem.1 (known_of_hasEdge he)))
    obtain ⟨c, hca⟩ := Option.isSome_iff_exists.1 ha
    rw [TempMap.get?_map, TempMap.get?_map, hca, Option.map_some, eq_comm,
      Option.map_eq_some_iff] at hab
    obtain ⟨d, hdb, hreg⟩ := hab
    have hc' := hc.bounded a c hca
    have hd' := hc.bounded b d hdb
    rw [List.getD_eq_getElem _ _ hc', List.getD_eq_getElem _ _ hd', hregs.getElem_inj_iff] at hreg
    exact hc.distinct a b c he hca (hreg ▸ hdb)

theorem Peels.proper_iff {k : Int} {asg : Assignment} (hp : Peels k g stack g') :
    g'.Proper asg ↔ g.Proper asg := by
  have hknown : ∀ t, g'.known t = g.known t := fun t => by
    rw [Bool.eq_iff_iff, known_iff_mem, known_iff_mem, hp.temps]
  refine ⟨fun h => ⟨?_, ?_⟩, fun h => ⟨?_, ?_⟩⟩
  · exact fun t ht => h.colored t ((hknown t).trans ht)
  · exact fun a b he => h.distinct a b (hp.hasEdge.trans he)
  · exact fun t ht => h.colored t ((hknown t).symm.trans ht)
  · exact fun a b he => h.distinct a b (hp.hasEdge.symm.trans he)

/-- Once every node has a color, all depends on the check. -/
theorem color_of_selected (hrun : g.simplify regs.length = (g', .ok stack))
    (hsel : g'.selectColors regs.length stack = .ok colors) : g.color regs = (g',
      ((g'.verify (colors.map fun c => regs.getD c [])).mapError .internal).map
        fun _ => colors.map fun c => regs.getD c []) := by
  have hselect : g'.select stack regs = .ok (colors.map fun c => regs.getD c []) := by
    rw [select, hsel]; rfl
  rw [simplify] at hrun
  simp only [color, colorWith, hrun, bind, Except.bind, hselect, Except.mapError]
  rcases g'.verify _ with e | u <;> rfl

/-- A graph that was taken apart is colored. -/
theorem color_of_simplified (hg : g.WellFormed) (hp : Peels regs.length g stack g')
    (hempty : g'.present = ∅) (hrun : g.simplify regs.length = (g', .ok stack)) :
    ∃ colors, g.Colors regs.length stack colors ∧ g.color regs = (g',
      ((g'.verify (colors.map fun c => regs.getD c [])).mapError .internal).map
        fun _ => colors.map fun c => regs.getD c []) := by
  obtain ⟨colors, hsel, hcol⟩ := hp.selectColors_spec hg hempty
  rw [← selectColors_congr fun _ => hp.neighbors] at hsel
  exact ⟨colors, hcol, color_of_selected hrun hsel⟩

/-- A stuck graph is not colored. -/
theorem color_of_stuck {e : ColoringError} (hrun : g.simplify regs.length = (g', .error e)) :
    g.color regs = (g', .error e) := by
  rw [simplify] at hrun
  simp only [color, colorWith, hrun]; rfl

/-- **A graph without dense sets is colored.** -/
theorem color_of_no_dense (hg : g.WellFormed) (hall : ∀ t, g.known t = true → g.hasNode t = true)
    (hregs : regs.Nodup) (h : ¬ ∃ S : Finset Temp, S.Nonempty ∧ g.Dense regs.length S) :
    ∃ g' asg, g.color regs = (g', .ok asg) ∧ g.Coloring regs asg := by
  obtain ⟨stack, g', hp, hempty, hrun⟩ := simplify_of_no_dense hg h
  obtain ⟨colors, hcol, hcolor⟩ := color_of_simplified hg hp hempty hrun
  have hstack : ∀ t, t ∈ stack ↔ t ∈ g.temps := by
    intro t
    rw [(hp.perm_of_empty hg.nodup hempty).mem_iff, mem_presentTemps hg.nodup, ← known_iff_mem]
    exact ⟨known_of_hasNode, hall t⟩
  have hfine := hcol.coloring hregs hstack
  have hproper : g.Proper (colors.map fun c => regs.getD c []) :=
    ⟨fun t ht => (hfine.domain t).2 (known_iff_mem.1 ht), hfine.distinct⟩
  rw [((hp.wellFormed hg).verify_eq_ok_iff).2 (hp.proper_iff.2 hproper)] at hcolor
  exact ⟨g', _, hcolor, hfine⟩

/-- **A graph with a dense set asks for a spill.** -/
theorem color_of_dense (hg : g.WellFormed) {S : Finset Temp} (hne : S.Nonempty)
    (hS : g.Dense regs.length S) :
    ∃ g' e, g.StuckOn regs.length g'.present e ∧ g.color regs = (g', .error (.spill e)) := by
  obtain ⟨g', e, hstuck, hrun⟩ := simplify_of_dense hg hne hS
  exact ⟨g', e, hstuck, color_of_stuck hrun⟩

/-- All queues lead to the same coloring. -/
theorem WellFormed.colorWith_eq (hg : g.WellFormed) (queue : Queue) (regs : RegisterFile) :
    g.colorWith queue regs = g.color regs := by
  rw [color, colorWith, colorWith, hg.simplifyWith_eq queue, simplify]

/-- The steps of a coloring that ends well. -/
theorem color_eq_ok_iff {asg : Assignment} : g.color regs = (g', .ok asg) ↔
    ∃ stack colors, g.simplify regs.length = (g', .ok stack) ∧
      g'.selectColors regs.length stack = .ok colors ∧
      asg = (colors.map fun c => regs.getD c []) ∧ g'.verify asg = .ok () := by
  rcases hrun : g.simplify regs.length with ⟨g₁, e | stack⟩
  · simp [color_of_stuck hrun]
  rcases hsel : g₁.selectColors regs.length stack with e | colors
  · have hselect : g₁.select stack regs = .error e := by rw [select, hsel]; rfl
    have hcolor : g.color regs = (g₁, .error (.internal e)) := by
      rw [simplify] at hrun
      simp only [color, colorWith, hrun, bind, Except.bind, hselect, Except.mapError]
    rw [hcolor]
    constructor
    · intro h; cases h
    · rintro ⟨stack', colors, h, hcolors, -⟩
      cases h
      rw [hsel] at hcolors; cases hcolors
  rw [color_of_selected hrun hsel]
  constructor
  · intro h
    rcases hv : g₁.verify (colors.map fun c => regs.getD c []) with e | u
    · rw [hv] at h; cases h
    · rw [hv] at h; cases h
      exact ⟨stack, colors, rfl, hsel, rfl, hv⟩
  · rintro ⟨stack', colors', h, hcolors, rfl, hv⟩
    cases h
    rw [hsel] at hcolors
    cases hcolors
    rw [hv]; rfl

/-- An assignment that coloring gives comes from colors of all nodes that were present. -/
theorem color_ok_colors {asg : Assignment} (hg : g.WellFormed) (h : g.color regs = (g', .ok asg)) :
    ∃ stack colors, stack.Perm g.presentTemps ∧ g.Colors regs.length stack colors ∧
      asg = (colors.map fun c => regs.getD c []) ∧ g.Proper asg := by
  obtain ⟨stack, colors, hrun, hsel, hasg, hv⟩ := color_eq_ok_iff.1 h
  obtain ⟨stack₁, g₁, hp, ⟨hempty, hrun₁⟩ | ⟨t, -, -, hrun₁⟩⟩ := simplify_spec hg regs.length
  · rw [hrun] at hrun₁
    cases hrun₁
    obtain ⟨colors₁, hsel₁, hcol⟩ := hp.selectColors_spec hg hempty
    rw [selectColors_congr fun _ => hp.neighbors, hsel₁] at hsel
    cases hsel
    exact ⟨stack, colors, hp.perm_of_empty hg.nodup hempty, hcol, hasg,
      hp.proper_iff.1 (((hp.wellFormed hg).verify_eq_ok_iff).1 hv)⟩
  · rw [hrun] at hrun₁; cases hrun₁

/-- What is known of an assignment that coloring gives, also if the register file
    has duplicates. -/
theorem color_ok_spec {asg : Assignment} (hg : g.WellFormed) (h : g.color regs = (g', .ok asg)) :
    g.Proper asg ∧ ∀ t r, asg.get? t = some r → r ∈ regs := by
  obtain ⟨stack, colors, -, hcol, rfl, hproper⟩ := color_ok_colors hg h
  exact ⟨hproper, fun t r hr => hcol.register_mem hr⟩

/-- If no node was removed before, it is an assignment to exactly the nodes. -/
theorem color_ok_coloring {asg : Assignment} (hg : g.WellFormed)
    (hall : ∀ t, g.known t = true → g.hasNode t = true) (h : g.color regs = (g', .ok asg)) :
    g.Coloring regs asg := by
  obtain ⟨stack, colors, hperm, hcol, rfl, hproper⟩ := color_ok_colors hg h
  refine ⟨fun t => ?_, fun t r hr => hcol.register_mem hr, hproper.distinct⟩
  rw [TempMap.get?_map, Option.isSome_map, hcol.domain, hperm.mem_iff, mem_presentTemps hg.nodup,
    ← known_iff_mem]
  exact ⟨known_of_hasNode, hall t⟩

end

/-- As long as nothing is removed, all nodes are present. -/
theorem hasNode_of_known_after {calls : List GraphCall} (hcalls : ∀ t, .remove t ∉ calls) {t : Temp}
    (ht : (after calls).known t = true) : (after calls).hasNode t = true := by
  have h : ∀ g : Graph, (∀ t, g.known t = true → g.hasNode t = true) →
      ∀ t, (calls.foldl call g).known t = true → (calls.foldl call g).hasNode t = true := by
    clear ht
    induction calls with
    | nil => exact fun _ hg => hg
    | cons c calls ih =>
      intro g hg
      refine ih (fun t ht => hcalls t (List.mem_cons_of_mem _ ht)) _ fun t ht => ?_
      cases c with
      | addNode u => exact hasNode_withNode_of_known hg ht
      | addEdge a b =>
        rw [call, known_withEdge] at ht
        rw [call, hasNode_withEdge]; exact hg t ht
      | remove u => exact absurd (List.mem_cons_self ..) (hcalls u)
      | setPressure p => exact hg t ht
  exact h empty (fun t ht => by simp [known, node?, empty] at ht) t ht

/-- **Coloring has no other outcome than an assignment or a spill**, whichever queue is used.
    A graph made without removals gets registers of the file for exactly its nodes, different
    ones at the ends of every edge, or it asks for a spill; no invariant breaks on
    the way. -/
theorem color_total (queue : Queue) (calls : List GraphCall) (hcalls : ∀ t, .remove t ∉ calls)
    (regs : RegisterFile) (hregs : regs.Nodup) :
    (∃ e, ((after calls).colorWith queue regs).2 = .error (.spill e)) ∨
      ∃ asg, ((after calls).colorWith queue regs).2 = .ok asg ∧ (after calls).Coloring regs asg := by
  have hg := wellFormed_after calls
  rw [hg.colorWith_eq queue]
  by_cases h : ∃ S : Finset Temp, S.Nonempty ∧ (after calls).Dense regs.length S
  · obtain ⟨S, hne, hS⟩ := h
    obtain ⟨g', e, -, hcolor⟩ := color_of_dense hg hne hS
    exact Or.inl ⟨e, by rw [hcolor]⟩
  · obtain ⟨g', asg, hcolor, hfine⟩ :=
      color_of_no_dense hg (fun t => hasNode_of_known_after hcalls) hregs h
    exact Or.inr ⟨asg, by rw [hcolor], hfine⟩

/-- The calls that make a path of three nodes. -/
def pathCalls : List GraphCall :=
  [.addNode 0, .addNode 1, .addNode 2, .addEdge 0 1, .addEdge 1 2]

/-- Two registers are enough for a path. -/
theorem color_total_path :
    ∃ asg, ((after pathCalls).colorWith .skewHeap [utf8 "r0", utf8 "r1"]).2 = .ok asg ∧
      (after pathCalls).Coloring [utf8 "r0", utf8 "r1"] asg := by
  have hok : ((after pathCalls).colorWith .skewHeap [utf8 "r0", utf8 "r1"]).2.isOk = true := by cbv
  rcases color_total .skewHeap pathCalls (by simp [pathCalls]) [utf8 "r0", utf8 "r1"] (by decide) with
    ⟨e, he⟩ | h
  · rw [he] at hok; cases hok
  · exact h

end Graph

end Straightline
