/-
  Simplification peels a graph down to its core.

  A run of simplification takes off one least node after the other, each of
  degree below `k`, until none is left or the least one has degree `k` or more.
  Which queue it uses does not matter.

  * `Ready`: the worklist holds the true entry of every node that is left, so
    that stale entries can be dropped;
  * `Peels`: nodes taken off one by one, each least among those left;
  * `simplifyWith_spec`: every simplification is such a run, and it ends with an
    empty graph or with a graph whose nodes all have degree `k` or more;
  * `Peels.unique`: a graph can be peeled off in one way only, so that all queues do
    the same (`simplifyWith_eq`);
  * `Dense`: a set of nodes with at least `k` neighbours each inside the set.
    No node of a dense set is ever taken off (`Peels.keeps_dense`);
  * `simplify_stuck_iff_dense`: hence what a stuck graph is left with is the
    largest dense set.
-/
import Straightline.Coloring.Simplify
import Straightline.Proofs.Graph

namespace Straightline

namespace Graph

/-! ## The nodes that are left -/

section
variable {g : Graph} {t : Temp}

theorem presentTemps_eq (hg : g.temps.Nodup) : g.presentTemps = g.temps.filter fun t => g.hasNode t := by
  rw [presentTemps, temps, List.filter_map]
  congr 1
  refine List.filter_congr fun n hn => ?_
  simp [hasNode, node?_of_mem hg hn]

theorem mem_presentTemps (hg : g.temps.Nodup) : t ∈ g.presentTemps ↔ g.hasNode t = true := by
  rw [presentTemps_eq hg, List.mem_filter, and_iff_right_iff_imp]
  exact fun h => known_iff_mem.1 (known_of_hasNode h)

theorem nodup_presentTemps (hg : g.temps.Nodup) : g.presentTemps.Nodup := by
  rw [presentTemps_eq hg]; exact hg.filter _

theorem size_eq_card (hg : g.temps.Nodup) : g.size = g.present.card := by
  have hpresent : g.present = g.presentTemps.toFinset := by
    ext u; rw [mem_present, List.mem_toFinset, mem_presentTemps hg]
  rw [hpresent, List.toFinset_card_of_nodup (nodup_presentTemps hg), size, presentTemps,
    List.length_map, List.countP_eq_length_filter]

end

/-! ## The worklist -/

variable {queue : Queue}

/-- The worklist holds the true entries of the nodes in `S`, besides stale ones. -/
structure Ready (g : Graph) (q : queue.Carrier) (S : Finset Temp) : Prop where
  ranked : ∀ c ∈ queue.entries q, c.rank = g.rank c.temp
  fresh : ∀ t ∈ S, g.candidate t ∈ queue.entries q

/-- The node is present, and no present node is to be taken before it. -/
structure Least (g : Graph) (t : Temp) : Prop where
  present : g.hasNode t = true
  least : ∀ u, g.hasNode u = true → (g.candidate u).before (g.candidate t) = false

section
variable {g : Graph} {q q' : queue.Carrier} {S : Finset Temp} {c : Candidate}

theorem Least.degree_le {t u : Temp} (h : g.Least t) (hu : g.hasNode u = true) : g.degree t ≤ g.degree u :=
  Candidate.degree_le_of_not_before (h.least u hu)

theorem mem_pushPresent (ts : List Temp) {d : Candidate} :
    d ∈ queue.entries (g.pushPresent queue q ts) ↔
      d ∈ queue.entries q ∨ ∃ t ∈ ts, g.hasNode t = true ∧ d = g.candidate t := by
  have h : ∀ (us : List Temp) (q : queue.Carrier),
      d ∈ queue.entries (us.foldl (fun q t => queue.push q (g.candidate t)) q) ↔
        d ∈ queue.entries q ∨ ∃ t ∈ us, d = g.candidate t := by
    intro us
    induction us with
    | nil => simp
    | cons u us ih =>
      intro q
      rw [List.foldl_cons, ih, Queue.mem_push]
      simp only [List.mem_cons, exists_eq_or_imp]
      tauto
  rw [pushPresent, h]
  simp only [List.mem_filter, and_assoc]

/-- At the start there is an entry for every present node. -/
theorem ready_start (queue : Queue) (g : Graph) :
    g.Ready (g.pushPresent queue queue.empty g.temps) g.present := by
  refine ⟨fun c hc => ?_, fun t ht => ?_⟩
  · rcases (mem_pushPresent _).1 hc with h | ⟨t, -, -, rfl⟩
    · rw [queue.entries_empty] at h
      cases h
    · rfl
  · rw [mem_present] at ht
    exact (mem_pushPresent _).2 (Or.inr ⟨t, known_iff_mem.1 (known_of_hasNode ht), ht, rfl⟩)

theorem isFresh_iff (hc : c.rank = g.rank c.temp) :
    g.isFresh c = true ↔ g.hasNode c.temp = true ∧ c = g.candidate c.temp := by
  rw [isFresh, Bool.and_eq_true, beq_iff_eq]
  refine and_congr_right fun _ => ⟨fun h => ?_, fun h => ?_⟩
  · rcases c with ⟨t, d, r⟩
    simp only at h hc
    rw [candidate, h, hc]
  · rw [h]; rfl

/-- An entry that is popped may be dropped if it is no longer true. -/
theorem Ready.drop_stale (hq : g.Ready q g.present) (h : queue.pop? q = some (c, q'))
    (hc : ¬ g.isFresh c = true) : g.Ready q' g.present := by
  have hrank := hq.ranked c ((Queue.mem_of_pop h).2 (Or.inl rfl))
  refine ⟨fun d hd => hq.ranked d ((Queue.mem_of_pop h).2 (Or.inr hd)), fun t ht => ?_⟩
  rcases (Queue.mem_of_pop h).1 (hq.fresh t ht) with he | hmem
  · refine absurd ((isFresh_iff hrank).2 ?_) hc
    rw [← he]; exact ⟨mem_present.1 ht, rfl⟩
  · exact hmem

/-- An entry that is popped and true is that of a least node, and the others
    keep theirs. -/
theorem Ready.take_fresh (hq : g.Ready q g.present) (h : queue.pop? q = some (c, q'))
    (hc : g.isFresh c = true) :
    c = g.candidate c.temp ∧ g.Least c.temp ∧ g.Ready q' (g.present.erase c.temp) := by
  have hrank := hq.ranked c ((Queue.mem_of_pop h).2 (Or.inl rfl))
  obtain ⟨hpres, heq⟩ := (isFresh_iff hrank).1 hc
  refine ⟨heq, ⟨hpres, fun u hu => ?_⟩, fun d hd => hq.ranked d ((Queue.mem_of_pop h).2 (Or.inr hd)),
    fun t ht => ?_⟩
  · rw [← heq]; exact queue.pop_least h _ (hq.fresh u (mem_present.2 hu))
  · obtain ⟨hne, ht⟩ := Finset.mem_erase.1 ht
    rcases (Queue.mem_of_pop h).1 (hq.fresh t ht) with he | hmem
    · exact absurd (congrArg Candidate.temp he) hne
    · exact hmem

/-- **The first true entry** exists as long as a node is left, and is that of a
    least node. -/
theorem popFresh_spec (hq : g.Ready q g.present) :
    (g.popFresh? queue q = none ∧ g.present = ∅) ∨
      ∃ c q', g.popFresh? queue q = some (c, q') ∧ c = g.candidate c.temp ∧ g.Least c.temp ∧
        g.Ready q' (g.present.erase c.temp) := by
  fun_induction popFresh? queue g q with
  | case1 q h =>
    refine Or.inl ⟨rfl, Finset.eq_empty_of_forall_notMem fun t ht => ?_⟩
    have hmem := hq.fresh t ht
    rw [queue.entries_of_pop_none h] at hmem; cases hmem
  | case2 q c q' h _ hc => exact Or.inr ⟨c, q', rfl, hq.take_fresh h hc⟩
  | case3 q c q' h _ hc ih => exact ih (hq.drop_stale h hc)

/-- Removing a node and pushing its neighbours makes the worklist true again. -/
theorem Ready.remove {t : Temp} (ht : g.hasNode t = true) (hq : g.Ready q (g.present.erase t)) :
    (g.remove t).Ready ((g.remove t).pushPresent queue q ((g.remove t).neighbors t).keys)
      (g.remove t).present := by
  refine ⟨fun c hc => ?_, fun u hu => ?_⟩
  · rcases (mem_pushPresent _).1 hc with h | ⟨u, -, -, rfl⟩
    · rw [rank_remove]; exact hq.ranked c h
    · rfl
  · rw [mem_pushPresent]
    have hu' := hasNode_remove.1 (mem_present.1 hu)
    by_cases he : g.hasEdge t u = true
    · exact Or.inr ⟨u, mem_neighbors_keys.2 (hasEdge_remove.trans he), mem_present.1 hu, rfl⟩
    · -- the degree of a node that is no neighbour has not changed
      have hsame : (g.remove t).candidate u = g.candidate u := by
        simp only [candidate, rank_remove, degree_remove ht hu'.2 hu'.1]
        simp [he]
      rw [hsame]
      rw [present_remove] at hu
      exact Or.inl (hq.fresh u hu)

end

/-! ## Peeling -/

/-- Nodes taken off one after the other, each least among those left and of
    degree below `k`, and the graph that stays. -/
inductive Peels (k : Int) : Graph → List Temp → Graph → Prop
  | nil {g} : Peels k g [] g
  | cons {g g' t ts} : g.Least t → (g.degree t : Int) < k → Peels k (g.remove t) ts g' →
      Peels k g (t :: ts) g'

theorem simplifyFrom_spec (k : Int) (left : Nat) : ∀ (g : Graph) (q : queue.Carrier), g.WellFormed →
    g.Ready q g.present → g.present.card = left → ∃ stack g', Peels k g stack g' ∧
      ((g'.present = ∅ ∧ simplifyFrom queue k left g q = (g', .ok stack)) ∨
        (∃ t, g'.Least t ∧ k ≤ g'.degree t ∧
          simplifyFrom queue k left g q = (g', .error (.spill (g'.spillRequired k))))) := by
  -- on the number of nodes left: while there is one, the worklist has its true entry
  induction left with
  | zero =>
    intro g q hg hq hleft
    exact ⟨[], g, .nil, Or.inl ⟨Finset.card_eq_zero.1 hleft, rfl⟩⟩
  | succ left ih =>
    intro g q hg hq hleft
    rcases popFresh_spec hq with ⟨-, hnone⟩ | ⟨c, q', hpop, hc, hleast, hq'⟩
    · -- the worklist is not exhausted
      rw [hnone] at hleft; cases hleft
    have hdeg : c.degree = g.degree c.temp := congrArg Candidate.degree hc
    by_cases hk : k ≤ c.degree
    · refine ⟨[], g, .nil, Or.inr ⟨c.temp, hleast, hdeg ▸ hk, ?_⟩⟩
      simp only [simplifyFrom, hpop, if_pos hk]
    · have hcard : (g.remove c.temp).present.card = left := by
        rw [present_remove, Finset.card_erase_of_mem (mem_present.2 hleast.present), hleft]; rfl
      obtain ⟨stack, g', hpeel, hend⟩ :=
        ih (g.remove c.temp) _ (hg.remove _) (hq'.remove hleast.present) hcard
      refine ⟨c.temp :: stack, g', .cons hleast (by rw [← hdeg]; omega) hpeel, ?_⟩
      rcases hend with ⟨hempty, hrun⟩ | ⟨t, ht, hkt, hrun⟩
      · refine Or.inl ⟨hempty, ?_⟩
        simp only [simplifyFrom, hpop, if_neg hk, hrun, Except.map]
      · refine Or.inr ⟨t, ht, hkt, ?_⟩
        simp only [simplifyFrom, hpop, if_neg hk, hrun, Except.map]

/-- **Simplification is peeling**, as far as it goes. -/
theorem simplifyWith_spec (queue : Queue) {g : Graph} (hg : g.WellFormed) (k : Int) :
    ∃ stack g', Peels k g stack g' ∧
      ((g'.present = ∅ ∧ g.simplifyWith queue k = (g', .ok stack)) ∨
        (∃ t, g'.Least t ∧ k ≤ g'.degree t ∧
          g.simplifyWith queue k = (g', .error (.spill (g'.spillRequired k))))) :=
  simplifyFrom_spec k g.size g _ hg (ready_start queue g) (size_eq_card hg.nodup).symm

section
variable {g e e' : Graph} {k : Int} {t u : Temp} {stack stack' : List Temp}

/-- There is one least node at most. -/
theorem Least.unique (ht : g.Least t) (hu : g.Least u) : t = u := by
  have hdeg : g.degree t = g.degree u := (ht.degree_le hu.present).antisymm (hu.degree_le ht.present)
  have hrank : g.rank t = g.rank u :=
    (Candidate.rank_le_of_not_before (ht.least u hu.present) hdeg).antisymm
      (Candidate.rank_le_of_not_before (hu.least t ht.present) hdeg.symm)
  have hkt := known_of_hasNode ht.present
  rw [rank, rank, if_pos hkt, if_pos (known_of_hasNode hu.present)] at hrank
  exact (List.idxOf_inj (known_iff_mem.1 hkt)).1 (Nat.succ.inj hrank)

/-- No node can be peeled off. -/
def Spent (g : Graph) (k : Int) : Prop :=
  ∀ t, g.Least t → k ≤ g.degree t

theorem spent_of_empty (h : g.present = ∅) : g.Spent k := by
  intro t ht
  have hmem := mem_present.2 ht.present
  rw [h] at hmem; cases hmem

theorem Least.spent (ht : g.Least t) (hk : k ≤ g.degree t) : g.Spent k := by
  intro u hu
  rw [← ht.unique hu]; exact hk

/-- Simplification peels off all that can be, and the nodes that are left are asked for. -/
theorem simplifyWith_spent (queue : Queue) (hg : g.WellFormed) (k : Int) :
    ∃ stack e, Peels k g stack e ∧ e.Spent k ∧
      ((e.present = ∅ ∧ g.simplifyWith queue k = (e, .ok stack)) ∨
        (e.present ≠ ∅ ∧ g.simplifyWith queue k = (e, .error (.spill (e.spillRequired k))))) := by
  obtain ⟨stack, e, hp, ⟨hempty, hrun⟩ | ⟨t, ht, hk, hrun⟩⟩ := simplifyWith_spec queue hg k
  · exact ⟨stack, e, hp, spent_of_empty hempty, Or.inl ⟨hempty, hrun⟩⟩
  · have hne : e.present ≠ ∅ := Finset.ne_empty_of_mem (mem_present.2 ht.present)
    exact ⟨stack, e, hp, ht.spent hk, Or.inr ⟨hne, hrun⟩⟩

/-- **A graph is peeled off in one way only.** -/
theorem Peels.unique (h : Peels k g stack e) (he : e.Spent k) (h' : Peels k g stack' e')
    (he' : e'.Spent k) : stack = stack' ∧ e = e' := by
  induction h generalizing stack' with
  | nil =>
    cases h' with
    | nil => exact ⟨rfl, rfl⟩
    | cons hleast hlt _ => exact absurd (he _ hleast) (not_le.2 hlt)
  | cons hleast hlt _ ih =>
    cases h' with
    | nil => exact absurd (he' _ hleast) (not_le.2 hlt)
    | cons hleast' _ hrest =>
      obtain rfl := hleast.unique hleast'
      obtain ⟨rfl, rfl⟩ := ih he hrest
      exact ⟨rfl, rfl⟩

/-- **All queues do the same.** -/
theorem WellFormed.simplifyWith_eq (hg : g.WellFormed) (queue : Queue) (k : Int) :
    g.simplifyWith queue k = g.simplify k := by
  obtain ⟨stack, e, hp, hspent, hend⟩ := simplifyWith_spent queue hg k
  obtain ⟨stack', e', hp', hspent', hend'⟩ := simplifyWith_spent .skewHeap hg k
  obtain ⟨rfl, rfl⟩ := hp.unique hspent hp' hspent'
  rw [simplify]
  rcases hend with ⟨hempty, hrun⟩ | ⟨hne, hrun⟩
  · rcases hend' with ⟨-, hrun'⟩ | ⟨hne, -⟩
    · rw [hrun, hrun']
    · exact absurd hempty hne
  · rcases hend' with ⟨hempty, -⟩ | ⟨-, hrun'⟩
    · exact absurd hempty hne
    · rw [hrun, hrun']

/-- What is known of all queues is known of the one that is used. -/
theorem simplify_spec (hg : g.WellFormed) (k : Int) :
    ∃ stack e, Peels k g stack e ∧
      ((e.present = ∅ ∧ g.simplify k = (e, .ok stack)) ∨
        (∃ t, e.Least t ∧ k ≤ e.degree t ∧ g.simplify k = (e, .error (.spill (e.spillRequired k))))) :=
  simplifyWith_spec .skewHeap hg k

end

section
variable {k : Int} {g g' : Graph} {stack : List Temp} {S : Finset Temp} {t u : Temp}

theorem Peels.wellFormed (h : Peels k g stack g') (hg : g.WellFormed) : g'.WellFormed := by
  induction h with
  | nil => exact hg
  | cons _ _ _ ih => exact ih (hg.remove _)

theorem Peels.temps (h : Peels k g stack g') : g'.temps = g.temps := by
  induction h with
  | nil => rfl
  | cons _ _ _ ih => rw [ih, temps_remove]

theorem Peels.pressure (h : Peels k g stack g') : g'.pressure = g.pressure := by
  induction h with
  | nil => rfl
  | cons _ _ _ ih => rw [ih, pressure_remove]

theorem Peels.neighbors (h : Peels k g stack g') : g'.neighbors t = g.neighbors t := by
  induction h with
  | nil => rfl
  | cons _ _ _ ih => rw [ih, neighbors_remove]

theorem Peels.hasEdge (h : Peels k g stack g') : g'.hasEdge t u = g.hasEdge t u := by
  rw [Graph.hasEdge, h.neighbors, Graph.hasEdge]

theorem Peels.degreeIn (h : Peels k g stack g') : g'.degreeIn S t = g.degreeIn S t :=
  degreeIn_congr fun _ => h.hasEdge

/-- What is peeled off and what stays make up what was present. -/
theorem Peels.hasNode_iff (h : Peels k g stack g') :
    g'.hasNode t = true ↔ g.hasNode t = true ∧ t ∉ stack := by
  induction h with
  | nil => simp
  | cons _ _ _ ih => rw [ih, hasNode_remove, List.mem_cons]; tauto

theorem Peels.nodup (h : Peels k g stack g') :
    stack.Nodup ∧ ∀ t ∈ stack, g.hasNode t = true := by
  induction h with
  | nil => simp
  | cons hleast _ _ ih =>
    refine ⟨List.nodup_cons.2 ⟨fun hmem => ?_, ih.1⟩, fun u hu => ?_⟩
    · exact (hasNode_remove.1 (ih.2 _ hmem)).1 rfl
    · rcases List.mem_cons.1 hu with rfl | hu
      · exact hleast.present
      · exact (hasNode_remove.1 (ih.2 u hu)).2

theorem Peels.perm_of_empty (h : Peels k g stack g') (hg : g.temps.Nodup) (hempty : g'.present = ∅) :
    stack.Perm g.presentTemps := by
  rw [List.perm_ext_iff_of_nodup h.nodup.1 (nodup_presentTemps hg)]
  intro t
  rw [mem_presentTemps hg]
  refine ⟨h.nodup.2 t, fun ht => ?_⟩
  by_contra hmem
  have := mem_present.2 (h.hasNode_iff.2 ⟨ht, hmem⟩)
  rw [hempty] at this; cases this

/-! ## Dense sets -/

/-- A set of present nodes, each of which has at least `k` neighbours in the set. -/
def Dense (g : Graph) (k : Int) (S : Finset Temp) : Prop :=
  ∀ t ∈ S, g.hasNode t = true ∧ k ≤ g.degreeIn S t

theorem degreeIn_mono {S' : Finset Temp} (h : S ⊆ S') : g.degreeIn S t ≤ g.degreeIn S' t :=
  Finset.card_le_card (Finset.filter_subset_filter _ h)

theorem Dense.subset_present (h : g.Dense k S) : S ⊆ g.present :=
  fun t ht => mem_present.2 (h t ht).1

/-- **No node of a dense set is peeled off.** -/
theorem Peels.keeps_dense (h : Peels k g stack g') (hg : g.WellFormed) (hS : g.Dense k S) :
    g'.Dense k S := by
  induction h with
  | nil => exact hS
  | @cons g g' t ts hleast hlt _ ih =>
    have hout : t ∉ S := by
      intro ht
      have h₁ := (hS t ht).2
      have h₂ : g.degreeIn S t ≤ g.degreeIn g.present t := degreeIn_mono hS.subset_present
      rw [hg.degree t hleast.present] at hlt
      omega
    refine ih (hg.remove t) fun u hu => ⟨?_, ?_⟩
    · exact hasNode_remove.2 ⟨fun e => hout (e ▸ hu), (hS u hu).1⟩
    · rw [degreeIn_congr (g := g) fun _ => hasEdge_remove]; exact (hS u hu).2

/-- A graph whose least node has degree `k` or more is dense itself. -/
theorem dense_present (hg : g.WellFormed) (ht : g.Least t) (hk : k ≤ g.degree t) :
    g.Dense k g.present := by
  intro u hu
  have hu' := mem_present.1 hu
  refine ⟨hu', ?_⟩
  rw [← hg.degree u hu']
  have := ht.degree_le hu'
  omega

/-- Peeling neither makes nor destroys dense sets. -/
theorem Peels.dense_iff (h : Peels k g stack g') (hg : g.WellFormed) : g'.Dense k S ↔ g.Dense k S := by
  refine ⟨fun hS t ht => ⟨(h.hasNode_iff.1 (hS t ht).1).1, ?_⟩, h.keeps_dense hg⟩
  rw [← h.degreeIn]; exact (hS t ht).2

/-- Of some nodes, the first one of largest degree. -/
theorem firstOfMaxDegree_spec (g : Graph) {ts : List Temp} (h : ts ≠ []) :
    ∃ pre c post, ts = pre ++ c :: post ∧ g.firstOfMaxDegree? ts = some c ∧
      (∀ t ∈ pre, g.degree t < g.degree c) ∧ ∀ t ∈ post, g.degree t ≤ g.degree c := by
  induction ts with
  | nil => exact absurd rfl h
  | cons t ts ih =>
    rcases ts with _ | ⟨u, us⟩
    · exact ⟨[], t, [], rfl, rfl, by simp, by simp⟩
    obtain ⟨pre, c, post, hsplit, hmax, hpre, hpost⟩ := ih (by simp)
    have hle : ∀ x ∈ u :: us, g.degree x ≤ g.degree c := by
      intro x hx
      rw [hsplit] at hx
      rcases List.mem_append.1 hx with hx | hx
      · exact (hpre x hx).le
      · rcases List.mem_cons.1 hx with rfl | hx
        · exact le_rfl
        · exact hpost x hx
    rw [firstOfMaxDegree?, hmax]
    by_cases hlt : g.degree t < g.degree c
    · refine ⟨t :: pre, c, post, by rw [hsplit, List.cons_append], by simp [hlt], ?_, hpost⟩
      intro x hx
      rcases List.mem_cons.1 hx with rfl | hx
      · exact hlt
      · exact hpre x hx
    · exact ⟨[], t, u :: us, rfl, by simp [hlt], by simp,
        fun x hx => (hle x hx).trans (not_lt.1 hlt)⟩

/-- A spill request that asks for the nodes of `S`: they are the largest dense
    set, they are listed in the order of their addition, and the candidate is the
    first of them with the most neighbours among them. -/
structure StuckOn (g : Graph) (k : Int) (S : Finset Temp) (e : SpillRequired) : Prop where
  nonempty : S.Nonempty
  dense : g.Dense k S
  largest : ∀ S', g.Dense k S' → S' ⊆ S
  stuck : e.stuck = g.temps.filter fun t => t ∈ S
  candidate : ∃ pre c post, e.stuck = pre ++ c :: post ∧ e.candidate = some c ∧
    (∀ t ∈ pre, g.degreeIn S t < g.degreeIn S c) ∧ ∀ t ∈ post, g.degreeIn S t ≤ g.degreeIn S c
  k : e.k = k
  pressure : e.pressure = g.pressure

/-- A graph that cannot be peeled further asks for all that is left of it. -/
theorem Peels.stuckOn (h : Peels k g stack g') (hg : g.WellFormed) (ht : g'.Least t)
    (hk : k ≤ g'.degree t) : g.StuckOn k g'.present (g'.spillRequired k) := by
  have hg' := h.wellFormed hg
  have hdeg : ∀ u ∈ g'.presentTemps, g'.degree u = g.degreeIn g'.present u := by
    intro u hu
    rw [hg'.degree u ((mem_presentTemps hg'.nodup).1 hu), h.degreeIn]
  have hne : g'.presentTemps ≠ [] := List.ne_nil_of_mem ((mem_presentTemps hg'.nodup).2 ht.present)
  refine ⟨⟨t, mem_present.2 ht.present⟩, (h.dense_iff hg).1 (dense_present hg' ht hk),
    fun S' hS' => ((h.dense_iff hg).2 hS').subset_present, ?_, ?_, rfl, h.pressure⟩
  · rw [← h.temps]
    refine (presentTemps_eq hg'.nodup).trans (List.filter_congr fun u _ => ?_)
    rw [Bool.eq_iff_iff, decide_eq_true_eq, mem_present]
  · obtain ⟨pre, c, post, hsplit, hc, hpre, hpost⟩ := firstOfMaxDegree_spec g' hne
    have hmem : ∀ u ∈ pre ++ c :: post, g'.degree u = g.degreeIn g'.present u := hsplit ▸ hdeg
    refine ⟨pre, c, post, hsplit, hc, fun u hu => ?_, fun u hu => ?_⟩
    · rw [← hmem u (by simp [hu]), ← hmem c (by simp)]; exact hpre u hu
    · rw [← hmem u (by simp [hu]), ← hmem c (by simp)]; exact hpost u hu

/-- A graph without dense sets is taken apart completely. -/
theorem simplify_of_no_dense (hg : g.WellFormed) (h : ¬ ∃ S : Finset Temp, S.Nonempty ∧ g.Dense k S) :
    ∃ stack g', Peels k g stack g' ∧ g'.present = ∅ ∧ g.simplify k = (g', .ok stack) := by
  obtain ⟨stack, g', hpeel, hend⟩ := simplify_spec hg k
  rcases hend with ⟨hempty, hrun⟩ | ⟨t, ht, hk, -⟩
  · exact ⟨stack, g', hpeel, hempty, hrun⟩
  · have hstuck := hpeel.stuckOn hg ht hk
    exact absurd ⟨_, hstuck.nonempty, hstuck.dense⟩ h

/-- A graph with a dense set gets stuck on the largest one. -/
theorem simplify_of_dense (hg : g.WellFormed) (hne : S.Nonempty) (hS : g.Dense k S) :
    ∃ g' e, g.StuckOn k g'.present e ∧ g.simplify k = (g', .error (.spill e)) := by
  obtain ⟨stack, g', hpeel, hend⟩ := simplify_spec hg k
  rcases hend with ⟨hempty, -⟩ | ⟨t, ht, hk, hrun⟩
  · have hsub := ((hpeel.dense_iff hg).2 hS).subset_present
    rw [hempty, Finset.subset_empty] at hsub
    exact absurd hsub hne.ne_empty
  · exact ⟨g', _, hpeel.stuckOn hg ht hk, hrun⟩

end

/-- **A stuck graph is left with its largest dense set.**  After any calls and
    with any queue, simplification asks for a spill iff some non-empty set of present
    nodes has at least `k` neighbours for each node inside the set.  It then asks for the
    largest such set, which is also what stays present; else it takes off every present
    node. -/
theorem simplify_stuck_iff_dense (queue : Queue) (calls : List GraphCall) (k : Int) :
    ((∃ e, ((after calls).simplifyWith queue k).2 = .error (.spill e)) ↔
      ∃ S : Finset Temp, S.Nonempty ∧ (after calls).Dense k S) ∧
    (∀ e, ((after calls).simplifyWith queue k).2 = .error (.spill e) → ∃ S, (after calls).StuckOn k S e ∧
      ∀ t, ((after calls).simplifyWith queue k).1.hasNode t = true ↔ t ∈ S) ∧
    ((¬ ∃ e, ((after calls).simplifyWith queue k).2 = .error (.spill e)) →
      ∃ stack, ((after calls).simplifyWith queue k).2 = .ok stack ∧ stack.Perm (after calls).presentTemps ∧
        ∀ t, ((after calls).simplifyWith queue k).1.hasNode t = false) := by
  have hg := wellFormed_after calls
  rw [hg.simplifyWith_eq queue]
  by_cases h : ∃ S : Finset Temp, S.Nonempty ∧ (after calls).Dense k S
  · obtain ⟨S, hne, hS⟩ := h
    obtain ⟨g', e, hstuck, hrun⟩ := simplify_of_dense hg hne hS
    rw [hrun]
    refine ⟨⟨fun _ => ⟨S, hne, hS⟩, fun _ => ⟨e, rfl⟩⟩, fun e' he' => ?_, fun hno => absurd ⟨e, rfl⟩ hno⟩
    obtain rfl : e = e' := by simpa using he'
    exact ⟨g'.present, hstuck, fun t => mem_present.symm⟩
  · obtain ⟨stack, g', hpeel, hempty, hrun⟩ := simplify_of_no_dense hg h
    rw [hrun]
    refine ⟨⟨fun ⟨e, he⟩ => by simp at he, fun hS => absurd hS h⟩, fun e he => by simp at he,
      fun _ => ⟨stack, rfl, hpeel.perm_of_empty hg.nodup hempty, fun t => ?_⟩⟩
    rw [← Bool.not_eq_true, ← mem_present, hempty]
    exact Finset.notMem_empty t

end Graph

end Straightline
