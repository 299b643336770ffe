/-
  What verification finds.

  Verification looks at the nodes in the order of their addition, and then at the
  edges in the order of their ends, each edge once.

  * `pairwise_edges`: the edges are listed in ascending order;
  * `Defect`: the first thing that is wrong with an assignment;
  * `WellFormed.verify_eq_error_iff`: verification fails with exactly that;
  * `verify_after`: of every graph that calls can make, whatever was removed, and
    every assignment, verification accepts the proper ones and names the first
    defect of the others.
-/
import Mathlib
import Straightline.Proofs.Coloring
import Straightline.Proofs.GraphRuns

namespace Straightline

namespace Graph

variable {g : Graph} {asg : Assignment} {a b t : Temp} {e f : Temp × Temp}

/-! ## The order of edges -/

theorem edgeLe_iff : edgeLe e f = true ↔ toLex e ≤ toLex f := by
  simp [edgeLe, Prod.Lex.toLex_le_toLex]

/-- **Edges are listed in ascending order.** -/
theorem pairwise_edges (g : Graph) : g.edges.Pairwise fun e f => toLex e ≤ toLex f := by
  have hsorted : g.edges.Pairwise fun e f => edgeLe e f = true := by
    apply List.pairwise_mergeSort
    · intro e f h hef hfh
      rw [edgeLe_iff] at hef hfh ⊢
      exact hef.trans hfh
    · intro e f
      rw [Bool.or_eq_true, edgeLe_iff, edgeLe_iff]
      exact le_total _ _
  exact hsorted.imp edgeLe_iff.1

/-- In an ascending list the first that has a property is the least. -/
theorem find?_eq_some_iff_least {l : List (Temp × Temp)} (h : l.Pairwise fun e f => toLex e ≤ toLex f)
    {p : Temp × Temp → Bool} :
    l.find? p = some e ↔ e ∈ l ∧ p e = true ∧ ∀ f ∈ l, p f = true → toLex e ≤ toLex f := by
  have hleast : ∀ {e}, l.find? p = some e → ∀ f ∈ l, p f = true → toLex e ≤ toLex f := by
    intro e he f hf hpf
    obtain ⟨-, pre, post, rfl, hpre⟩ := List.find?_eq_some_iff_append.1 he
    rcases List.mem_append.1 hf with hf | hf
    · have hnot := hpre f hf
      simp [hpf] at hnot
    · rcases List.mem_cons.1 hf with rfl | hf
      · exact le_rfl
      · exact (List.pairwise_cons.1 (List.pairwise_append.1 h).2.1).1 f hf
  constructor
  · intro he
    exact ⟨List.mem_of_find?_eq_some he, List.find?_some he, hleast he⟩
  · rintro ⟨hmem, hp, hmin⟩
    rcases hfound : l.find? p with _ | f
    · exact absurd hp (List.find?_eq_none.1 hfound e hmem)
    · have hle := hleast hfound e hmem hp
      have hge := hmin f (List.mem_of_find?_eq_some hfound) (List.find?_some hfound)
      rw [toLex_inj.1 (hle.antisymm hge)]

/-! ## Defects -/

/-- The first thing that is wrong with an assignment. -/
inductive Defect (g : Graph) (asg : Assignment) : InternalError → Prop where
  /-- a node has no register, and all nodes added before it have one -/
  | uncolored {t : Temp} {pre post : List Temp} (split : g.temps = pre ++ t :: post)
      (before : ∀ u ∈ pre, (asg.get? u).isSome = true) (missing : asg.get? t = none) :
      Defect g asg (.uncolored t)
  /-- all nodes have registers, the ends of an edge have one, and no edge before it is like that -/
  | shared {a b : Temp} {r : Register} (colored : ∀ t, g.known t = true → (asg.get? t).isSome = true)
      (edge : g.hasEdge a b = true) (lt : a < b) (left : asg.get? a = some r) (right : asg.get? b = some r)
      (least : ∀ c d, g.hasEdge c d = true → c < d → asg.get? c = asg.get? d → toLex (a, b) ≤ toLex (c, d)) :
      Defect g asg (.shared a r b)

theorem firstUncolored_eq_some_iff : g.firstUncolored? asg = some t ↔
    asg.get? t = none ∧ ∃ pre post, g.temps = pre ++ t :: post ∧ ∀ u ∈ pre, (asg.get? u).isSome = true := by
  rw [firstUncolored?, List.find?_eq_some_iff_append]
  simp [Option.isSome_iff_ne_none]

theorem WellFormed.firstClash_eq_some_iff (hg : g.WellFormed) : g.firstClash? asg = some (a, b) ↔
    g.hasEdge a b = true ∧ a < b ∧ asg.get? a = asg.get? b ∧
      ∀ c d, g.hasEdge c d = true → c < d → asg.get? c = asg.get? d → toLex (a, b) ≤ toLex (c, d) := by
  rw [firstClash?, find?_eq_some_iff_least (pairwise_edges g)]
  simp only [Prod.forall, mem_edges hg.nodup, beq_iff_eq]
  constructor
  · rintro ⟨⟨hlt, hedge⟩, hsame, hleast⟩
    exact ⟨hedge, hlt, hsame, fun c d he hcd => hleast c d ⟨hcd, he⟩⟩
  · rintro ⟨hedge, hlt, hsame, hleast⟩
    exact ⟨⟨hlt, hedge⟩, hsame, fun c d he => hleast c d he.2 he.1⟩

theorem verify_eq_error_iff_found {e : InternalError} : g.verify asg = .error e ↔
    (∃ t, g.firstUncolored? asg = some t ∧ e = .uncolored t) ∨
      (g.firstUncolored? asg = none ∧
        ∃ a b, g.firstClash? asg = some (a, b) ∧ e = .shared a ((asg.get? a).getD []) b) := by
  rw [verify]
  rcases g.firstUncolored? asg with _ | t
  · rcases g.firstClash? asg with _ | ⟨a, b⟩
    · simp
    · simp [eq_comm]
  · simp [eq_comm]

/-- **Verification fails with the first defect.** -/
theorem WellFormed.verify_eq_error_iff (hg : g.WellFormed) (e : InternalError) :
    g.verify asg = .error e ↔ g.Defect asg e := by
  rw [verify_eq_error_iff_found]
  constructor
  · rintro (⟨t, hu, rfl⟩ | ⟨hu, a, b, hc, rfl⟩)
    · obtain ⟨ht, pre, post, hsplit, hpre⟩ := firstUncolored_eq_some_iff.1 hu
      exact .uncolored hsplit hpre ht
    · have hcolored := firstUncolored_eq_none.1 hu
      obtain ⟨hedge, hlt, hsame, hleast⟩ := hg.firstClash_eq_some_iff.1 hc
      obtain ⟨r, hr⟩ := Option.isSome_iff_exists.1 (hcolored a (known_of_hasEdge hedge))
      rw [hr, Option.getD_some]
      exact .shared hcolored hedge hlt hr (hsame ▸ hr) hleast
  · rintro (⟨hsplit, hpre, ht⟩ | ⟨hcolored, hedge, hlt, ha, hb, hleast⟩)
    · exact .inl ⟨_, firstUncolored_eq_some_iff.2 ⟨ht, _, _, hsplit, hpre⟩, rfl⟩
    · have hfound := hg.firstClash_eq_some_iff.2 ⟨hedge, hlt, ha.trans hb.symm, hleast⟩
      exact .inr ⟨firstUncolored_eq_none.2 hcolored, _, _, hfound, by rw [ha, Option.getD_some]⟩

/-! ## Whole runs -/

theorem known_after_iff {calls : List GraphCall} :
    (after calls).known t = true ↔ 0 ≤ t ∧ .addNode t ∈ calls := by
  rw [known_iff_mem, temps_after, List.mem_eraseDups, List.mem_filterMap]
  constructor
  · rintro ⟨c, hc, hadded⟩
    cases c with
    | addNode u =>
      simp only [GraphCall.added?, Option.ite_none_right_eq_some, Option.some.injEq] at hadded
      exact ⟨hadded.2 ▸ hadded.1, hadded.2 ▸ hc⟩
    | addEdge a b => cases hadded
    | remove u => cases hadded
    | setPressure p => cases hadded
  · rintro ⟨hnonneg, hmem⟩
    exact ⟨_, hmem, if_pos hnonneg⟩

/-- **Verification is sound and complete.** An assignment passes iff every node ever added has a
    register and adjacent temps, removed or not, have different ones; else verification fails with
    the first defect. -/
theorem verify_after (calls : List GraphCall) (asg : Assignment) :
    ((after calls).verify asg = .ok () ↔
      (∀ t, 0 ≤ t → .addNode t ∈ calls → ∃ r, asg.get? t = some r) ∧
        ∀ a b, (after calls).hasEdge a b = true → asg.get? a ≠ asg.get? b) ∧
      ∀ e, (after calls).verify asg = .error e ↔ (after calls).Defect asg e := by
  have hg : (after calls).WellFormed := wellFormed_after calls
  refine ⟨?_, hg.verify_eq_error_iff⟩
  rw [hg.verify_eq_ok_iff]
  constructor
  · intro h
    refine ⟨?_, h.distinct⟩
    intro t hnonneg hadded
    exact Option.isSome_iff_exists.1 (h.colored t (known_after_iff.2 ⟨hnonneg, hadded⟩))
  · rintro ⟨hcolored, hdistinct⟩
    refine ⟨?_, hdistinct⟩
    intro t ht
    obtain ⟨hnonneg, hadded⟩ := known_after_iff.1 ht
    exact Option.isSome_iff_exists.2 (hcolored t hnonneg hadded)

end Graph

end Straightline
