/-
  The interference graph of a block.

  * `known_ofCode`: the nodes are the temps of the instructions, except the frame
    pointer;
  * `hasEdge_ofCode`: two different nodes are adjacent iff some instruction defines
    one of them while the other one is live after it;
  * `demand`, `demand_le_pressure`, `pressure_eq_demand`: the pressure is the
    largest number of nodes that are live with a definition;
  * `Block.interference_ok_iff`: there is a graph iff the block has no control op
    and fits the op table.
-/
import Mathlib.Tactic.Tauto
import Straightline.Proofs.Graph
import Straightline.Proofs.Liveness

namespace Straightline

namespace Graph

/-! ## Nodes -/

/-- All nodes are present, and there is nothing else yet. -/
structure Bare (g : Graph) : Prop where
  wellFormed : g.WellFormed
  present : ∀ t, g.known t = true → g.hasNode t = true
  edgeless : ∀ a b, g.hasEdge a b = false
  pressure : g.pressure = 0

section
variable {g : Graph} {fp : Option Temp} {t u : Temp} {i : Instr} {code : List Instr}

theorem bare_empty : empty.Bare :=
  ⟨wellFormed_empty, fun t h => by simp [known, node?, empty] at h,
    fun a b => by simp [hasEdge, neighbors, node?, empty, DenseSet.not_contains_empty], rfl⟩

theorem Bare.withNode (hg : g.Bare) (t : Temp) : (g.withNode t).Bare :=
  ⟨hg.wellFormed.withNode t, fun _ => hasNode_withNode_of_known hg.present,
    fun a b => hasEdge_withNode.trans (hg.edgeless a b), pressure_withNode.trans hg.pressure⟩

/-- Adding temps makes nodes of those that are not the frame pointer. -/
theorem Bare.withTemps (hg : g.Bare) (fp : Option Temp) {ts : List Temp} (hts : ∀ t ∈ ts, 0 ≤ t) :
    (ts.foldl (fun g t => if some t = fp then g else g.withNode t) g).Bare ∧
      ∀ u, (ts.foldl (fun g t => if some t = fp then g else g.withNode t) g).known u = true ↔
        g.known u = true ∨ (u ∈ ts ∧ some u ≠ fp) := by
  induction ts generalizing g with
  | nil => exact ⟨hg, by simp⟩
  | cons t ts ih =>
    have hts' : ∀ u ∈ ts, 0 ≤ u := fun u hu => hts u (by simp [hu])
    rw [List.foldl_cons]
    by_cases hfp : some t = fp
    · rw [if_pos hfp]
      obtain ⟨hbare, hknown⟩ := ih hg hts'
      refine ⟨hbare, fun u => ?_⟩
      have : u = t → some u = fp := fun e => e ▸ hfp
      rw [hknown, List.mem_cons]; tauto
    · rw [if_neg hfp]
      obtain ⟨hbare, hknown⟩ := ih (hg.withNode t) hts'
      refine ⟨hbare, fun u => ?_⟩
      have h₀ := hts t (by simp)
      have : u = t → some u ≠ fp := fun e => e ▸ hfp
      rw [hknown, known_withNode, List.mem_cons]; tauto

theorem Bare.withCode (hg : g.Bare) (fp : Option Temp) (hcode : ∀ i ∈ code, ∀ t ∈ i.temps, 0 ≤ t) :
    (code.foldl (withOperands fp) g).Bare ∧
      ∀ u, (code.foldl (withOperands fp) g).known u = true ↔
        g.known u = true ∨ ((∃ i ∈ code, u ∈ i.temps) ∧ some u ≠ fp) := by
  induction code generalizing g with
  | nil => exact ⟨hg, by simp⟩
  | cons i code ih =>
    obtain ⟨hbare, hknown⟩ := hg.withTemps fp (hcode i (by simp))
    obtain ⟨hbare', hknown'⟩ := ih hbare fun j hj => hcode j (by simp [hj])
    refine ⟨hbare', fun u => ?_⟩
    refine (hknown' u).trans ?_
    rw [hknown]
    simp only [List.mem_cons, exists_eq_or_imp]
    tauto

end

/-! ## Edges of one definition -/

section
variable {g h : Graph} {fp : Option Temp} {a b d t : Temp} {i : Instr} {ts : List Temp}

/-- What one edge does not change, edges from one node to several do not change. -/
theorem foldl_withEdge_eq {α : Sort*} (f : Graph → α) (hf : ∀ g a b, f (withEdge g a b) = f g) :
    f (ts.foldl (·.withEdge d ·) g) = f g := by
  induction ts generalizing g with
  | nil => rfl
  | cons t ts ih => rw [List.foldl_cons, ih, hf]

theorem temps_foldl_withEdge : (ts.foldl (·.withEdge d ·) g).temps = g.temps :=
  foldl_withEdge_eq temps fun _ _ _ => temps_withEdge

theorem hasNode_foldl_withEdge : (ts.foldl (·.withEdge d ·) g).hasNode t = g.hasNode t :=
  foldl_withEdge_eq (hasNode · t) fun _ _ _ => hasNode_withEdge

theorem pressure_foldl_withEdge : (ts.foldl (·.withEdge d ·) g).pressure = g.pressure :=
  foldl_withEdge_eq pressure fun _ _ _ => pressure_withEdge

theorem WellFormed.foldl_withEdge (hg : g.WellFormed) : (ts.foldl (·.withEdge d ·) g).WellFormed := by
  induction ts generalizing g with
  | nil => exact hg
  | cons t ts ih => exact ih (hg.withEdge d t)

theorem WellFormed.hasEdge_foldl_withEdge (hg : g.WellFormed) :
    (ts.foldl (·.withEdge d ·) g).hasEdge a b = true ↔ g.hasEdge a b = true ∨
      ∃ t ∈ ts, g.known d = true ∧ g.known t = true ∧ d ≠ t ∧ ((a = d ∧ b = t) ∨ (a = t ∧ b = d)) := by
  induction ts generalizing g with
  | nil => simp
  | cons t ts ih =>
    rw [List.foldl_cons, ih (hg.withEdge d t), hg.hasEdge_withEdge]
    simp only [known_withEdge, List.mem_cons, exists_eq_or_imp, or_assoc]

theorem mem_liveNodes : t ∈ g.liveNodes fp d i ↔
    i.liveOut.contains t = true ∧ t ≠ d ∧ some t ≠ fp ∧ g.known t = true := by
  simp [liveNodes, DenseSet.mem_keys, and_assoc]

theorem nodup_liveNodes : (g.liveNodes fp d i).Nodup :=
  (DenseSet.nodup_keys _).filter _

theorem liveNodes_congr (hk : ∀ t, h.known t = g.known t) :
    h.liveNodes fp d i = g.liveNodes fp d i := by
  simp only [liveNodes, hk]

/-- The number of nodes that are live with what an instruction defines, which counts
    itself; zero if it defines no node. -/
def demand (g : Graph) (fp : Option Temp) (i : Instr) : Nat :=
  match i.definition? with
  | none => 0
  | some d => if some d = fp then 0 else (g.liveNodes fp d i).length + 1

theorem demand_congr (hk : ∀ t, h.known t = g.known t) : h.demand fp i = g.demand fp i := by
  simp only [demand, liveNodes_congr hk]

theorem demand_of_definition (hd : i.definition? = some d) (hfp : some d ≠ fp) :
    g.demand fp i = (g.liveNodes fp d i).length + 1 := by
  simp [demand, hd, hfp]

/-- An instruction either defines no node and adds nothing, or it links what it
    defines to the nodes live after it. -/
theorem withDefinition_cases (g : Graph) (fp : Option Temp) (i : Instr) :
    ((∀ d, i.definition? = some d → some d = fp) ∧ g.demand fp i = 0 ∧ g.withDefinition fp i = g) ∨
      ∃ d, i.definition? = some d ∧ some d ≠ fp ∧ g.withDefinition fp i =
        { (g.liveNodes fp d i).foldl (·.withEdge d ·) g with
          pressure := max g.pressure (g.demand fp i) } := by
  rcases hd : i.definition? with _ | d
  · exact Or.inl ⟨by simp, by simp [demand, hd], by simp [withDefinition, hd]⟩
  · by_cases hfp : some d = fp
    · subst hfp
      exact Or.inl ⟨by simp, by simp [demand, hd], by simp [withDefinition, hd]⟩
    · refine Or.inr ⟨d, rfl, hfp, ?_⟩
      simp [withDefinition, hd, hfp, demand, pressure_foldl_withEdge]

theorem temps_withDefinition : (g.withDefinition fp i).temps = g.temps := by
  rcases withDefinition_cases g fp i with ⟨-, -, e⟩ | ⟨d, -, -, e⟩
  · rw [e]
  · rw [e]; exact temps_foldl_withEdge

theorem known_withDefinition : (g.withDefinition fp i).known t = g.known t := by
  rw [Bool.eq_iff_iff, known_iff_mem, known_iff_mem, temps_withDefinition]

theorem hasNode_withDefinition : (g.withDefinition fp i).hasNode t = g.hasNode t := by
  rcases withDefinition_cases g fp i with ⟨-, -, e⟩ | ⟨d, -, -, e⟩
  · rw [e]
  · rw [e]; exact hasNode_foldl_withEdge

theorem WellFormed.withDefinition (hg : g.WellFormed) (fp : Option Temp) (i : Instr) :
    (g.withDefinition fp i).WellFormed := by
  rcases withDefinition_cases g fp i with ⟨-, -, e⟩ | ⟨d, -, -, e⟩
  · rw [e]; exact hg
  · rw [e]; exact hg.foldl_withEdge.setPressure _

theorem pressure_withDefinition (hp : 0 ≤ g.pressure) (fp : Option Temp) (i : Instr) :
    (g.withDefinition fp i).pressure = max g.pressure (g.demand fp i) := by
  rcases withDefinition_cases g fp i with ⟨-, h, e⟩ | ⟨d, -, -, e⟩
  · rw [e, h]; exact (max_eq_left hp).symm
  · rw [e]

/-- Some instruction defines the first temp while the second one is live. -/
def DefinedWith (i : Instr) (a b : Temp) : Prop :=
  i.definition? = some a ∧ i.liveOut.contains b = true

theorem WellFormed.hasEdge_withDefinition (hg : g.WellFormed)
    (hfp : ∀ t, g.known t = true → some t ≠ fp) :
    (g.withDefinition fp i).hasEdge a b = true ↔ g.hasEdge a b = true ∨
      (a ≠ b ∧ g.known a = true ∧ g.known b = true ∧ (DefinedWith i a b ∨ DefinedWith i b a)) := by
  rcases withDefinition_cases g fp i with ⟨hnone, -, e⟩ | ⟨d, hd, hdfp, e⟩
  · rw [e]
    refine ⟨Or.inl, ?_⟩
    rintro (h | ⟨-, ha, hb, h | h⟩)
    · exact h
    · exact absurd (hnone a h.1) (hfp a ha)
    · exact absurd (hnone b h.1) (hfp b hb)
  · rw [e]
    refine (hg.hasEdge_foldl_withEdge (d := d)).trans (or_congr_right ?_)
    simp only [mem_liveNodes, DefinedWith, hd, Option.some.injEq]
    constructor
    · rintro ⟨t, ⟨hlive, hne, -, ht⟩, hk, -, -, ⟨rfl, rfl⟩ | ⟨rfl, rfl⟩⟩
      · exact ⟨Ne.symm hne, hk, ht, Or.inl ⟨rfl, hlive⟩⟩
      · exact ⟨hne, ht, hk, Or.inr ⟨rfl, hlive⟩⟩
    · rintro ⟨hab, ha, hb, ⟨rfl, hlive⟩ | ⟨rfl, hlive⟩⟩
      · exact ⟨b, ⟨hlive, Ne.symm hab, hfp b hb, hb⟩, ha, hb, hab, Or.inl ⟨rfl, rfl⟩⟩
      · exact ⟨a, ⟨hlive, hab, hfp a ha, ha⟩, hb, ha, Ne.symm hab, Or.inr ⟨rfl, rfl⟩⟩

end

/-! ## The whole block -/

/-- What the definitions of some instructions add to a graph. -/
structure Defined (g : Graph) (fp : Option Temp) (code : List Instr) (g' : Graph) : Prop where
  wellFormed : g'.WellFormed
  temps : g'.temps = g.temps
  hasNode : ∀ t, g'.hasNode t = g.hasNode t
  edges : ∀ a b, g'.hasEdge a b = true ↔ g.hasEdge a b = true ∨ (a ≠ b ∧ g.known a = true ∧
    g.known b = true ∧ ∃ i ∈ code, DefinedWith i a b ∨ DefinedWith i b a)
  pressure_ge : g.pressure ≤ g'.pressure ∧ ∀ i ∈ code, (g.demand fp i : Int) ≤ g'.pressure
  pressure_eq : g'.pressure = g.pressure ∨ ∃ i ∈ code, g'.pressure = g.demand fp i

section
variable {g : Graph} {fp : Option Temp} {a b t : Temp} {code : List Instr}

theorem WellFormed.defined (hg : g.WellFormed) (hfp : ∀ t, g.known t = true → some t ≠ fp)
    (hp : 0 ≤ g.pressure) (code : List Instr) :
    g.Defined fp code (code.foldl (Graph.withDefinition fp) g) := by
  -- the nodes stay the same, so what each instruction adds can be said of `g`
  induction code generalizing g with
  | nil => exact ⟨hg, rfl, fun _ => rfl, by simp, by simp, Or.inl rfl⟩
  | cons i code ih =>
    have hknown : ∀ t, (g.withDefinition fp i).known t = g.known t := fun _ => known_withDefinition
    have hpress := pressure_withDefinition hp fp i
    obtain ⟨hwf, htemps, hnode, hedge, ⟨hge, hall⟩, heq⟩ := ih (hg.withDefinition fp i)
      (fun t ht => hfp t ((hknown t).symm.trans ht)) (by rw [hpress]; exact hp.trans (le_max_left _ _))
    simp only [demand_congr hknown] at hall heq
    rw [hpress] at hge heq
    refine ⟨hwf, htemps.trans temps_withDefinition, fun t => (hnode t).trans hasNode_withDefinition,
      fun a b => ?_, ⟨(le_max_left _ _).trans hge, fun j hj => ?_⟩, ?_⟩
    · rw [List.foldl_cons, hedge, hg.hasEdge_withDefinition hfp, hknown, hknown]
      simp only [List.mem_cons, exists_eq_or_imp, or_assoc, ← and_or_left]
    · rcases List.mem_cons.1 hj with rfl | hj
      · exact (le_max_right _ _).trans hge
      · exact hall j hj
    · rcases heq with heq | ⟨j, hj, heq⟩
      · rcases max_choice g.pressure (g.demand fp i : Int) with h | h
        · exact Or.inl (heq.trans h)
        · exact Or.inr ⟨i, by simp, heq.trans h⟩
      · exact Or.inr ⟨j, by simp [hj], heq⟩

/-- The graph of instructions, as made from its bare nodes. -/
theorem ofCode_defined (fp : Option Temp) (hcode : ∀ i ∈ code, ∀ t ∈ i.temps, 0 ≤ t) :
    ∃ g₀ : Graph, g₀.Bare ∧ g₀.Defined fp code (ofCode fp code) ∧
      ∀ t, g₀.known t = true ↔ (∃ i ∈ code, t ∈ i.temps) ∧ some t ≠ fp := by
  obtain ⟨hbare, hknown⟩ := bare_empty.withCode fp hcode
  have hknown' : ∀ t, (code.foldl (withOperands fp) empty).known t = true ↔
      (∃ i ∈ code, t ∈ i.temps) ∧ some t ≠ fp := fun t => by
    rw [hknown]; simp [known, node?, empty]
  refine ⟨_, hbare, ?_, hknown'⟩
  exact hbare.wellFormed.defined (fun t ht => ((hknown' t).1 ht).2) hbare.pressure.ge code

theorem Defined.known {g' : Graph} (h : g.Defined fp code g') : g'.known t = g.known t := by
  rw [Bool.eq_iff_iff, known_iff_mem, known_iff_mem, h.temps]

variable (hcode : ∀ i ∈ code, ∀ t ∈ i.temps, 0 ≤ t)
include hcode

theorem wellFormed_ofCode : (ofCode fp code).WellFormed := by
  obtain ⟨g₀, -, hdef, -⟩ := ofCode_defined fp hcode
  exact hdef.wellFormed

/-- **The nodes** are the temps of the instructions, except the frame pointer. -/
theorem known_ofCode : (ofCode fp code).known t = true ↔ (∃ i ∈ code, t ∈ i.temps) ∧ some t ≠ fp := by
  obtain ⟨g₀, -, hdef, hknown⟩ := ofCode_defined fp hcode
  rw [hdef.known]; exact hknown t

theorem known_of_definition {i : Instr} {d : Temp} (hi : i ∈ code) (hd : i.definition? = some d)
    (hfp : some d ≠ fp) : (ofCode fp code).known d = true :=
  (known_ofCode hcode).2
    ⟨⟨i, hi, Instr.mem_temps_of_definition (Instr.mem_definitions.2 hd)⟩, hfp⟩

theorem hasNode_ofCode (ht : (ofCode fp code).known t = true) : (ofCode fp code).hasNode t = true := by
  obtain ⟨g₀, hbare, hdef, -⟩ := ofCode_defined fp hcode
  rw [hdef.known] at ht
  rw [hdef.hasNode]; exact hbare.present t ht

/-- **The edges** join what an instruction defines with what is live after it. -/
theorem hasEdge_ofCode : (ofCode fp code).hasEdge a b = true ↔ a ≠ b ∧ (ofCode fp code).known a = true ∧
    (ofCode fp code).known b = true ∧ ∃ i ∈ code, DefinedWith i a b ∨ DefinedWith i b a := by
  obtain ⟨g₀, hbare, hdef, -⟩ := ofCode_defined fp hcode
  rw [hdef.edges, hdef.known, hdef.known, hbare.edgeless]
  simp

/-- **The pressure** is at least what every definition demands. -/
theorem demand_le_pressure {i : Instr} (hi : i ∈ code) :
    ((ofCode fp code).demand fp i : Int) ≤ (ofCode fp code).pressure := by
  obtain ⟨g₀, -, hdef, -⟩ := ofCode_defined fp hcode
  rw [demand_congr fun _ => hdef.known]; exact hdef.pressure_ge.2 i hi

/-- The pressure is what some definition demands, if there is a demand at all. -/
theorem pressure_eq_demand (fp : Option Temp) : (ofCode fp code).pressure = 0 ∨
    ∃ i ∈ code, (ofCode fp code).pressure = (ofCode fp code).demand fp i := by
  obtain ⟨g₀, hbare, hdef, -⟩ := ofCode_defined fp hcode
  rcases hdef.pressure_eq with h | ⟨i, hi, h⟩
  · exact Or.inl (h.trans hbare.pressure)
  · exact Or.inr ⟨i, hi, by rw [demand_congr fun _ => hdef.known]; exact h⟩

end

end Graph

namespace Block

variable {b : Block} {fp : Option Temp} {g : Graph}

theorem firstControl_eq_none : b.firstControl? = none ↔ b.hasControl = false := by
  rw [firstControl?, Option.map_eq_none_iff, List.find?_eq_none, hasControl, List.any_eq_false]
  constructor
  · intro h i hi
    obtain ⟨n, hn, rfl⟩ := List.getElem_of_mem hi
    exact h (b.code[n], n) (List.mk_mem_zipIdx_iff_getElem?.2 (List.getElem?_eq_getElem hn))
  · rintro h ⟨i, n⟩ hi
    exact h i (List.fst_mem_of_mem_zipIdx hi)

/-- **There is a graph** iff the block has no control op and fits the op table. -/
theorem interference_ok_iff :
    b.interference fp = .ok g ↔ b.hasControl = false ∧ b.check = .ok () ∧ g = .ofCode fp b.code := by
  rw [interference, ← firstControl_eq_none]
  rcases b.firstControl? with _ | e
  · rcases b.check with e | u
    · simp
    · simp [eq_comm]
  · simp

end Block

end Straightline
