/-
  Allocation does not depend on the numbers of temps.

  Neighbours are visited in the order of their numbers, and so are live temps and
  candidates.  What comes of it depends on degrees and on the order in which nodes were
  added, and these stay the same if the temps of a block are renumbered.

  * `Graph.Relabeled`: two graphs that differ in the numbers of their nodes only;
  * `Relabeled.simplify`: a graph can be peeled off in one way only, so that relabeled
    graphs are taken apart alike, and their nodes get the same colors
    (`Relabeled.selectColors`);
  * `Graph.relabeled_ofCode`: the graphs of renumbered code are relabeled;
  * `allocate_renumbered`: hence allocation ends alike.
-/
import Mathlib
import Straightline.Proofs.Allocation
import Straightline.Proofs.GraphRuns
import Straightline.Proofs.Renaming

namespace Straightline

variable {ρ : Temp → Temp}

/-! ## Maps -/

/-- The entries of `m'` are those of `m`, each moved to the renamed temp. -/
structure TempMap.Moved {α : Type} (ρ : Temp → Temp) (m m' : TempMap α) : Prop where
  get? : ∀ t, m'.get? (ρ t) = m.get? t
  only : ∀ u, (m'.get? u).isSome = true → ∃ t, ρ t = u

namespace TempMap.Moved

variable {α β : Type} {m m' : TempMap α}

theorem empty : (TempMap.empty : TempMap α).Moved ρ .empty :=
  ⟨fun _ => rfl, fun u h => by simp [get?_empty] at h⟩

theorem insert (hρ : Function.Injective ρ) (h : m.Moved ρ m') (t : Temp) (a : α) :
    (m.insert t a).Moved ρ (m'.insert (ρ t) a) := by
  constructor
  · intro u
    rw [get?_insert, get?_insert, h.get?]
    exact if_congr hρ.eq_iff rfl rfl
  · intro u hu
    by_cases he : u = ρ t
    · exact ⟨t, he.symm⟩
    · rw [get?_insert, if_neg he] at hu
      exact h.only u hu

theorem map (h : m.Moved ρ m') (f : α → β) : (m.map f).Moved ρ (m'.map f) := by
  constructor
  · intro t
    rw [get?_map, get?_map, h.get?]
  · intro u hu
    rw [get?_map, Option.isSome_map] at hu
    exact h.only u hu

end TempMap.Moved

/-- The spill request with its temps renamed. -/
def SpillRequired.renamed (ρ : Temp → Temp) (s : SpillRequired) : SpillRequired :=
  { s with stuck := s.stuck.map ρ, candidate := s.candidate.map ρ }

namespace Graph

/-! ## Relabeled graphs -/

/-- The nodes of `g'` are those of `g` under other numbers, added and removed alike, with
    the same edges. -/
structure Relabeled (ρ : Temp → Temp) (g g' : Graph) : Prop where
  injective : Function.Injective ρ
  left : g.WellFormed
  right : g'.WellFormed
  temps : g'.temps = g.temps.map ρ
  hasNode : ∀ t, g'.hasNode (ρ t) = g.hasNode t
  hasEdge : ∀ a b, g'.hasEdge (ρ a) (ρ b) = g.hasEdge a b
  pressure : g'.pressure = g.pressure

namespace Relabeled

variable {g g' : Graph} {k : Int} {t u : Temp} {S : Finset Temp} (h : g.Relabeled ρ g')
include h

theorem known : g'.known (ρ t) = g.known t := by
  rw [Bool.eq_iff_iff, known_iff_mem, known_iff_mem, h.temps, List.mem_map_of_injective h.injective]

theorem exists_of_known (hu : g'.known u = true) : ∃ t, g.known t = true ∧ ρ t = u := by
  rw [known_iff_mem, h.temps] at hu
  obtain ⟨t, ht, rfl⟩ := List.mem_map.1 hu
  exact ⟨t, known_iff_mem.2 ht, rfl⟩

theorem rank : g'.rank (ρ t) = g.rank t := by
  have hidx : (g.temps.map ρ).idxOf (ρ t) = g.temps.idxOf t := by
    simp only [List.idxOf, List.findIdx_map]
    congr 1
    funext u
    exact Bool.eq_iff_iff.2 (by simp [h.injective.eq_iff])
  rw [Graph.rank, Graph.rank, h.known, h.temps, hidx]

theorem present : g'.present = g.present.image ρ := by
  ext u
  rw [mem_present, Finset.mem_image]
  constructor
  · intro hu
    obtain ⟨t, -, rfl⟩ := h.exists_of_known (known_of_hasNode hu)
    exact ⟨t, mem_present.2 ((h.hasNode t).symm.trans hu), rfl⟩
  · rintro ⟨t, ht, rfl⟩
    rw [h.hasNode]; exact mem_present.1 ht

theorem degreeIn : g'.degreeIn (S.image ρ) (ρ t) = g.degreeIn S t := by
  have himage : (S.image ρ).filter (fun u => g'.hasEdge (ρ t) u = true) =
      (S.filter fun u => g.hasEdge t u = true).image ρ := by
    rw [Finset.filter_image]
    simp only [h.hasEdge]
  rw [Graph.degreeIn, himage, Finset.card_image_of_injective _ h.injective, Graph.degreeIn]

theorem degree (ht : g.hasNode t = true) : g'.degree (ρ t) = g.degree t := by
  rw [h.right.degree _ ((h.hasNode t).trans ht), h.left.degree t ht, h.present, h.degreeIn]

theorem remove (t : Temp) : (g.remove t).Relabeled ρ (g'.remove (ρ t)) := by
  refine ⟨h.injective, h.left.remove t, h.right.remove _, ?_, fun u => ?_, fun a b => ?_, ?_⟩
  · rw [temps_remove, temps_remove, h.temps]
  · rw [Bool.eq_iff_iff, hasNode_remove, hasNode_remove, h.hasNode, h.injective.ne_iff]
  · rw [hasEdge_remove, hasEdge_remove, h.hasEdge]
  · rw [pressure_remove, pressure_remove, h.pressure]

theorem before (ht : g.hasNode t = true) (hu : g.hasNode u = true) :
    (g'.candidate (ρ u)).before (g'.candidate (ρ t)) = (g.candidate u).before (g.candidate t) := by
  have hsame : ∀ {v}, g.hasNode v = true → g'.candidate (ρ v) = ⟨ρ v, g.degree v, g.rank v⟩ := by
    intro v hv
    rw [candidate, h.degree hv, h.rank]
  rw [hsame ht, hsame hu]; rfl

/-- The least node is the same one. -/
theorem least_iff : g'.Least (ρ t) ↔ g.Least t := by
  constructor
  · intro hleast
    have ht := (h.hasNode t).symm.trans hleast.present
    refine ⟨ht, fun u hu => ?_⟩
    rw [← h.before ht hu]
    exact hleast.least _ ((h.hasNode u).trans hu)
  · intro hleast
    refine ⟨(h.hasNode t).trans hleast.present, fun v hv => ?_⟩
    obtain ⟨u, -, rfl⟩ := h.exists_of_known (known_of_hasNode hv)
    have hu := (h.hasNode u).symm.trans hv
    rw [h.before hleast.present hu]
    exact hleast.least u hu

end Relabeled

/-! ## Simplification -/

section
variable {g g' e e' : Graph} {k : Int} {t u : Temp} {stack stack' : List Temp}

theorem Relabeled.peels (h : g.Relabeled ρ g') (hp : Peels k g stack e) :
    ∃ e', Peels k g' (stack.map ρ) e' ∧ e.Relabeled ρ e' := by
  induction hp generalizing g' with
  | nil => exact ⟨g', .nil, h⟩
  | cons hleast hlt _ ih =>
    obtain ⟨e', hp', he'⟩ := ih (h.remove _)
    refine ⟨e', .cons (h.least_iff.2 hleast) ?_ hp', he'⟩
    rw [h.degree hleast.present]; exact hlt

theorem Relabeled.spent (h : g.Relabeled ρ g') (hg : g.Spent k) : g'.Spent k := by
  intro u hu
  obtain ⟨t, -, rfl⟩ := h.exists_of_known (known_of_hasNode hu.present)
  have ht := h.least_iff.1 hu
  rw [h.degree ht.present]; exact hg t ht

/-- What a stuck graph asks for is the same up to the numbers. -/
theorem Relabeled.firstOfMaxDegree (h : g.Relabeled ρ g') {ts : List Temp}
    (hts : ∀ t ∈ ts, g.hasNode t = true) :
    g'.firstOfMaxDegree? (ts.map ρ) = (g.firstOfMaxDegree? ts).map ρ := by
  induction ts with
  | nil => rfl
  | cons t ts ih =>
    obtain ⟨ht, hts⟩ := List.forall_mem_cons.1 hts
    rcases hmax : g.firstOfMaxDegree? ts with _ | u
    · simp [firstOfMaxDegree?, ih hts, hmax]
    · have hne : ts ≠ [] := by
        rintro rfl
        simp [firstOfMaxDegree?] at hmax
      have hu : g.hasNode u = true := by
        obtain ⟨pre, c, post, rfl, hc, -⟩ := firstOfMaxDegree_spec g hne
        rw [hmax] at hc; cases hc
        exact hts u (by simp)
      simp only [List.map_cons, firstOfMaxDegree?, ih hts, hmax, Option.map_some, h.degree ht, h.degree hu]
      split <;> rfl

theorem Relabeled.spillRequired (h : g.Relabeled ρ g') (k : Int) :
    g'.spillRequired k = (g.spillRequired k).renamed ρ := by
  have hstuck : g'.presentTemps = g.presentTemps.map ρ := by
    rw [presentTemps_eq h.right.nodup, presentTemps_eq h.left.nodup, h.temps, List.filter_map]
    simp only [Function.comp_def, h.hasNode]
  have hpresent : ∀ t ∈ g.presentTemps, g.hasNode t = true :=
    fun t => (mem_presentTemps h.left.nodup).1
  simp only [Graph.spillRequired, SpillRequired.renamed, hstuck, h.firstOfMaxDegree hpresent, h.pressure]

/-- **Relabeled graphs are simplified alike.** -/
theorem Relabeled.simplify (h : g.Relabeled ρ g') (k : Int) : ∃ e e', e.Relabeled ρ e' ∧
    ((∃ stack, Peels k g stack e ∧ e.present = ∅ ∧ g.simplify k = (e, .ok stack) ∧
        g'.simplify k = (e', .ok (stack.map ρ))) ∨
      (g.simplify k = (e, .error (.spill (e.spillRequired k))) ∧
        g'.simplify k = (e', .error (.spill ((e.spillRequired k).renamed ρ))))) := by
  obtain ⟨stack, e, hp, hspent, hend⟩ := simplifyWith_spent .skewHeap h.left k
  obtain ⟨stack', e', hp', hspent', hend'⟩ := simplifyWith_spent .skewHeap h.right k
  -- the renamed run of the first graph is a run of the second, which has only one
  obtain ⟨e₁, hp₁, he⟩ := h.peels hp
  obtain ⟨rfl, rfl⟩ := hp₁.unique (he.spent hspent) hp' hspent'
  have hiff : e₁.present = ∅ ↔ e.present = ∅ := by rw [he.present, Finset.image_eq_empty]
  refine ⟨e, e₁, he, ?_⟩
  rcases hend with ⟨hempty, hrun⟩ | ⟨hne, hrun⟩
  · rcases hend' with ⟨-, hrun'⟩ | ⟨hne', -⟩
    · exact Or.inl ⟨stack, hp, hempty, hrun, hrun'⟩
    · exact absurd (hiff.2 hempty) hne'
  · rcases hend' with ⟨hempty', -⟩ | ⟨-, hrun'⟩
    · exact absurd (hiff.1 hempty') hne
    · rw [he.spillRequired] at hrun'
      exact Or.inr ⟨hrun, hrun'⟩

end

/-! ## Selection -/

section
variable {g g' : Graph} {k : Nat} {stack : List Temp} {colors colors' : TempMap Nat}

theorem Relabeled.mem_usedColors (h : g.Relabeled ρ g') (hm : colors.Moved ρ colors') {t : Temp} {c : Nat} :
    c ∈ g'.usedColors colors' (ρ t) ↔ c ∈ g.usedColors colors t := by
  rw [Graph.mem_usedColors, Graph.mem_usedColors]
  constructor
  · rintro ⟨v, he, hv⟩
    obtain ⟨u, rfl⟩ := hm.only v (by rw [hv]; rfl)
    exact ⟨u, (h.hasEdge t u).symm.trans he, (hm.get? u).symm.trans hv⟩
  · rintro ⟨u, he, hu⟩
    exact ⟨ρ u, (h.hasEdge t u).trans he, (hm.get? u).trans hu⟩

/-- **The nodes of relabeled graphs get the same colors.** -/
theorem Relabeled.selectColors (h : g.Relabeled ρ g') (hsel : g.selectColors k stack = .ok colors) :
    ∃ colors', g'.selectColors k (stack.map ρ) = .ok colors' ∧ colors.Moved ρ colors' := by
  induction stack generalizing colors with
  | nil =>
    cases hsel
    exact ⟨.empty, rfl, .empty⟩
  | cons t stack ih =>
    obtain ⟨before, hbefore, hnode⟩ := selectColors_cons_eq_ok_iff.1 hsel
    obtain ⟨before', hbefore', hm⟩ := ih hbefore
    obtain ⟨c, hc, rfl⟩ := colorNode_eq_ok_iff.1 hnode
    rw [← DenseSet.firstUnset_congr fun _ => h.mem_usedColors hm] at hc
    exact ⟨before'.insert (ρ t) c,
      selectColors_cons_eq_ok_iff.2 ⟨before', hbefore', colorNode_eq_ok_iff.2 ⟨c, hc, rfl⟩⟩,
      hm.insert h.injective t c⟩

theorem Relabeled.proper_iff (h : g.Relabeled ρ g') {asg asg' : Assignment} (hm : asg.Moved ρ asg') :
    g'.Proper asg' ↔ g.Proper asg := by
  constructor
  · intro hp
    refine ⟨fun t ht => ?_, fun a b he => ?_⟩
    · rw [← hm.get?]
      exact hp.colored _ (h.known.trans ht)
    · rw [← hm.get?, ← hm.get?]
      exact hp.distinct _ _ ((h.hasEdge a b).trans he)
  · intro hp
    refine ⟨fun u hu => ?_, fun x y he => ?_⟩
    · obtain ⟨t, ht, rfl⟩ := h.exists_of_known hu
      rw [hm.get?]
      exact hp.colored t ht
    · obtain ⟨a, -, rfl⟩ := h.exists_of_known (known_of_hasEdge he)
      obtain ⟨b, -, rfl⟩ := h.exists_of_known (h.right.known_right he)
      rw [hm.get?, hm.get?]
      exact hp.distinct a b ((h.hasEdge a b).symm.trans he)

end

/-- Two outcomes of coloring that differ in the numbers of temps only. -/
inductive Alike (ρ : Temp → Temp) : Except ColoringError Assignment → Except ColoringError Assignment → Prop
  | ok {asg asg' : Assignment} : asg.Moved ρ asg' → Alike ρ (.ok asg) (.ok asg')
  | internal {e e' : InternalError} : Alike ρ (.error (.internal e)) (.error (.internal e'))
  | spill {s : SpillRequired} : Alike ρ (.error (.spill s)) (.error (.spill (s.renamed ρ)))

/-- **Relabeled graphs are colored alike.** -/
theorem Relabeled.color {g g' : Graph} (h : g.Relabeled ρ g') (regs : RegisterFile) :
    Alike ρ (g.color regs).2 (g'.color regs).2 := by
  obtain ⟨e, e', he, ⟨stack, hp, hempty, hrun, hrun'⟩ | ⟨hrun, hrun'⟩⟩ := h.simplify regs.length
  · obtain ⟨colors, hsel, -⟩ := hp.selectColors_spec h.left hempty
    rw [← selectColors_congr fun _ => hp.neighbors] at hsel
    obtain ⟨colors', hsel', hm⟩ := he.selectColors hsel
    rw [color_of_selected hrun hsel, color_of_selected hrun' hsel']
    have hm := hm.map fun c => regs.getD c []
    have hverify := he.right.verify_eq_ok_iff.trans ((he.proper_iff hm).trans he.left.verify_eq_ok_iff.symm)
    -- the check accepts both assignments or neither
    rcases hv : e.verify (colors.map fun c => regs.getD c []) with x | u
    · rcases hv' : e'.verify (colors'.map fun c => regs.getD c []) with x' | u'
      · exact .internal
      · rw [hverify.1 hv'] at hv; cases hv
    · rw [hverify.2 hv]
      exact .ok hm
  · rw [color_of_stuck hrun, color_of_stuck hrun']
    exact .spill

end Graph

/-! ## Renumbered code -/

/-- The operand with its temp renamed. -/
def Operand.renamed (ρ : Temp → Temp) (o : Operand) : Operand :=
  { o with temp := ρ o.temp }

/-- The code does the same under other numbers of temps. -/
def Renumbered (ρ : Temp → Temp) (code code' : List Instr) : Prop :=
  List.Forall₂ (fun i i' => i'.op = i.op ∧ Instr.Renamed ρ i i') code code'

namespace Instr

variable {i i' : Instr}

theorem operandAt_map (slot : Nat) (role : Role) (arg : Option Temp) :
    operandAt slot role (arg.map ρ) = (operandAt slot role arg).map (.renamed ρ) := by
  rw [operandAt, operandAt]
  split
  · rfl
  · simp only [Option.map_map]; rfl

theorem Renamed.operands (hop : i'.op = i.op) (h : Renamed ρ i i') :
    i'.operands = i.operands.map (.renamed ρ) := by
  simp only [operands_eq, hop, h.args, Slots.mapSome, operandAt_map, Option.toList_map, List.map_append]

theorem Renamed.temps (hop : i'.op = i.op) (h : Renamed ρ i i') : i'.temps = i.temps.map ρ := by
  simp only [Instr.temps, h.operands hop, List.map_map]; rfl

theorem Renamed.definition (hop : i'.op = i.op) (h : Renamed ρ i i') :
    i'.definition? = i.definition?.map ρ := by
  rw [definition?, definition?, h.operands hop, List.find?_map, Option.map_map, Option.map_map]
  rfl

end Instr

namespace Renumbered

variable {code code' : List Instr}

theorem exists_iff {P Q : Instr → Prop} (h : Renumbered ρ code code')
    (hPQ : ∀ i i', i'.op = i.op → Instr.Renamed ρ i i' → (P i' ↔ Q i)) :
    (∃ i ∈ code', P i) ↔ ∃ i ∈ code, Q i := by
  induction h with
  | nil => simp
  | cons hi _ ih => simp only [List.mem_cons, exists_eq_or_imp, ih, hPQ _ _ hi.1 hi.2]

theorem control (h : Renumbered ρ code code') :
    (code'.any (·.op.control)) = code.any (·.op.control) := by
  rw [Bool.eq_iff_iff, List.any_eq_true, List.any_eq_true]
  exact h.exists_iff fun _ _ hop _ => by rw [hop]

end Renumbered

namespace Graph

section
variable {g g' : Graph} {fp : Option Temp} {code code' : List Instr} {i i' : Instr} {t u d : Temp}

theorem temps_ofCode : (ofCode fp code).temps = (code.foldl (withOperands fp) empty).temps := by
  rw [ofCode]
  generalize code.foldl (withOperands fp) empty = g
  induction code generalizing g with
  | nil => rfl
  | cons i code ih => exact (ih _).trans temps_withDefinition

theorem some_eq_map_iff (hρ : Function.Injective ρ) : some (ρ t) = fp.map ρ ↔ some t = fp := by
  rw [← Option.map_some, (Option.map_injective hρ).eq_iff]

theorem temps_withNode_map (hρ : Function.Injective ρ) (h : g'.temps = g.temps.map ρ) (ht : 0 ≤ t)
    (ht' : 0 ≤ ρ t) : (g'.withNode (ρ t)).temps = (g.withNode t).temps.map ρ := by
  have hiff : ρ t ∈ g.temps.map ρ ↔ t ∈ g.temps := List.mem_map_of_injective hρ
  simp only [temps_withNode, h, hiff, ht, ht', true_and]
  split
  · rw [List.map_append, List.map_singleton]
  · rfl

theorem temps_withOperands_map (hρ : Function.Injective ρ) (h : g'.temps = g.temps.map ρ) {ts : List Temp}
    (hts : ∀ t ∈ ts, 0 ≤ t) (hts' : ∀ t ∈ ts.map ρ, 0 ≤ t) :
    ((ts.map ρ).foldl (fun g t => if some t = fp.map ρ then g else g.withNode t) g').temps =
      (ts.foldl (fun g t => if some t = fp then g else g.withNode t) g).temps.map ρ := by
  induction ts generalizing g g' with
  | nil => exact h
  | cons t ts ih =>
    obtain ⟨ht, hts⟩ := List.forall_mem_cons.1 hts
    obtain ⟨ht', hts'⟩ := List.forall_mem_cons.1 hts'
    simp only [List.map_cons, List.foldl_cons, some_eq_map_iff hρ]
    refine ih ?_ hts hts'
    split
    · exact h
    · exact temps_withNode_map hρ h ht ht'

theorem temps_withCode_map (hρ : Function.Injective ρ) (h : Renumbered ρ code code')
    (hcode : ∀ i ∈ code, ∀ t ∈ i.temps, 0 ≤ t) (hcode' : ∀ i ∈ code', ∀ t ∈ i.temps, 0 ≤ t)
    (hg : g'.temps = g.temps.map ρ) : (code'.foldl (withOperands (fp.map ρ)) g').temps =
      (code.foldl (withOperands fp) g).temps.map ρ := by
  induction h generalizing g g' with
  | nil => exact hg
  | cons hi _ ih =>
    obtain ⟨hfirst, hcode⟩ := List.forall_mem_cons.1 hcode
    obtain ⟨hfirst', hcode'⟩ := List.forall_mem_cons.1 hcode'
    have htemps := hi.2.temps hi.1
    rw [htemps] at hfirst'
    rw [Instr.temps, Instr.temps] at htemps
    refine ih hcode hcode' ?_
    rw [withOperands, withOperands, htemps]
    exact temps_withOperands_map hρ hg hfirst hfirst'

theorem definedWith_renamed (hρ : Function.Injective ρ) (hop : i'.op = i.op) (h : Instr.Renamed ρ i i') :
    DefinedWith i' (ρ t) (ρ u) ↔ DefinedWith i t u := by
  have hlive : i'.liveOut.contains (ρ u) = true ↔ i.liveOut.contains u = true := by
    rw [h.live]
    constructor
    · rintro ⟨v, hv, he⟩
      rw [← hρ he]; exact hv
    · intro hu
      exact ⟨u, hu, rfl⟩
  rw [DefinedWith, DefinedWith, h.definition hop, hlive, eq_comm, some_eq_map_iff hρ, eq_comm]

/-- The live nodes of renamed instructions are the renamed ones, in another order. -/
theorem liveNodes_renamed (hρ : Function.Injective ρ) (h : Instr.Renamed ρ i i')
    (htemps : g'.temps = g.temps.map ρ) :
    (g'.liveNodes (fp.map ρ) (ρ d) i').Perm ((g.liveNodes fp d i).map ρ) := by
  rw [List.perm_ext_iff_of_nodup nodup_liveNodes (nodup_liveNodes.map hρ)]
  intro u
  simp only [List.mem_map, mem_liveNodes, h.live, known_iff_mem, htemps]
  constructor
  · rintro ⟨⟨t, ht, rfl⟩, hd, hfp, hmem⟩
    refine ⟨t, ⟨ht, ?_, ?_, ?_⟩, rfl⟩
    · exact fun e => hd (by rw [e])
    · exact fun e => hfp ((some_eq_map_iff hρ).2 e)
    · exact (List.mem_map_of_injective hρ).1 (List.mem_map.2 hmem)
  · rintro ⟨t, ⟨ht, hd, hfp, hmem⟩, rfl⟩
    exact ⟨⟨t, ht, rfl⟩, hρ.ne hd, fun e => hfp ((some_eq_map_iff hρ).1 e), t, hmem, rfl⟩

theorem demand_renamed (hρ : Function.Injective ρ) (hop : i'.op = i.op) (h : Instr.Renamed ρ i i')
    (htemps : g'.temps = g.temps.map ρ) : g'.demand (fp.map ρ) i' = g.demand fp i := by
  rw [demand, demand, h.definition hop]
  rcases i.definition? with _ | d
  · rfl
  · simp only [Option.map_some, some_eq_map_iff hρ, (liveNodes_renamed hρ h htemps).length_eq, List.length_map]

theorem pressure_nonneg (hcode : ∀ i ∈ code, ∀ t ∈ i.temps, 0 ≤ t) : 0 ≤ (ofCode fp code).pressure := by
  rcases pressure_eq_demand hcode fp with h | ⟨i, -, h⟩
  · exact h.ge
  · rw [h]; exact Int.natCast_nonneg _

/-- Code that demands no more has no more pressure. -/
theorem pressure_le_of_demand {fp' : Option Temp} (hcode : ∀ i ∈ code, ∀ t ∈ i.temps, 0 ≤ t)
    (hcode' : ∀ i ∈ code', ∀ t ∈ i.temps, 0 ≤ t)
    (h : ∀ n, (∃ i ∈ code, (ofCode fp code).demand fp i = n) →
      ∃ i ∈ code', (ofCode fp' code').demand fp' i = n) :
    (ofCode fp code).pressure ≤ (ofCode fp' code').pressure := by
  rcases pressure_eq_demand hcode fp with hp | ⟨i, hi, hp⟩
  · rw [hp]; exact pressure_nonneg hcode'
  · obtain ⟨i', hi', he⟩ := h _ ⟨i, hi, rfl⟩
    rw [hp, ← he]; exact demand_le_pressure hcode' hi'

/-- **The graphs of renumbered code are relabeled.** -/
theorem relabeled_ofCode (hρ : Function.Injective ρ) (h : Renumbered ρ code code')
    (hcode : ∀ i ∈ code, ∀ t ∈ i.temps, 0 ≤ t) (hcode' : ∀ i ∈ code', ∀ t ∈ i.temps, 0 ≤ t) :
    (ofCode fp code).Relabeled ρ (ofCode (fp.map ρ) code') := by
  have htemps : (ofCode (fp.map ρ) code').temps = (ofCode fp code).temps.map ρ :=
    by rw [temps_ofCode, temps_ofCode]; exact temps_withCode_map hρ h hcode hcode' rfl
  have hknown : ∀ t, (ofCode (fp.map ρ) code').known (ρ t) = true ↔ (ofCode fp code).known t = true := by
    intro t
    rw [known_iff_mem, known_iff_mem, htemps, List.mem_map_of_injective hρ]
  have hdemand : ∀ n, (∃ i ∈ code', (ofCode (fp.map ρ) code').demand (fp.map ρ) i = n) ↔
      ∃ i ∈ code, (ofCode fp code).demand fp i = n :=
    fun n => h.exists_iff fun i i' hop hi => by rw [demand_renamed hρ hop hi htemps]
  refine ⟨hρ, wellFormed_ofCode hcode, wellFormed_ofCode hcode', htemps, fun t => ?_, fun a b => ?_, ?_⟩
  · rw [Bool.eq_iff_iff]
    constructor
    · intro ht
      exact hasNode_ofCode hcode ((hknown t).1 (known_of_hasNode ht))
    · intro ht
      exact hasNode_ofCode hcode' ((hknown t).2 (known_of_hasNode ht))
  · rw [Bool.eq_iff_iff, hasEdge_ofCode hcode', hasEdge_ofCode hcode, hρ.ne_iff, hknown, hknown,
      h.exists_iff fun i i' hop hi =>
        or_congr (definedWith_renamed hρ hop hi) (definedWith_renamed hρ hop hi)]
  · exact le_antisymm (pressure_le_of_demand hcode' hcode fun n => (hdemand n).1)
      (pressure_le_of_demand hcode hcode' fun n => (hdemand n).2)

end

end Graph

/-! ## Allocation -/

section
variable {cfg : AllocatorConfig} {b b' : Block}

/-- **Allocation does not depend on the numbers of temps.** Of two blocks that fit the op
    table and differ in the numbers of their temps only, both are allocated or none, the
    temps that correspond to each other getting the same register; and both ask for a
    spill or none, for temps that correspond. -/
theorem allocate_renumbered (hρ : Function.Injective ρ) (hspill : cfg.spiller = none)
    (hctl : b.hasControl = false) (hcheck : b.check = .ok ()) (hcheck' : b'.check = .ok ())
    (h : Renumbered ρ b.code b'.code) :
    let run := (allocate cfg b).result
    let run' := (allocate { cfg with fp := cfg.fp.map ρ } b').result
    ((∃ a, run = .ok a) ↔ ∃ a', run' = .ok a') ∧
      (∀ a a', run = .ok a → run' = .ok a' →
        (∀ t, a'.assignment.get? (ρ t) = a.assignment.get? t) ∧
        ∀ u, (a'.assignment.get? u).isSome = true → ∃ t, ρ t = u) ∧
      ((∃ e, run = .error (.spill e)) ↔ ∃ e', run' = .error (.spill e')) ∧
      ∀ e e', run = .error (.spill e) → run' = .error (.spill e') →
        e'.stuck = e.stuck.map ρ ∧ e'.candidate = e.candidate.map ρ ∧ e'.pressure = e.pressure := by
  intro run run'
  let moved : AllocatorConfig := { cfg with fp := cfg.fp.map ρ }
  by_cases hregs : cfg.regs = []
  · have hrun : run = .error .emptyRegisterFile := allocate_of_no_registers hregs
    have hrun' : run' = .error .emptyRegisterFile := allocate_of_no_registers hregs
    simp [hrun, hrun']
  have hctl' : b'.hasControl = false := h.control.trans hctl
  have hgraphs : (Graph.ofCode cfg.fp b.code).Relabeled ρ (.ofCode (cfg.fp.map ρ) b'.code) :=
    Graph.relabeled_ofCode hρ h (Block.nonneg_of_check hcheck) (Block.nonneg_of_check hcheck')
  have halike := hgraphs.color cfg.regs
  rcases hc : (Graph.ofCode cfg.fp b.code).color cfg.regs with ⟨g₁, r⟩
  rcases hc' : (Graph.ofCode moved.fp b'.code).color moved.regs with ⟨g₁', r'⟩
  rw [hc, show (Graph.ofCode (cfg.fp.map ρ) b'.code).color cfg.regs = _ from hc'] at halike
  have hrun : run = _ := allocate_of_color hspill hregs hctl hcheck hc
  have hrun' : run' = _ := allocate_of_color (show moved.spiller = none from hspill)
    (show moved.regs ≠ [] from hregs) hctl' hcheck' hc'
  cases halike with
  | ok hm =>
    refine ⟨⟨fun _ => ⟨_, hrun'⟩, fun _ => ⟨_, hrun⟩⟩, ?_, by simp [hrun, hrun'], by simp [hrun]⟩
    intro a a' ha ha'
    cases hrun.symm.trans ha
    cases hrun'.symm.trans ha'
    exact ⟨hm.get?, hm.only⟩
  | internal => simp [hrun, hrun']
  | spill =>
    refine ⟨by simp [hrun, hrun'], by simp [hrun], ⟨fun _ => ⟨_, hrun'⟩, fun _ => ⟨_, hrun⟩⟩, ?_⟩
    intro e e' he he'
    cases hrun.symm.trans he
    cases hrun'.symm.trans he'
    exact ⟨rfl, rfl, rfl⟩

/-- Two fields of a frame that change places. -/
def swapBlock (frame x y : Temp) : Block :=
  ⟨utf8 "swap", [utf8 "a", utf8 "b", utf8 "c"],
    [⟨.load, ⟨some x, some frame, none⟩, 4, [], Block.liveSet [frame, x]⟩,
      ⟨.load, ⟨some y, some frame, none⟩, 8, [], Block.liveSet [frame, x, y]⟩,
      ⟨.store, ⟨some x, some frame, none⟩, 8, [], Block.liveSet [frame, y]⟩,
      ⟨.store, ⟨some y, some frame, none⟩, 4, [], Block.liveSet []⟩], none⟩

theorem renumbered_swapBlock {frame x y : Temp} (hpos : ∀ t ∈ [frame, x, y], 0 ≤ t)
    (hpos' : ∀ t ∈ [frame, x, y], 0 ≤ ρ t) :
    Renumbered ρ (swapBlock frame x y).code (swapBlock (ρ frame) (ρ x) (ρ y)).code := by
  have hlive : ∀ ts ⊆ [frame, x, y], ∀ t, (Block.liveSet (ts.map ρ)).contains t = true ↔
      ∃ u, (Block.liveSet ts).contains u = true ∧ ρ u = t := by
    intro ts hts t
    rw [Block.contains_liveSet (List.forall_mem_map.2 fun u hu => hpos' u (hts hu)), List.mem_map]
    simp only [Block.contains_liveSet fun u hu => hpos u (hts hu)]
  refine .cons ⟨rfl, rfl, hlive [frame, x] ?_⟩ (.cons ⟨rfl, rfl, hlive [frame, x, y] ?_⟩
    (.cons ⟨rfl, rfl, hlive [frame, y] ?_⟩ (.cons ⟨rfl, rfl, hlive [] ?_⟩ .nil))) <;> simp

/-- With two registers the fields change places under both numberings; with one, both ask
    for a spill. -/
theorem allocate_renumbered_reversed :
    (∃ a a',
      (allocate ⟨[utf8 "r0", utf8 "r1"], some 0, none, 0⟩ (swapBlock 0 1 2)).result = .ok a ∧
      (allocate ⟨[utf8 "r0", utf8 "r1"], some 2, none, 0⟩ (swapBlock 2 1 0)).result = .ok a' ∧
      ∀ t, a'.assignment.get? (2 - t) = a.assignment.get? t) ∧
    ∃ e e', (allocate ⟨[utf8 "r0"], some 0, none, 0⟩ (swapBlock 0 1 2)).result = .error (.spill e) ∧
      (allocate ⟨[utf8 "r0"], some 2, none, 0⟩ (swapBlock 2 1 0)).result = .error (.spill e') ∧
      e.stuck = [1, 2] ∧ e'.stuck = [1, 0] := by
  have hρ : Function.Injective fun t : Temp => 2 - t := sub_right_injective
  have hren : Renumbered (fun t => 2 - t) (swapBlock 0 1 2).code (swapBlock 2 1 0).code :=
    renumbered_swapBlock (by decide) (by decide)
  have hcheck : (swapBlock 0 1 2).check = .ok () := by cbv
  have hcheck' : (swapBlock 2 1 0).check = .ok () := by cbv
  constructor
  · let cfg : AllocatorConfig := ⟨[utf8 "r0", utf8 "r1"], some 0, none, 0⟩
    obtain ⟨hiff, hasg, -⟩ :=
      allocate_renumbered hρ (show cfg.spiller = none from rfl) (by cbv) hcheck hcheck' hren
    have hok : (allocate cfg (swapBlock 0 1 2)).result.isOk = true := by cbv
    rcases ha : (allocate cfg (swapBlock 0 1 2)).result with e | a
    · rw [ha] at hok; cases hok
    obtain ⟨a', ha'⟩ := hiff.1 ⟨a, ha⟩
    exact ⟨a, a', rfl, ha', (hasg a a' ha ha').1⟩
  · let cfg : AllocatorConfig := ⟨[utf8 "r0"], some 0, none, 0⟩
    obtain ⟨-, -, hiff, hspill⟩ :=
      allocate_renumbered hρ (show cfg.spiller = none from rfl) (by cbv) hcheck hcheck' hren
    have he : (allocate cfg (swapBlock 0 1 2)).result =
      .error (.spill ⟨utf8 "swap", 1, [1, 2], some 1, 2⟩) := by cbv
    obtain ⟨e', he'⟩ := hiff.1 ⟨_, he⟩
    exact ⟨_, e', he, he', rfl, (hspill _ e' he he').1⟩

end

end Straightline
