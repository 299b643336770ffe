/-
  Liveness is exact.

  A temp is live before some instructions if one of them reads it and none
  before that one defines it, or if it is live at the end and none defines it.

  * `LiveIn`: live before a sequence of instructions, in these words, with
    `liveIn_cons` as its step from the end to the front;
  * `ExactLiveness`: every live-out set holds the temps that are live before the
    instructions behind it;
  * `Block.computeLiveness_spec`: filling the live-out sets of a block that fits
    the op table and has no control op succeeds and makes them exact, and changes
    nothing else;
  * `ExactLiveness.defined_together`: of two temps that are live at one point but
    not both from the beginning, one is defined while the other is live.
-/
import Mathlib.Data.List.Basic
import Mathlib.Tactic.Tauto
import Straightline.Liveness
import Straightline.Proofs.DenseSet

namespace Straightline

namespace Instr

/-! ## Operands -/

/-- The temps of an instruction, in slot order. -/
def temps (i : Instr) : List Temp :=
  i.operands.map (·.temp)

theorem operands_eq (i : Instr) :
    i.operands = (operandAt 0 i.op.roles.first i.args.first).toList ++
      ((operandAt 1 i.op.roles.second i.args.second).toList ++
        (operandAt 2 i.op.roles.third i.args.third).toList) := by
  rw [operands]
  rcases operandAt 0 i.op.roles.first i.args.first with _ | o₀ <;>
    rcases operandAt 1 i.op.roles.second i.args.second with _ | o₁ <;>
    rcases operandAt 2 i.op.roles.third i.args.third with _ | o₂ <;> rfl

theorem mem_operandAt {slot : Nat} {role : Role} {arg : Option Temp} {o : Operand} :
    o ∈ (operandAt slot role arg).toList ↔
      role ≠ .unused ∧ ∃ t, arg = some t ∧ o = ⟨slot, role, t⟩ := by
  unfold operandAt
  by_cases h : role = .unused
  · simp [h]
  · cases arg with
    | none => simp [h]
    | some t => simp [h]

theorem defines_only_first (op : Op) :
    op.roles.second.defines = false ∧ op.roles.third.defines = false := by
  cases op <;> exact ⟨rfl, rfl⟩

/-- Only the first slot may be defined, so there is at most one definition. -/
theorem definitions_eq (i : Instr) : i.definitions = i.definition?.toList := by
  obtain ⟨h₁, h₂⟩ := defines_only_first i.op
  have hnone : ∀ (slot : Nat) (role : Role) (arg : Option Temp), role.defines = false →
      ∀ o ∈ (operandAt slot role arg).toList, ¬ o.role.defines = true := by
    intro slot role arg h o ho
    obtain ⟨-, t, -, rfl⟩ := mem_operandAt.1 ho
    simp [h]
  rw [definitions, definition?, operands_eq, List.filter_append, List.filter_append,
    List.filter_eq_nil_iff.2 (hnone 1 _ _ h₁), List.filter_eq_nil_iff.2 (hnone 2 _ _ h₂),
    List.find?_append, List.find?_append, List.find?_eq_none.2 (hnone 1 _ _ h₁),
    List.find?_eq_none.2 (hnone 2 _ _ h₂)]
  rcases operandAt 0 i.op.roles.first i.args.first with _ | o
  · rfl
  · by_cases h : o.role.defines = true <;> simp [h]

theorem mem_definitions {i : Instr} {t : Temp} : t ∈ i.definitions ↔ i.definition? = some t := by
  rw [definitions_eq, Option.mem_toList]

theorem mem_temps_of_definition {i : Instr} {t : Temp} (h : t ∈ i.definitions) : t ∈ i.temps :=
  (List.filter_sublist.map _).subset h

theorem mem_temps_of_read {i : Instr} {t : Temp} (h : t ∈ i.reads) : t ∈ i.temps :=
  (List.filter_sublist.map _).subset h

/-- A temp of an instruction is read or defined by it. -/
theorem mem_temps {i : Instr} {t : Temp} : t ∈ i.temps ↔ t ∈ i.reads ∨ t ∈ i.definitions := by
  refine ⟨fun h => ?_, fun h => h.elim mem_temps_of_read mem_temps_of_definition⟩
  obtain ⟨o, ho, rfl⟩ := List.mem_map.1 h
  have hused : o.role ≠ .unused := by
    rw [operands_eq, List.mem_append, List.mem_append] at ho
    rcases ho with ho | ho | ho <;> obtain ⟨hr, t, -, rfl⟩ := mem_operandAt.1 ho <;> exact hr
  have hrole : o.role.reads = true ∨ o.role.defines = true := by
    cases hr : o.role <;> simp_all [Role.reads, Role.defines]
  refine hrole.imp (fun h => ?_) fun h => ?_
  · exact List.mem_map_of_mem (List.mem_filter.2 ⟨ho, h⟩)
  · exact List.mem_map_of_mem (List.mem_filter.2 ⟨ho, h⟩)

/-- The instruction without its live-out set. -/
def bare (i : Instr) : Instr :=
  { i with liveOut := ∅ }

theorem reads_bare (i : Instr) : i.bare.reads = i.reads := rfl

theorem definitions_bare (i : Instr) : i.bare.definitions = i.definitions := rfl

theorem temps_bare (i : Instr) : i.bare.temps = i.temps := rfl

/-- What does not look at live-out sets is the same for code with other ones. -/
theorem congr_of_map_bare {α : Sort*} (f : List Instr → α) (hf : ∀ code, f (code.map bare) = f code)
    {code code' : List Instr} (h : code'.map bare = code.map bare) : f code' = f code := by
  rw [← hf, h, hf]

end Instr

/-! ## Checked blocks -/

namespace Block

variable {b : Block}

theorem checkSlot_ok {index slot : Nat} {op : Op} {role : Role} {arg : Option Temp}
    (h : b.checkSlot index op slot role arg = .ok ()) {o : Operand}
    (ho : o ∈ (Instr.operandAt slot role arg).toList) : b.hasTemp o.temp = true := by
  obtain ⟨hr, t, rfl, rfl⟩ := Instr.mem_operandAt.1 ho
  simp only [checkSlot, if_neg hr] at h
  by_contra hb
  simp [hb] at h

theorem checkInstr_ok {index : Nat} {i : Instr} (h : b.checkInstr index i = .ok ()) :
    i.op.valid = true ∧ ∀ t ∈ i.temps, b.hasTemp t = true := by
  unfold checkInstr at h
  split at h
  · cases h
  · rename_i op hop
    refine ⟨by cases hv : i.op <;> simp_all [Op.valid], fun t ht => ?_⟩
    obtain ⟨o, ho, rfl⟩ := List.mem_map.1 ht
    rcases h₀ : b.checkSlot index i.op 0 i.op.roles.first i.args.first with e | u
    · simp [h₀, bind, Except.bind] at h
    rcases h₁ : b.checkSlot index i.op 1 i.op.roles.second i.args.second with e | u
    · simp [h₀, h₁, bind, Except.bind] at h
    simp only [h₀, h₁, bind, Except.bind] at h
    rw [Instr.operands_eq, List.mem_append, List.mem_append] at ho
    rcases ho with ho | ho | ho
    · exact checkSlot_ok h₀ ho
    · exact checkSlot_ok h₁ ho
    · exact checkSlot_ok h ho

theorem checkFrom_ok {index : Nat} {code : List Instr} (h : b.checkFrom index code = .ok ()) :
    ∀ i ∈ code, i.op.valid = true ∧ ∀ t ∈ i.temps, b.hasTemp t = true := by
  induction code generalizing index with
  | nil => simp
  | cons i code ih =>
    rw [checkFrom] at h
    rcases hi : b.checkInstr index i with e | u
    · simp [hi, bind, Except.bind] at h
    simp only [hi, bind, Except.bind] at h
    intro j hj
    rcases List.mem_cons.1 hj with rfl | hj
    · exact checkInstr_ok hi
    · exact ih h j hj

theorem hasTemp_eq_true_iff {t : Temp} : b.hasTemp t = true ↔ 0 ≤ t ∧ t < b.numTemps := by
  rw [hasTemp, Bool.and_eq_true, decide_eq_true_eq, decide_eq_true_eq]

theorem nonneg_of_hasTemp {t : Temp} (h : b.hasTemp t = true) : 0 ≤ t :=
  (hasTemp_eq_true_iff.1 h).1

/-- The ops of a checked block are in the table, and its temps are not negative. -/
theorem check_ok (h : b.check = .ok ()) :
    ∀ i ∈ b.code, i.op.valid = true ∧ ∀ t ∈ i.temps, 0 ≤ t := by
  intro i hi
  obtain ⟨hv, ht⟩ := checkFrom_ok h i hi
  exact ⟨hv, fun t h => nonneg_of_hasTemp (ht t h)⟩

theorem nonneg_of_check (h : b.check = .ok ()) : ∀ i ∈ b.code, ∀ t ∈ i.temps, 0 ≤ t :=
  fun i hi => (check_ok h i hi).2

/-! The check does not look at live-out sets. -/

theorem checkFrom_map_bare (b : Block) (code' : List Instr) (index : Nat) (code : List Instr) :
    ({ b with code := code' } : Block).checkFrom index (code.map Instr.bare) = b.checkFrom index code := by
  induction code generalizing index with
  | nil => rfl
  | cons i code ih => rw [List.map_cons, checkFrom, checkFrom, ih]; rfl

theorem check_congr {code : List Instr} (h : code.map Instr.bare = b.code.map Instr.bare) :
    ({ b with code } : Block).check = b.check := by
  calc ({ b with code } : Block).checkFrom 0 code
      = ({ b with code } : Block).checkFrom 0 (code.map Instr.bare) :=
        (checkFrom_map_bare { b with code } code 0 code).symm
    _ = ({ b with code } : Block).checkFrom 0 (b.code.map Instr.bare) := by rw [h]
    _ = b.checkFrom 0 b.code := checkFrom_map_bare b code 0 b.code

theorem hasControl_eq_false : b.hasControl = false ↔ ∀ i ∈ b.code, i.op.control = false := by
  simp only [hasControl, List.any_eq_false, Bool.not_eq_true]

theorem hasControl_congr {code : List Instr} (h : code.map Instr.bare = b.code.map Instr.bare) :
    ({ b with code } : Block).hasControl = b.hasControl := by
  have hf : ∀ code : List Instr, ((code.map Instr.bare).any (·.op.control)) = code.any (·.op.control) := by
    intro code
    rw [List.any_map]; rfl
  exact Instr.congr_of_map_bare (fun code => code.any (·.op.control)) hf h

end Block

/-! ## Live temps -/

/-- The temp is live before the instructions: one of them reads it and none before
    that one defines it, or it is live at the end and none of them defines it. -/
def LiveIn (exit : List Temp) (code : List Instr) (t : Temp) : Prop :=
  (∃ pre i post, code = pre ++ i :: post ∧ t ∈ i.reads ∧ ∀ j ∈ pre, t ∉ j.definitions) ∨
    (t ∈ exit ∧ ∀ i ∈ code, t ∉ i.definitions)

section
variable {exit : List Temp} {i : Instr} {code pre post rest : List Instr} {t u : Temp}

theorem liveIn_nil : LiveIn exit [] t ↔ t ∈ exit := by
  simp [LiveIn]

/-- What an instruction reads is live before it, and so is what is live after it
    and not defined by it. -/
theorem liveIn_cons :
    LiveIn exit (i :: rest) t ↔ t ∈ i.reads ∨ (t ∉ i.definitions ∧ LiveIn exit rest t) := by
  constructor
  · rintro (⟨pre, j, post, hsplit, hread, hdef⟩ | ⟨hexit, hdef⟩)
    · rcases List.cons_eq_append_iff.1 hsplit with ⟨rfl, hrest⟩ | ⟨pre, rfl, rfl⟩
      · cases hrest; exact Or.inl hread
      · exact Or.inr ⟨hdef i (by simp), Or.inl ⟨pre, j, post, rfl, hread, fun k hk => hdef k (by simp [hk])⟩⟩
    · exact Or.inr ⟨hdef i (by simp), Or.inr ⟨hexit, fun k hk => hdef k (by simp [hk])⟩⟩
  · rintro (hread | ⟨hnot, ⟨pre, j, post, rfl, hread, hdef⟩ | ⟨hexit, hdef⟩⟩)
    · exact Or.inl ⟨[], i, rest, rfl, hread, by simp⟩
    · refine Or.inl ⟨i :: pre, j, post, rfl, hread, fun k hk => ?_⟩
      rcases List.mem_cons.1 hk with rfl | hk
      exacts [hnot, hdef k hk]
    · refine Or.inr ⟨hexit, fun k hk => ?_⟩
      rcases List.mem_cons.1 hk with rfl | hk
      exacts [hnot, hdef k hk]

/-- Live-out sets do not matter for what is live. -/
theorem liveIn_map_bare : LiveIn exit (code.map Instr.bare) t ↔ LiveIn exit code t := by
  induction code with
  | nil => rfl
  | cons i code ih =>
    rw [List.map_cons, liveIn_cons, liveIn_cons, ih, Instr.reads_bare, Instr.definitions_bare]

theorem liveIn_congr {code' : List Instr} (h : code'.map Instr.bare = code.map Instr.bare) :
    LiveIn exit code' t ↔ LiveIn exit code t := by
  rw [← liveIn_map_bare, h, liveIn_map_bare]

/-- A temp that is live stays live before instructions that do not define it. -/
theorem LiveIn.append (h : LiveIn exit post t) (hdef : ∀ i ∈ pre, t ∉ i.definitions) :
    LiveIn exit (pre ++ post) t := by
  induction pre with
  | nil => exact h
  | cons i pre ih =>
    rw [List.cons_append, liveIn_cons]
    exact Or.inr ⟨hdef i (by simp), ih fun j hj => hdef j (by simp [hj])⟩

/-- A temp that instructions use is live before them or defined by one of them. -/
theorem liveIn_or_defined (hi : i ∈ code) (ht : t ∈ i.temps) :
    LiveIn exit code t ∨ ∃ j ∈ code, t ∈ j.definitions := by
  by_cases hdef : ∃ j ∈ code, t ∈ j.definitions
  · exact Or.inr hdef
  · push Not at hdef
    obtain ⟨pre, post, rfl⟩ := List.append_of_mem hi
    refine Or.inl (Or.inl ⟨pre, i, post, rfl, ?_, fun j hj => hdef j (by simp [hj])⟩)
    exact (Instr.mem_temps.1 ht).resolve_right (hdef i hi)

/-- Every live-out set holds what is live before the instructions behind it. -/
def ExactLiveness (exit : List Temp) (code : List Instr) : Prop :=
  ∀ pre i post, code = pre ++ i :: post → ∀ t, i.liveOut.contains t = true ↔ LiveIn exit post t

theorem exactLiveness_cons : ExactLiveness exit (i :: rest) ↔
    (∀ t, i.liveOut.contains t = true ↔ LiveIn exit rest t) ∧ ExactLiveness exit rest := by
  refine ⟨fun h => ⟨h [] i rest rfl, fun pre j post e => h (i :: pre) j post (by rw [e]; rfl)⟩, ?_⟩
  rintro ⟨hi, hrest⟩ pre j post e
  rcases List.cons_eq_append_iff.1 e with ⟨rfl, h⟩ | ⟨pre, rfl, h⟩
  · cases h; exact hi
  · exact hrest pre j post h

/-- **Two temps that are live at one point, but not both from the beginning**: the
    later one of their definitions up to that point finds the other one live. -/
theorem ExactLiveness.defined_together (h : ExactLiveness exit (pre ++ post)) (ht : LiveIn exit post t)
    (hu : LiveIn exit post u) (hnot : ¬ (LiveIn exit (pre ++ post) t ∧ LiveIn exit (pre ++ post) u)) :
    ∃ i ∈ pre, (t ∈ i.definitions ∧ i.liveOut.contains u = true) ∨
      (u ∈ i.definitions ∧ i.liveOut.contains t = true) := by
  induction pre with
  | nil => exact absurd ⟨ht, hu⟩ hnot
  | cons i pre ih =>
    obtain ⟨hi, hrest⟩ := exactLiveness_cons.1 h
    by_cases hboth : LiveIn exit (pre ++ post) t ∧ LiveIn exit (pre ++ post) u
    · -- both are live after `i`, so one that is not live before it is defined by it
      refine ⟨i, by simp, ?_⟩
      rw [List.cons_append, liveIn_cons, liveIn_cons] at hnot
      rw [hi, hi]
      tauto
    · obtain ⟨j, hj, hdef⟩ := ih hrest hboth
      exact ⟨j, by simp [hj], hdef⟩

end

/-! ## Filling the live-out sets -/

namespace Liveness

variable {exit : List Temp} {i : Instr} {set : DenseSet}

theorem before_spec (hv : i.op.valid = true) (hpos : ∀ t ∈ i.reads, 0 ≤ t) (after : DenseSet) :
    ∃ live, before i after = .ok live ∧ ∀ t, live.contains t = true ↔
      t ∈ i.reads ∨ (t ∉ i.definitions ∧ after.contains t = true) := by
  obtain ⟨live, hins, hmem⟩ := DenseSet.insertAll_spec (i.definitions.foldl DenseSet.erase after) hpos
  refine ⟨live, by simp only [before, if_pos hv, hins], fun t => ?_⟩
  rw [hmem, DenseSet.contains_foldl_erase]

/-- One instruction after the other is filled, from the last to the first. -/
theorem fill_spec (hset : ∀ t, set.contains t = true ↔ t ∈ exit) (index : Nat) (code : List Instr)
    (hcode : ∀ i ∈ code, (i.op.valid = true ∧ ∀ t ∈ i.temps, 0 ≤ t) ∧ i.op.control = false) :
    ∃ code' live, fill set index code = (code', .ok live) ∧ code'.map Instr.bare = code.map Instr.bare ∧
      ExactLiveness exit code' ∧ ∀ t, live.contains t = true ↔ LiveIn exit code t := by
  induction code generalizing index with
  | nil =>
    refine ⟨[], set, rfl, rfl, fun pre j post h => by simp at h, fun t => ?_⟩
    rw [hset, liveIn_nil]
  | cons i code ih =>
    obtain ⟨code', live, hfill, hbare, hexact, hlive⟩ := ih (index + 1) fun j hj => hcode j (by simp [hj])
    obtain ⟨⟨hv, hpos⟩, hctl⟩ := hcode i (by simp)
    obtain ⟨live', hbefore, hlive'⟩ :=
      before_spec hv (fun t ht => hpos t (Instr.mem_temps_of_read ht)) live
    refine ⟨{ i with liveOut := live } :: code', live', ?_, ?_, ?_, fun t => ?_⟩
    · simp [fill, hfill, hctl, hbefore, Except.mapError]
    · rw [List.map_cons, List.map_cons, hbare]; rfl
    · refine exactLiveness_cons.2 ⟨fun t => ?_, hexact⟩
      rw [liveIn_congr hbare]; exact hlive t
    · rw [hlive', hlive, liveIn_cons]

end Liveness

namespace Block

variable {b : Block} {exit : List Temp}

theorem firstStranger_eq_none : b.firstStranger? exit = none ↔ ∀ t ∈ exit, b.hasTemp t = true := by
  simp [firstStranger?, List.find?_eq_none]

theorem contains_liveSet (h : ∀ t ∈ exit, 0 ≤ t) (t : Temp) :
    (liveSet exit).contains t = true ↔ t ∈ exit := by
  obtain ⟨s, hs, hmem⟩ := DenseSet.insertAll_spec DenseSet.empty h
  rw [liveSet, hs, hmem]
  exact or_iff_left (DenseSet.not_contains_empty t)

/-- **Computed liveness is exact.** -/
theorem computeLiveness_spec (hcheck : b.check = .ok ()) (hctl : b.hasControl = false)
    (hexit : ∀ t ∈ exit, b.hasTemp t = true) :
    ∃ code, b.computeLiveness exit = ({ b with code }, .ok ()) ∧
      code.map Instr.bare = b.code.map Instr.bare ∧ ExactLiveness exit code := by
  have hset := contains_liveSet fun t ht => nonneg_of_hasTemp (hexit t ht)
  obtain ⟨code, live, hfill, hbare, hexact, -⟩ := Liveness.fill_spec hset 0 b.code fun i hi =>
    ⟨check_ok hcheck i hi, hasControl_eq_false.1 hctl i hi⟩
  refine ⟨code, ?_, hbare, hexact⟩
  simp only [computeLiveness, firstStranger_eq_none.2 hexit, hfill, Except.map]

end Block

end Straightline
