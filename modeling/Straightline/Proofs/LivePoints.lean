/-
  Which temps are live after which instruction.

  Here instructions are known by their index.  A temp is live after one of them if a
  later one reads it and none in between defines it, or if it is live at the end and
  none later defines it (`LiveAfter`).  An instruction that reads and defines a temp
  reads it first.

  * `liveAfter_iff`: this is being live before the instructions behind that index;
  * `Liveness.fill_congr`: live-out sets that are there already do not matter;
  * `Block.computeLiveness_exact`: the live-out sets that are filled hold the temps that
    are live, and nothing else changes; an exit temp that the block does not have is
    refused, and nothing changes at all.
-/
import Mathlib
import Straightline.Proofs.Liveness

namespace Straightline

/-- The instruction with this index reads the temp. -/
def ReadAt (code : List Instr) (n : Nat) (t : Temp) : Prop :=
  ∃ i, code[n]? = some i ∧ t ∈ i.reads

/-- The instruction with this index defines the temp. -/
def DefinedAt (code : List Instr) (n : Nat) (t : Temp) : Prop :=
  ∃ i, code[n]? = some i ∧ t ∈ i.definitions

/-- The temp is live right after the instruction with this index. -/
def LiveAfter (exit : List Temp) (code : List Instr) (n : Nat) (t : Temp) : Prop :=
  (∃ j, n < j ∧ ReadAt code j t ∧ ∀ k, n < k → k < j → ¬ DefinedAt code k t) ∨
    (t ∈ exit ∧ ∀ k, n < k → ¬ DefinedAt code k t)

section
variable {exit : List Temp} {code code' : List Instr} {n m : Nat} {t : Temp}

theorem readAt_drop : ReadAt (code.drop n) m t ↔ ReadAt code (n + m) t := by
  rw [ReadAt, ReadAt, List.getElem?_drop]

theorem definedAt_drop : DefinedAt (code.drop n) m t ↔ DefinedAt code (n + m) t := by
  rw [DefinedAt, DefinedAt, List.getElem?_drop]

theorem forall_not_definedAt :
    (∀ k, ¬ DefinedAt code k t) ↔ ∀ i ∈ code, t ∉ i.definitions := by
  constructor
  · intro h i hi hdef
    obtain ⟨k, hk⟩ := List.getElem?_of_mem hi
    exact h k ⟨i, hk, hdef⟩
  · rintro h k ⟨i, hk, hdef⟩
    exact h i (List.mem_of_getElem? hk) hdef

/-- Only the instructions before an index count for what is defined before it. -/
theorem forall_lt_not_definedAt :
    (∀ k, k < n → ¬ DefinedAt code k t) ↔ ∀ i ∈ code.take n, t ∉ i.definitions := by
  rw [← forall_not_definedAt]
  refine forall_congr' fun k => ?_
  by_cases hk : k < n
  · simp [hk, DefinedAt]
  · simp [hk, DefinedAt]

/-- Being live before some instructions, by their indices. -/
theorem liveIn_iff_index : LiveIn exit code t ↔
    (∃ j, ReadAt code j t ∧ ∀ k, k < j → ¬ DefinedAt code k t) ∨
      (t ∈ exit ∧ ∀ k, ¬ DefinedAt code k t) := by
  simp only [LiveIn, forall_not_definedAt, forall_lt_not_definedAt]
  refine or_congr_left ⟨?_, ?_⟩
  · rintro ⟨pre, i, post, rfl, hread, hdef⟩
    exact ⟨pre.length, ⟨i, by simp, hread⟩, by simpa using hdef⟩
  · rintro ⟨j, ⟨i, hj, hread⟩, hdef⟩
    obtain ⟨hlt, rfl⟩ := List.getElem?_eq_some_iff.1 hj
    refine ⟨code.take j, code[j], code.drop (j + 1), ?_, hread, hdef⟩
    rw [← List.drop_eq_getElem_cons hlt, List.take_append_drop]

theorem liveAfter_iff : LiveAfter exit code n t ↔ LiveIn exit (code.drop (n + 1)) t := by
  rw [liveIn_iff_index]
  simp only [readAt_drop, definedAt_drop]
  refine or_congr ⟨?_, ?_⟩ (and_congr_right fun _ => ⟨?_, ?_⟩)
  · rintro ⟨j, hj, hread, hdef⟩
    obtain ⟨m, rfl⟩ := Nat.exists_eq_add_of_le hj
    exact ⟨m, hread, fun k hk => hdef _ (by omega) (by omega)⟩
  · rintro ⟨m, hread, hdef⟩
    refine ⟨n + 1 + m, by omega, hread, fun k hk hkm => ?_⟩
    obtain ⟨l, rfl⟩ := Nat.exists_eq_add_of_le hk
    exact hdef l (by omega)
  · exact fun hdef k => hdef _ (by omega)
  · intro hdef k hk
    obtain ⟨l, rfl⟩ := Nat.exists_eq_add_of_le hk
    exact hdef l

/-- Exact live-out sets, by index; whichever live-out sets the path is taken through. -/
theorem ExactLiveness.contains_iff (h : ExactLiveness exit code')
    (hbare : code'.map Instr.bare = code.map Instr.bare) {i : Instr} (hi : code'[n]? = some i) :
    i.liveOut.contains t = true ↔ LiveAfter exit code n t := by
  obtain ⟨hlt, rfl⟩ := List.getElem?_eq_some_iff.1 hi
  have hsplit : code' = code'.take n ++ code'[n] :: code'.drop (n + 1) := by
    rw [← List.drop_eq_getElem_cons hlt, List.take_append_drop]
  have hrest : (code'.drop (n + 1)).map Instr.bare = (code.drop (n + 1)).map Instr.bare := by
    rw [List.map_drop, List.map_drop, hbare]
  rw [h _ _ _ hsplit, liveIn_congr hrest, liveAfter_iff]

/-! ## Live-out sets that are there already -/

namespace Liveness

variable {i i' : Instr} {set live : DenseSet} {index : Nat} {filled : List Instr}

theorem before_congr (h : i'.bare = i.bare) : before i' live = before i live := by
  change before i'.bare live = before i.bare live
  rw [h]

/-- One more instruction is filled if those behind it are. -/
theorem fill_cons_eq_ok_iff {before' : DenseSet} : fill set index (i :: code) = (filled, .ok before') ↔
    ∃ rest live, fill set (index + 1) code = (rest, .ok live) ∧ i.op.control = false ∧
      filled = { i with liveOut := live } :: rest ∧ before i live = .ok before' := by
  rw [fill]
  rcases fill set (index + 1) code with ⟨rest, e | live⟩
  · simp
  · by_cases hctl : i.op.control = true
    · simp [hctl]
    · rcases hbefore : before i live with e | set'
      · simp [hctl, hbefore, Except.mapError]
      · simp [hctl, hbefore, Except.mapError, eq_comm]

/-- What is filled does not depend on what was there. -/
theorem fill_congr (hbare : code'.map Instr.bare = code.map Instr.bare)
    (h : fill set index code = (filled, .ok live)) : fill set index code' = (filled, .ok live) := by
  induction code generalizing code' index filled live with
  | nil =>
    rw [List.map_eq_nil_iff.1 hbare, h]
  | cons i code ih =>
    obtain ⟨i', code', rfl, hi, hrest⟩ := List.map_eq_cons_iff.1 hbare
    obtain ⟨rest, after, hfill, hctl, rfl, hbefore⟩ := fill_cons_eq_ok_iff.1 h
    have hop : i'.bare.op.control = false := by rw [hi]; exact hctl
    have hset : { i'.bare with liveOut := after } = { i.bare with liveOut := after } := by rw [hi]
    refine fill_cons_eq_ok_iff.2 ⟨rest, after, ih hrest hfill, hop, ?_, ?_⟩
    · exact congrArg (· :: rest) hset.symm
    · rw [before_congr hi, hbefore]

end Liveness

end

namespace Block

variable {b b' : Block} {exit : List Temp} {t : Temp}

theorem computeLiveness_eq_ok_iff : b.computeLiveness exit = (b', .ok ()) ↔
    b.firstStranger? exit = none ∧ ∃ code live,
      Liveness.fill (liveSet exit) 0 b.code = (code, .ok live) ∧ b' = { b with code } := by
  rw [computeLiveness]
  rcases b.firstStranger? exit with _ | u
  · rcases Liveness.fill (liveSet exit) 0 b.code with ⟨code, e | live⟩
    · simp [Except.map]
    · simp [Except.map, eq_comm]
  · simp

/-- Live-out sets that a block had before do not matter. -/
theorem computeLiveness_congr (h : b.computeLiveness exit = (b', .ok ())) {old : List Instr}
    (hold : old.map Instr.bare = b.code.map Instr.bare) :
    ({ b with code := old } : Block).computeLiveness exit = (b', .ok ()) := by
  obtain ⟨hin, code, live, hfill, rfl⟩ := computeLiveness_eq_ok_iff.1 h
  exact computeLiveness_eq_ok_iff.2 ⟨hin, code, live, Liveness.fill_congr hold hfill, rfl⟩

/-- An exit temp that the block does not have is refused before anything is filled. -/
theorem computeLiveness_of_stranger (ht : t ∈ exit) (hout : ¬ b.hasTemp t = true) :
    ∃ u ∈ exit, ¬ b.hasTemp u = true ∧
      b.computeLiveness exit = (b, .error (.exitOutOfRange u b.numTemps)) := by
  rcases hfirst : b.firstStranger? exit with _ | u
  · exact absurd (firstStranger_eq_none.1 hfirst t ht) hout
  · refine ⟨u, List.mem_of_find?_eq_some hfirst, by simpa using List.find?_some hfirst, ?_⟩
    rw [computeLiveness, hfirst]

/-- **Computed live-out sets are exact.**  In a block that fits the op table and has no
    control op, from exit temps that the block has, filling succeeds and changes the
    live-out sets only, whatever they were before; afterwards each of them holds the temps
    that are live at its place.  An exit temp that the block does not have is refused, and
    the block stays as it was. -/
theorem computeLiveness_exact (b : Block) (exit : List Temp) :
    (b.check = .ok () → (∀ i ∈ b.code, i.op.control = false) →
      (∀ t ∈ exit, 0 ≤ t ∧ t < b.numTemps) →
      ∃ code, b.computeLiveness exit = ({ b with code }, .ok ()) ∧
        code.map Instr.bare = b.code.map Instr.bare ∧
        (∀ n i, code[n]? = some i → ∀ t,
          i.liveOut.contains t = true ↔ LiveAfter exit b.code n t) ∧
        ∀ old : List Instr, old.map Instr.bare = b.code.map Instr.bare →
          ({ b with code := old } : Block).computeLiveness exit = ({ b with code }, .ok ())) ∧
    ((∃ t ∈ exit, ¬ (0 ≤ t ∧ t < b.numTemps)) → ∃ t ∈ exit, ¬ (0 ≤ t ∧ t < b.numTemps) ∧
      b.computeLiveness exit = (b, .error (.exitOutOfRange t b.numTemps))) := by
  simp only [← hasTemp_eq_true_iff]
  constructor
  · intro hcheck hfree hexit
    have hctl := hasControl_eq_false.2 hfree
    obtain ⟨code, hrun, hbare, hexact⟩ := computeLiveness_spec hcheck hctl hexit
    exact ⟨code, hrun, hbare, fun n i hi t => hexact.contains_iff hbare hi,
      fun old hold => computeLiveness_congr hrun hold⟩
  · rintro ⟨t, ht, hout⟩
    exact computeLiveness_of_stranger ht hout

/-- A temp that is read and defined again by one instruction, with a live-out set that is
    not true. -/
def doublingBlock : Block :=
  ⟨utf8 "doubling", [utf8 "x", utf8 "y"],
    [⟨.imm4, ⟨some 0, none, none⟩, 1, [], liveSet [1, 7]⟩,
      ⟨.add, ⟨some 0, some 0, some 0⟩, 0, [], ∅⟩,
      ⟨.parm, ⟨some 0, none, none⟩, 0, [], ∅⟩], none⟩

/-- The temp is live where it is defined first, and no longer at the end; the exit temp is live
    all along.  A temp that the block does not have cannot be live at the end. -/
theorem computeLiveness_exact_doubling :
    (∃ code, doublingBlock.computeLiveness [1, 1] = ({ doublingBlock with code }, .ok ()) ∧
      (∀ i, code[0]? = some i → i.liveOut.contains 0 = true ∧ i.liveOut.contains 1 = true) ∧
      ∀ i, code[2]? = some i → i.liveOut.contains 0 = false ∧ i.liveOut.contains 1 = true) ∧
    doublingBlock.computeLiveness [1, 2] = (doublingBlock, .error (.exitOutOfRange 2 2)) := by
  constructor
  · obtain ⟨code, hrun, -, hlive, -⟩ :=
      (computeLiveness_exact doublingBlock [1, 1]).1 (by cbv) (by decide) (by decide)
    have hdef : ∀ k, ¬ DefinedAt doublingBlock.code k 1 := forall_not_definedAt.2 (by decide)
    have hexit : ∀ n, LiveAfter [1, 1] doublingBlock.code n 1 := fun n =>
      .inr ⟨by decide, fun k _ => hdef k⟩
    refine ⟨code, hrun, fun i hi => ⟨?_, (hlive 0 i hi 1).2 (hexit 0)⟩,
      fun i hi => ⟨?_, (hlive 2 i hi 1).2 (hexit 2)⟩⟩
    · refine (hlive 0 i hi 0).2 (.inl ⟨1, by decide, ⟨_, rfl, by decide⟩, fun k _ _ => ?_⟩)
      omega
    · rw [← Bool.not_eq_true, hlive 2 i hi 0, liveAfter_iff]
      exact fun h => absurd (liveIn_nil.1 h) (by decide)
  · obtain ⟨t, ht, hout, hrun⟩ := (computeLiveness_exact doublingBlock [1, 2]).2 ⟨2, by decide, by decide⟩
    obtain rfl : t = 2 := by
      rcases List.mem_cons.1 ht with rfl | ht
      · exact absurd (by decide) hout
      · exact List.mem_singleton.1 ht
    exact hrun

end Block

end Straightline
