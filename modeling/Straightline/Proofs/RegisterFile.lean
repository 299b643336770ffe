/-
  Register files without repeats.

  Registers are given by a comma-separated list, by a stem and a number, or as the first of a
  machine.  Each way refuses what would repeat a name or leave none.

  * `Lists`: the names of a comma-separated list, and `lists_iff`: there is one list of them;
  * `parse_eq_ok_iff`: reading takes exactly the lists of different names, and gives the names;
  * `nodup_named`: a stem and different numbers make different names, whatever the stem ends with;
  * `Options.registers_ok`: so what the options give is not empty and has no repeats;
  * `names_distinct`: all this together, up to the command that uses the file.
-/
import Mathlib
import Straightline.CommandLine.Run
import Straightline.Proofs.Literal
import Straightline.Proofs.Pieces
import Straightline.Proofs.Signature

namespace Straightline

namespace RegisterFile

variable {spec stem : Text} {names seen : List Register} {regs : RegisterFile} {r : Register} {i : Nat}

/-! ## Lists of names -/

/-- The names of a comma-separated list: the parts between the commas, trimmed, without the empty
    ones. -/
def Lists (spec : Text) (names : List Register) : Prop :=
  ∃ parts ms : List Text, parts ≠ [] ∧ (∀ p ∈ parts, comma ∉ p) ∧ [comma].intercalate parts = spec ∧
    List.Forall₂ Trims parts ms ∧ names = ms.filter (!·.isEmpty)

theorem forall₂_trims_iff {parts ms : List Text} : List.Forall₂ Trims parts ms ↔ parts.map trimmed = ms := by
  rw [← List.forall₂_eq_eq_eq, List.forall₂_map_left_iff]
  simp only [trimmed_eq_iff]

theorem lists_iff : Lists spec names ↔ names = namesOf spec := by
  constructor
  · rintro ⟨parts, ms, hne, hparts, hspec, htrims, rfl⟩
    rw [namesOf, cutAt_eq_iff.2 ⟨hne, hparts, hspec⟩, forall₂_trims_iff.1 htrims]
  · rintro rfl
    obtain ⟨hne, hparts, hspec⟩ := cutAt_eq_iff.1 (rfl : cutAt comma spec = _)
    exact ⟨_, _, hne, hparts, hspec, forall₂_trims_iff.2 rfl, rfl⟩

theorem firstDuplicate?_eq_none_iff :
    firstDuplicate? seen names = none ↔ names.Nodup ∧ ∀ r ∈ names, r ∉ seen := by
  induction names generalizing seen with
  | nil => simp [firstDuplicate?]
  | cons r names ih =>
    rw [firstDuplicate?, List.nodup_cons, List.forall_mem_cons]
    by_cases hr : r ∈ seen
    · simp [hr]
    · rw [if_neg (by simpa using hr), ih]
      simp only [List.mem_cons, not_or]
      constructor
      · rintro ⟨hnodup, hnew⟩
        exact ⟨⟨fun hmem => (hnew r hmem).1 rfl, hnodup⟩, hr, fun x hx => (hnew x hx).2⟩
      · rintro ⟨⟨hnot, hnodup⟩, -, hnew⟩
        exact ⟨hnodup, fun x hx => ⟨fun e => hnot (e ▸ hx), hnew x hx⟩⟩

/-- **Reading takes the lists of different names**, of which there must be one. -/
theorem parse_eq_ok_iff :
    parse spec = .ok regs ↔ regs = namesOf spec ∧ namesOf spec ≠ [] ∧ (namesOf spec).Nodup := by
  have hnodup : firstDuplicate? [] (namesOf spec) = none ↔ (namesOf spec).Nodup := by
    simp [firstDuplicate?_eq_none_iff]
  rw [← hnodup, parse]
  rcases firstDuplicate? [] (namesOf spec) with _ | r
  · by_cases hempty : namesOf spec = []
    · simp [hempty]
    · have hsome : ¬ (namesOf spec).isEmpty = true := by simpa using hempty
      simp only [if_neg hsome, Except.ok.injEq, hempty, ne_eq, not_false_eq_true, and_true]
      exact eq_comm
  · simp

/-! ## Names made of a stem and a number -/

theorem utf8_injective : Function.Injective utf8 := by
  intro s t h
  exact String.toByteArray_inj.1 (ByteArray.ext (Array.toList_inj.1 h))

/-- Different numbers make different names. -/
theorem nodup_named (stem : Text) {ns : List Nat} (h : ns.Nodup) :
    (ns.map fun i : Nat => stem ++ decimal i).Nodup := by
  apply h.map
  intro m n hmn
  exact Nat.repr_injective (utf8_injective (List.append_cancel_left hmn))

theorem nodup_numbered (stem : Text) (k : Nat) : (numbered stem k).Nodup :=
  nodup_named stem List.nodup_range

theorem length_numbered (stem : Text) (k : Nat) : (numbered stem k).length = k := by
  simp [numbered]

theorem nodup_arm64Registers : arm64Registers.Nodup :=
  nodup_named (utf8 "X") (by decide)

/-- In a register file without repeats each register has its own index. -/
theorem index?_of_nodup (h : regs.Nodup) (hr : regs[i]? = some r) : regs.index? r = some i := by
  obtain ⟨hi, rfl⟩ := List.getElem?_eq_some_iff.1 hr
  rw [index?, List.idxOf?_eq_some_iff]
  refine ⟨hi, rfl, ?_⟩
  intro j hj hsame
  exact hj.ne (h.getElem_inj_iff.1 hsame)

theorem numberedInt_eq (stem : Text) (k : Nat) :
    numberedInt stem k = if k ≤ sizeLimit then .ok (numbered stem k) else .error .outOfRange := rfl

theorem nodup_of_numberedInt {k : Int} (hk : 0 < k) (h : numberedInt stem k = .ok regs) :
    regs ≠ [] ∧ regs.Nodup := by
  obtain ⟨n, rfl⟩ := Int.eq_ofNat_of_zero_le hk.le
  rw [numberedInt_eq] at h
  split at h
  · obtain rfl := Except.ok.inj h
    have hlength : 0 < (numbered stem n).length := by
      rw [length_numbered]
      omega
    exact ⟨List.ne_nil_of_length_pos hlength, nodup_numbered stem n⟩
  · cases h

theorem nodup_of_arm64 {k : Int} (h : arm64 k = .ok regs) : regs ≠ [] ∧ regs.Nodup := by
  unfold arm64 at h
  split at h
  · rename_i hk
    obtain rfl := Except.ok.inj h
    have hlength : 0 < (arm64Registers.take k.toNat).length := by
      rw [List.length_take]
      omega
    exact ⟨List.ne_nil_of_length_pos hlength, nodup_arm64Registers.sublist (List.take_sublist _ _)⟩
  · cases h

end RegisterFile

/-! ## What the command line gives -/

namespace CommandLine

variable {o : Options} {regs : RegisterFile}

/-- **The options never give a register file that is empty or repeats a name.** -/
theorem Options.registers_ok (h : o.registers = .ok regs) : regs ≠ [] ∧ regs.Nodup := by
  unfold Options.registers at h
  split at h
  · obtain ⟨rfl, hne, hnodup⟩ := RegisterFile.parse_eq_ok_iff.1 (mapError_eq_ok_iff.1 h)
    exact ⟨hne, hnodup⟩
  split at h
  · cases h
  rename_i hk
  split at h
  · exact RegisterFile.nodup_of_numberedInt (not_le.1 hk) (mapError_eq_ok_iff.1 h)
  split at h
  · exact RegisterFile.nodup_of_arm64 (mapError_eq_ok_iff.1 h)
  · cases h

/-- The command that needs registers fails without any, or works with those that the options give. -/
theorem runCommand_alloc (files : FileSystem) (o : Options) (names : List Text) :
    (∃ e, o.registers = .error e ∧ runCommand files .alloc o names = ([], some (.registers e))) ∨
      ∃ regs, o.registers = .ok regs ∧
        runCommand files .alloc o names = processFiles (processFile files o regs .alloc) names := by
  rcases h : o.registers with e | regs
  · exact .inl ⟨e, rfl, by simp only [runCommand, registersFor, h, Except.mapError]⟩
  · exact .inr ⟨regs, rfl, by simp only [runCommand, registersFor, h, Except.mapError]⟩

end CommandLine

namespace RegisterFile

open CommandLine

/-- **Register files are free of duplicates.** A comma-separated list is read iff it has names, all of
    them different; a stem gives as many different names as are asked for, unless these are more than
    can be held; and allocation works only with files that have names, all of them different. -/
theorem names_distinct :
    (∀ spec, ∃ names, (∀ l, Lists spec l ↔ l = names) ∧
      ∀ regs, parse spec = .ok regs ↔ regs = names ∧ names ≠ [] ∧ names.Nodup) ∧
    (∀ (stem : Text) (k : Nat), k ≤ sizeLimit → ∃ regs, numberedInt stem k = .ok regs ∧ regs.length = k ∧
      regs.Nodup ∧ ∀ i r, regs[i]? = some r → index? regs r = some i) ∧
    (∀ (stem : Text) (k : Nat), sizeLimit < k → numberedInt stem k = .error .outOfRange) ∧
    ∀ files o names,
      (∃ e, o.registers = .error e ∧ runCommand files .alloc o names = ([], some (.registers e))) ∨
      ∃ regs, o.registers = .ok regs ∧ regs ≠ [] ∧ regs.Nodup ∧
        runCommand files .alloc o names = processFiles (processFile files o regs .alloc) names := by
  refine ⟨?_, ?_, ?_, ?_⟩
  · intro spec
    exact ⟨namesOf spec, fun l => lists_iff, fun regs => parse_eq_ok_iff⟩
  · intro stem k hk
    have hnodup := nodup_numbered stem k
    exact ⟨_, if_pos hk, length_numbered stem k, hnodup, fun i r hr => index?_of_nodup hnodup hr⟩
  · intro stem k hk
    exact if_neg (Nat.not_le.2 hk)
  · intro files o names
    refine (runCommand_alloc files o names).imp_right ?_
    rintro ⟨regs, hregs, hrun⟩
    obtain ⟨hne, hnodup⟩ := Options.registers_ok hregs
    exact ⟨regs, hregs, hne, hnodup, hrun⟩

/-- The names differ also if the stem ends with a digit. -/
theorem names_distinct_digit : 12 ≤ sizeLimit ∧ ∃ regs, numberedInt (utf8 "r1") (12 : Nat) = .ok regs ∧
    regs.length = 12 ∧ regs.Nodup ∧ ∀ i r, regs[i]? = some r → index? regs r = some i :=
  ⟨by decide, names_distinct.2.1 (utf8 "r1") 12 (by decide)⟩

/-- More names than can be held are not made. -/
theorem numberedInt_too_many : ¬ ∃ regs, numberedInt (utf8 "r") 17592186044417 = .ok regs := by
  rintro ⟨regs, h⟩
  have hfault : numberedInt (utf8 "r") 17592186044417 = .error .outOfRange := rfl
  rw [hfault] at h
  cases h

end RegisterFile

end Straightline
