/-
  An instruction is lowered exactly if it is written as the op table says.

  `Written.Instr.Conforms` puts the table's demands in terms of what is written: the op
  has a name of the table; there is a destination where the first slot must be defined
  and none where it is not; the arguments are a name for each slot that must be read,
  perhaps one more for a slot that may be read, and behind them the operand that is no
  temp.

  * `Role.exists_taken`: names are dealt out to the slots from the first to the last;
  * `Means.conforms`, `Conforms.exists_means`: an instruction conforms iff it means
    something;
  * `Block.internSlots_eq`: interning slot by slot is interning the names in order;
  * `State.Reached.check_of_step`: no statement makes a block that fails the check;
  * `Lowering.stmt_instr_iff_conforms`: an instruction is lowered iff it conforms, and
    what it adds to the block.
-/
import Mathlib
import Straightline.Proofs.Listing

namespace Straightline

/-! ## What the table asks for -/

/-- A slot of this role must be read. -/
def Role.mustRead (r : Role) : Bool :=
  r.reads && r.required

namespace Op

/-- The number of slots that must be read. -/
def mustReads (op : Op) : Nat :=
  op.roles.toList.countP Role.mustRead

/-- The slots are filled as the op's roles say: none that is not used, and each that must
    be. -/
structure Takes {α : Type} (op : Op) (args : Slots (Option α)) : Prop where
  first : op.roles.first.Fits args.first
  second : op.roles.second.Fits args.second
  third : op.roles.third.Fits args.third

end Op

/-- The instruction is written as the table says about the op: it reads temps of the names
    `xs`, and has the integer and the text of the operand that is no temp. -/
structure Written.Instr.Conforms (w : Written.Instr) (op : Op) (xs : List Text) (imm : Int) (label : Text) :
    Prop where
  /-- The op is in the table under this name. -/
  table : op ∈ Op.all
  name : utf8 op.name = w.op
  /-- A destination is there if the first slot must be defined, and is not if it is not
      defined at all. -/
  present : op.roles.first.defines = true → op.roles.first.optional = false → w.dst.isSome = true
  absent : op.roles.first.defines = false → w.dst = none
  /-- The arguments are the names, and behind them the operand that is no temp. -/
  args : ∃ extra, w.args = xs.map .ident ++ extra ∧ ExtraMeans op.extra extra imm label
  /-- There is a name for each slot that must be read, and perhaps one for a slot that may be. -/
  count : xs.length = op.mustReads ∨ (.optOperand ∈ op.roles.toList ∧ xs.length = op.mustReads + 1)

theorem Op.ofName?_eq_some_iff {x : Text} {op : Op} :
    Op.ofName? x = some op ↔ op ∈ Op.all ∧ utf8 op.name = x := by
  have hown : ∀ op ∈ Op.all, Op.ofName? (utf8 op.name) = some op := by decide +kernel
  constructor
  · intro h
    exact (NamedInstr.op_of_ofName? h).symm
  · rintro ⟨hop, rfl⟩
    exact hown op hop

/-! ## Slots -/

namespace Role

variable {r : Role} {o : Option Text}

theorem used_of_reads (h : r.reads = true) : r ≠ .unused := by
  rintro rfl
  cases h

/-- What is read but need not be may be read. -/
theorem eq_optOperand (hreads : r.reads = true) (hmust : r.mustRead = false) : r = .optOperand := by
  cases r <;> simp_all [reads, mustRead, required, optional]

/-- A slot that is not defined and need not be read may be empty. -/
theorem not_required (hdef : r.defines = false) (hmust : r.mustRead = false) : r.required = false := by
  cases r <;> simp_all [defines, reads, mustRead, required, optional]

theorem Fits.taken_eq (h : r.Fits o) (hdef : r.defines = false) : r.taken o = o.toList := by
  by_cases hused : r = .unused
  · rw [h.unused hused]
    simp [taken]
  · rw [taken, if_pos (reads_of_used hused hdef)]

/-- A slot that is filled right takes a name if it must be read, and may take one if it may be. -/
theorem Fits.length_taken_cases (h : r.Fits o) : (r.taken o).length = r.mustRead.toNat ∨
    (r = .optOperand ∧ (r.taken o).length = r.mustRead.toNat + 1) := by
  by_cases hreads : r.reads = true
  · cases o with
    | none =>
      have hreq := fits_none.1 h
      exact .inl (by simp [taken, mustRead, hreq])
    | some x =>
      by_cases hmust : r.mustRead = true
      · exact .inl (by simp [taken, hreads, hmust])
      · rw [Bool.not_eq_true] at hmust
        exact .inr ⟨eq_optOperand hreads hmust, by simp [taken, hreads, hmust]⟩
  · exact .inl (by simp [taken, mustRead, hreads])

/-- **Names are dealt out to the slots in order**: a slot takes its own, and as many are left as
    the slots behind it need. -/
theorem exists_taken (hdef : r.defines = false) {ys : List Text} {later : Nat}
    (h : ys.length = r.mustRead.toNat + later ∨
      (r = .optOperand ∧ ys.length = r.mustRead.toNat + 1 + later)) :
    ∃ o rest, r.Fits o ∧ ys = r.taken o ++ rest ∧ rest.length = later := by
  have htake : r.reads = true → ys.length = later + 1 →
      ∃ o rest, r.Fits o ∧ ys = r.taken o ++ rest ∧ rest.length = later := by
    intro hreads hlen
    obtain ⟨y, rest, rfl⟩ := List.exists_cons_of_length_eq_add_one hlen
    exact ⟨some y, rest, fits_some (used_of_reads hreads), by simp [taken, hreads], by simpa using hlen⟩
  by_cases hmust : r.mustRead = true
  · have hreads := (Bool.and_eq_true_iff.1 hmust).1
    rcases h with hlen | ⟨rfl, -⟩
    · exact htake hreads (by simpa [hmust, Nat.add_comm] using hlen)
    · cases hmust
  · rw [Bool.not_eq_true] at hmust
    rcases h with hlen | ⟨rfl, hlen⟩
    · exact ⟨none, ys, fits_none.2 (not_required hdef hmust), by simp [taken], by simpa [hmust] using hlen⟩
    · exact htake rfl (by simpa [hmust, Nat.add_comm] using hlen)

end Role

theorem Op.mustReads_eq (op : Op) : op.mustReads =
    op.roles.first.mustRead.toNat + (op.roles.second.mustRead.toNat + op.roles.third.mustRead.toNat) := by
  have hcount : ∀ b : Bool, (if b = true then 1 else 0) = b.toNat := by decide
  simp only [mustReads, Slots.toList, List.countP_cons, List.countP_nil, hcount]
  omega

/-- Only the first slot may be read or not. -/
theorem Op.optOperand_mem_iff (op : Op) : .optOperand ∈ op.roles.toList ↔ op.roles.first = .optOperand := by
  obtain ⟨hopt₁, hopt₂⟩ := op.optional_only_first
  have hne : ∀ r : Role, r.optional = false → Role.optOperand ≠ r := by
    rintro r h rfl
    cases h
  simp only [Slots.toList, List.mem_cons, hne _ hopt₁, hne _ hopt₂, List.not_mem_nil, or_false, eq_comm]

namespace NamedInstr

variable {n : NamedInstr}

/-- The names that an instruction reads are as many as its op asks for. -/
theorem Fits.length_sources (h : n.Fits) : n.sources.length = n.op.mustReads ∨
    (.optOperand ∈ n.op.roles.toList ∧ n.sources.length = n.op.mustReads + 1) := by
  obtain ⟨hopt₁, hopt₂⟩ := n.op.optional_only_first
  have hfirst := h.first.length_taken_cases
  have hsecond := h.second.length_taken_cases.resolve_right fun he => by simp [he.1, Role.optional] at hopt₁
  have hthird := h.third.length_taken_cases.resolve_right fun he => by simp [he.1, Role.optional] at hopt₂
  rw [Op.optOperand_mem_iff, Op.mustReads_eq, sources, List.length_append, List.length_append, hsecond,
    hthird, Nat.add_assoc]
  rcases hfirst with hlen | ⟨hrole, hlen⟩
  · exact .inl (by rw [hlen])
  · exact .inr ⟨hrole, by rw [hlen, Nat.add_right_comm]⟩

/-- The names in the slots are the one defined and then those read. -/
theorem Fits.names_eq (h : n.Fits) : n.args.toList.filterMap id = n.target.toList ++ n.sources := by
  obtain ⟨hdef₁, hdef₂⟩ := Instr.defines_only_first n.op
  have hlist : n.args.toList.filterMap id =
      n.args.first.toList ++ (n.args.second.toList ++ n.args.third.toList) := by
    obtain ⟨-, ⟨_ | _, _ | _, _ | _⟩, -, -⟩ := n <;> rfl
  rw [hlist, sources, h.second.taken_eq hdef₁, h.third.taken_eq hdef₂, target]
  by_cases hdef : n.op.roles.first.defines = true
  · rw [if_pos hdef, Role.taken_of_defines hdef, List.nil_append]
  · rw [if_neg hdef, h.first.taken_eq (by simpa using hdef), Option.toList_none, List.nil_append,
      List.append_assoc]

end NamedInstr

/-! ## Conforming -/

namespace Written.Instr

variable {w : Written.Instr} {op : Op} {xs : List Text} {imm : Int} {label : Text}

theorem Means.conforms {n : NamedInstr} (h : w.Means n) : w.Conforms n.op n.sources n.imm n.label := by
  obtain ⟨htable, hname⟩ := Op.ofName?_eq_some_iff.1 h.op
  refine ⟨htable, hname, fun hdef hopt => ?_, fun hdef => ?_, h.args, h.fits.length_sources⟩
  · have hreq : n.op.roles.first.required = true := by
      rw [Role.required_of_used (Role.used_of_defines hdef), hopt]
      rfl
    rw [h.dst, NamedInstr.target, if_pos hdef]
    exact h.fits.first.required hreq
  · rw [h.dst, NamedInstr.target, hdef, if_neg Bool.false_ne_true]

/-- The first slot is the destination, or else takes its name from the front of the others. -/
theorem Conforms.exists_first (h : w.Conforms op xs imm label) : ∃ o rest, op.roles.first.Fits o ∧
    xs = op.roles.first.taken o ++ rest ∧
    rest.length = op.roles.second.mustRead.toNat + op.roles.third.mustRead.toNat ∧
    w.dst = if op.roles.first.defines then o else none := by
  have hcount := h.count
  rw [Op.optOperand_mem_iff, Op.mustReads_eq, Nat.add_right_comm] at hcount
  by_cases hdef : op.roles.first.defines = true
  · have hused := Role.used_of_defines hdef
    have hfits : op.roles.first.Fits w.dst := by
      refine ⟨fun hr => absurd hr hused, fun hreq => h.present hdef ?_⟩
      simpa [Role.required_of_used hused] using hreq
    refine ⟨w.dst, xs, hfits, by rw [Role.taken_of_defines hdef, List.nil_append], ?_, (if_pos hdef).symm⟩
    -- a slot that is defined is not read
    cases hrole : op.roles.first <;> simp_all [Role.defines, Role.mustRead, Role.reads]
  · rw [Bool.not_eq_true] at hdef
    obtain ⟨o, rest, hfits, hxs, hrest⟩ := Role.exists_taken hdef hcount
    exact ⟨o, rest, hfits, hxs, hrest, by rw [h.absent hdef, hdef, if_neg Bool.false_ne_true]⟩

/-- **A conforming instruction means something**: its names fill the slots one after the other. -/
theorem Conforms.exists_means (h : w.Conforms op xs imm label) :
    ∃ n, w.Means n ∧ n.op = op ∧ n.sources = xs ∧ n.imm = imm ∧ n.label = label := by
  obtain ⟨hdef₁, hdef₂⟩ := Instr.defines_only_first op
  obtain ⟨o₀, ys, hfits₀, rfl, hlen₀, hdst⟩ := h.exists_first
  obtain ⟨o₁, zs, hfits₁, rfl, hlen₁⟩ := Role.exists_taken hdef₁ (.inl hlen₀)
  obtain ⟨o₂, rest, hfits₂, rfl, hlen₂⟩ := Role.exists_taken hdef₂ (.inl (hlen₁.trans (Nat.add_zero _).symm))
  obtain rfl := List.length_eq_zero_iff.1 hlen₂
  have hsources : (NamedInstr.mk op ⟨o₀, o₁, o₂⟩ imm label).sources =
      op.roles.first.taken o₀ ++ (op.roles.second.taken o₁ ++ (op.roles.third.taken o₂ ++ [])) := by
    rw [NamedInstr.sources, List.append_nil, List.append_assoc]
  refine ⟨⟨op, ⟨o₀, o₁, o₂⟩, imm, label⟩, ⟨?_, ⟨hfits₀, hfits₁, hfits₂⟩, hdst, ?_⟩, rfl, hsources, rfl, rfl⟩
  · exact Op.ofName?_eq_some_iff.2 ⟨h.table, h.name⟩
  · rw [hsources]
    exact h.args

end Written.Instr

/-! ## Interning -/

namespace Block

variable {b : Block}

/-- Interning slot by slot is interning the names that are there, in order. -/
theorem internSlots_eq (b : Block) (s : Slots (Option Text)) :
    (b.internSlots s).1.toList.filterMap id = (b.internAll (s.toList.filterMap id)).1 ∧
      (b.internSlots s).2 = (b.internAll (s.toList.filterMap id)).2 := by
  obtain ⟨_ | _, _ | _, _ | _⟩ := s <;> exact ⟨rfl, rfl⟩

theorem fits_internSlot {r : Role} {o : Option Text} (h : r.Fits o) : r.Fits (b.internSlot o).1 := by
  cases o with
  | none => exact Role.fits_none.2 (Role.fits_none.1 h)
  | some x =>
    exact Role.fits_some fun hr => by cases h.unused hr

theorem takes_internSlots {n : NamedInstr} (h : n.Fits) : n.op.Takes (b.internSlots n.args).1 :=
  ⟨fits_internSlot h.first, fits_internSlot h.second, fits_internSlot h.third⟩

end Block

/-! ## Lowering -/

namespace Lowering

variable {src : Source} {st st' : State}

/-- The block is under construction from statements of the source. -/
def State.Reached (src : Source) (st : State) : Prop :=
  ∃ name ss ws, List.Forall₂ (Tree.Stmt.Spells src) ss ws ∧
    ss.foldlM (stmt src) ⟨.new name, false, false, []⟩ = .ok st

/-- **No statement makes a block that fails the check.** -/
theorem State.Reached.check_of_step (hst : st.Reached src) {w : Written.Stmt} (h : Step st w st') :
    st'.block.check = .ok () := by
  obtain ⟨name, ss, ws, hss, hrun⟩ := hst
  obtain ⟨d, hsteps, hd⟩ := ((stmts_eq_ok_iff hss).1 hrun).refines (refines_new name)
  obtain ⟨d', hstep, hd'⟩ := h.refines hd
  exact Block.check_of_names hd'.code (hstep.fits (hsteps.fits (Draft.fits_new name)))

/-- The state with one more instruction, on the temps of these names. -/
def State.appended (st : State) (names : List Text) (i : Instr) : State :=
  { st with block := (st.block.internAll names).2.push i, lastHasLive := false }

/-- **An instruction is lowered iff it is written as the table says.**  It then adds one
    instruction of that op, whose slots hold the temps of the destination and of the names
    that it reads, interned in this order, and are empty elsewhere; it has the integer or the
    text of the operand that is no temp.  The block that comes of statements of a source
    passes the check. -/
theorem stmt_instr_iff_conforms {x : Tree.Instr} {w : Written.Instr} (hx : x.Spells src w) (st : State) :
    ((∃ st', stmt src st (.instr x) = .ok st') ↔ ∃ op xs imm label, w.Conforms op xs imm label) ∧
    (∀ op xs imm label, w.Conforms op xs imm label → ∃ args, op.Takes args ∧
      args.toList.filterMap id = (st.block.internAll (w.dst.toList ++ xs)).1 ∧
      stmt src st (.instr x) = .ok (st.appended (w.dst.toList ++ xs) ⟨op, args, imm, label, ∅⟩)) ∧
    (st.Reached src → ∀ st', stmt src st (.instr x) = .ok st' → st'.block.check = .ok ()) := by
  have hlowered : ∀ op xs imm label, w.Conforms op xs imm label → ∃ args, op.Takes args ∧
      args.toList.filterMap id = (st.block.internAll (w.dst.toList ++ xs)).1 ∧
      stmt src st (.instr x) = .ok (st.appended (w.dst.toList ++ xs) ⟨op, args, imm, label, ∅⟩) := by
    intro op xs imm label h
    obtain ⟨n, hmeans, rfl, rfl, rfl, rfl⟩ := h.exists_means
    obtain ⟨hslots, hblock⟩ := st.block.internSlots_eq n.args
    rw [hmeans.fits.names_eq, ← hmeans.dst] at hslots hblock
    refine ⟨(st.block.internSlots n.args).1, Block.takes_internSlots hmeans.fits, hslots, ?_⟩
    rw [State.appended, ← hblock]
    exact (stmt_eq_ok_iff (.instr hx)).2 (.instr hmeans)
  refine ⟨⟨?_, ?_⟩, hlowered, fun hst st' h => hst.check_of_step ((stmt_eq_ok_iff (.instr hx)).1 h)⟩
  · rintro ⟨st', h⟩
    cases (stmt_eq_ok_iff (.instr hx)).1 h with
    | instr hmeans => exact ⟨_, _, _, _, hmeans.conforms⟩
  · rintro ⟨op, xs, imm, label, h⟩
    obtain ⟨args, -, -, hrun⟩ := hlowered op xs imm label h
    exact ⟨_, hrun⟩

/-- A text with an instruction that can be lowered and one that cannot. -/
def loadSource : Source :=
  .ofText [] (utf8 "block b\n\tx = load p 0x10\n\tret 7\n")

/-- `x = load p 0x10` -/
def loadTree : Tree.Instr :=
  ⟨⟨9, 24⟩, some ⟨9, 10⟩, ⟨13, 17⟩, [.ident ⟨18, 19⟩, .int ⟨20, 24⟩]⟩

/-- `ret 7` -/
def retTree : Tree.Instr :=
  ⟨⟨26, 31⟩, none, ⟨26, 29⟩, [.int ⟨30, 31⟩]⟩

/-- A load is lowered with the number behind its temps; a return has no place for one. -/
theorem stmt_instr_iff_conforms_load :
    (∃ st', stmt loadSource ⟨.new (utf8 "b"), false, false, []⟩ (.instr loadTree) = .ok st' ∧
      st'.block.names = [utf8 "x", utf8 "p"] ∧ st'.block.check = .ok ()) ∧
    ¬ ∃ st', stmt loadSource ⟨.new (utf8 "b"), false, false, []⟩ (.instr retTree) = .ok st' := by
  constructor
  · have hx : loadTree.Spells loadSource
        ⟨some (utf8 "x"), utf8 "load", [.ident (utf8 "p"), .int (utf8 "0x10")]⟩ :=
      ⟨by decide, .some (by cbv), by cbv, .cons (.ident (by cbv)) (.cons (.int (by cbv)) .nil)⟩
    obtain ⟨-, hlowered, hcheck⟩ := stmt_instr_iff_conforms hx ⟨.new (utf8 "b"), false, false, []⟩
    obtain ⟨args, -, -, hrun⟩ := hlowered .load [utf8 "p"] 16 []
      ⟨by decide, rfl, fun _ _ => rfl, fun hdef => Bool.noConfusion hdef,
        ⟨[.int (utf8 "0x10")], rfl, by cbv, rfl⟩, .inl rfl⟩
    exact ⟨_, hrun, by cbv, hcheck ⟨utf8 "b", [], [], .nil, rfl⟩ _ hrun⟩
  · have hx : retTree.Spells loadSource ⟨none, utf8 "ret", [.int (utf8 "7")]⟩ :=
      ⟨by decide, .none, by cbv, .cons (.int (by cbv)) .nil⟩
    rw [(stmt_instr_iff_conforms hx ⟨.new (utf8 "b"), false, false, []⟩).1]
    rintro ⟨op, xs, imm, label, h⟩
    have hret : Op.ofName? (utf8 "ret") = some .ret := by cbv
    obtain rfl : op = .ret := Option.some.inj ((Op.ofName?_eq_some_iff.2 ⟨h.table, h.name⟩).symm.trans hret)
    obtain ⟨extra, hargs, hextra⟩ := h.args
    obtain rfl := List.length_eq_zero_iff.1 hextra.length_eq
    cases xs with
    | nil => cases hargs
    | cons x xs => cases hargs

end Lowering

end Straightline
