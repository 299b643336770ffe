/-
  Lowering on names.

  A `Draft` is a block under construction with names in place of temps.  Lowering a
  statement does to the block what `Draft.Step` does to the draft of it, whichever
  numbers its names get.

  * `stmt_eq_ok_iff`, `block_eq_ok_iff`: what is lowered depends on the words of a
    statement and of a block, and not on where they stand;
  * `Step.refines`, `State.Refines.exists_step`: a statement is lowered iff the draft can
    take the step, and the outcome is again a block with its draft;
  * `Makes.isOf`, `exists_makes`: the same of a whole block; that it fits the op table is
    no further condition (`check_of_names`);
  * `blocks_sound`, `blocks_complete`: blocks are lowered iff each of them is and no two
    of them have one name.
-/
import Straightline.Proofs.Signature

namespace Straightline

/-! ## Drafts -/

/-- An instruction on names, and the names live after it. -/
structure Entry where
  instr : NamedInstr
  live : List Text
  deriving DecidableEq

/-- A block under construction, on names. -/
structure Draft where
  name : Text
  code : List Entry
  lastHasLive : Bool
  explicit : Bool
  exit : List Text
  deriving DecidableEq

namespace Draft

/-- A draft without instructions. -/
def new (name : Text) : Draft := ⟨name, [], false, false, []⟩

/-- What a statement does to a draft. -/
inductive Step : Draft → Written.Stmt → Draft → Prop where
  | instr {d : Draft} {w : Written.Instr} {n : NamedInstr} (hw : w.Means n) :
      Step d (.instr w) { d with code := d.code ++ [⟨n, []⟩], lastHasLive := false }
  | live {d : Draft} {code : List Entry} {e : Entry} {xs : List Text} (hcode : d.code = code ++ [e])
      (hfree : d.lastHasLive = false) :
      Step d (.live xs) { d with code := code ++ [⟨e.instr, xs⟩], lastHasLive := true, explicit := true }
  | out {d : Draft} {xs : List Text} : Step d (.out xs) { d with exit := d.exit ++ xs }

/-- What statements in order do to a draft. -/
inductive Steps : Draft → List Written.Stmt → Draft → Prop where
  | nil (d : Draft) : Steps d [] d
  | cons {d d₁ d₂ : Draft} {w : Written.Stmt} {ws : List Written.Stmt} (head : d.Step w d₁)
      (tail : Steps d₁ ws d₂) : Steps d (w :: ws) d₂

/-- The instructions of the draft are of ops in the table, and their slots are filled
    as it says. -/
def Fits (d : Draft) : Prop :=
  ∀ e ∈ d.code, e.instr.op.valid = true ∧ e.instr.Fits

end Draft

/-- The draft of a block: what its lines make of an empty one. -/
def Written.Block.Drafts (w : Written.Block) (d : Draft) : Prop :=
  Draft.Steps (.new w.name) w.stmts d

/-- The instruction is this one on the temps of the block that have the names. -/
structure Block.InstrNames (b : Block) (i : Instr) (e : Entry) : Prop where
  op : i.op = e.instr.op
  imm : i.imm = e.instr.imm
  label : i.label = e.instr.label
  args : b.SlotNames i.args e.instr.args
  live : ∃ ts, List.Forall₂ b.Names ts e.live ∧ ∀ t, i.liveOut.contains t = true ↔ t ∈ ts

/-- The block is what the draft says, and its live-out sets come from where it says. -/
structure LoweredBlock.IsOf (b : LoweredBlock) (d : Draft) : Prop where
  name : b.block.name = d.name
  indexed : b.block.Indexed
  code : List.Forall₂ b.block.InstrNames b.block.code d.code
  given : d.explicit = true → b.liveness = .given
  backward : d.explicit = false →
    ∃ exit, b.liveness = .backward exit ∧ List.Forall₂ b.block.Names exit d.exit

/-- The block under construction is what the draft says. -/
structure Lowering.State.Refines (st : Lowering.State) (d : Draft) : Prop where
  name : st.block.name = d.name
  indexed : st.block.Indexed
  code : List.Forall₂ st.block.InstrNames st.block.code d.code
  lastHasLive : st.lastHasLive = d.lastHasLive
  explicit : st.explicit = d.explicit
  exit : List.Forall₂ st.block.Names st.exit d.exit

namespace Block

variable {b b' : Block}

theorem forall₂_names_mono (hnames : b.names <+: b'.names) {ts : List Temp} {xs : List Text}
    (h : List.Forall₂ b.Names ts xs) : List.Forall₂ b'.Names ts xs :=
  h.imp fun _ _ => Names.mono hnames

theorem InstrNames.mono (hnames : b.names <+: b'.names) {i : Instr} {e : Entry} (h : b.InstrNames i e) :
    b'.InstrNames i e := by
  obtain ⟨ts, hts, hlive⟩ := h.live
  exact ⟨h.op, h.imm, h.label, h.args.mono hnames, ts, forall₂_names_mono hnames hts, hlive⟩

theorem forall₂_instrNames_mono (hnames : b.names <+: b'.names) {code : List Instr} {es : List Entry}
    (h : List.Forall₂ b.InstrNames code es) : List.Forall₂ b'.InstrNames code es :=
  h.imp fun _ _ => InstrNames.mono hnames

theorem nonneg_of_names {ts : List Temp} {xs : List Text} (h : List.Forall₂ b.Names ts xs) :
    ∀ t ∈ ts, 0 ≤ t := by
  induction h with
  | nil => simp
  | cons ht _ ih =>
    obtain ⟨k, rfl, -⟩ := ht
    exact List.forall_mem_cons.2 ⟨Int.natCast_nonneg k, ih⟩

/-- The set of the temps with some names. -/
theorem liveSet_names {ts : List Temp} {xs : List Text} (h : List.Forall₂ b.Names ts xs) :
    ∃ ts', List.Forall₂ b.Names ts' xs ∧ ∀ t, (liveSet ts).contains t = true ↔ t ∈ ts' :=
  ⟨ts, h, contains_liveSet (nonneg_of_names h)⟩

/-! ## The check -/

theorem checkSlot_of_names {s : Option Temp} {n : Option Text} (h : Option.Rel b.Names s n) {role : Role}
    (hfits : role.Fits n) (index slot : Nat) (op : Op) : b.checkSlot index op slot role s = .ok () := by
  cases h with
  | none => simp [checkSlot, Role.fits_none.1 hfits]
  | some ht =>
    have hused : role ≠ .unused := fun hr => by simpa using hfits.unused hr
    simp [checkSlot, hused, hasTemp_iff.2 ⟨_, ht⟩]

theorem checkInstr_of_names {i : Instr} {e : Entry} (h : b.InstrNames i e) (hvalid : e.instr.op.valid = true)
    (hfits : e.instr.Fits) (index : Nat) : b.checkInstr index i = .ok () := by
  have hop : i.op.valid = true := by rw [h.op, hvalid]
  have hfirst := checkSlot_of_names h.args.first hfits.first index 0 i.op
  have hsecond := checkSlot_of_names h.args.second hfits.second index 1 i.op
  have hthird := checkSlot_of_names h.args.third hfits.third index 2 i.op
  rw [← h.op] at hfirst hsecond hthird
  unfold checkInstr
  split
  · rename_i hunknown
    simp [hunknown, Op.valid] at hop
  · simp only [hfirst, hsecond, hthird]
    rfl

theorem checkFrom_of_names {code : List Instr} {es : List Entry} (h : List.Forall₂ b.InstrNames code es)
    (hfits : ∀ e ∈ es, e.instr.op.valid = true ∧ e.instr.Fits) (index : Nat) :
    b.checkFrom index code = .ok () := by
  induction h generalizing index with
  | nil => rfl
  | cons hi _ ih =>
    obtain ⟨⟨hvalid, hslots⟩, hrest⟩ := List.forall_mem_cons.1 hfits
    rw [checkFrom, checkInstr_of_names hi hvalid hslots]
    exact ih hrest (index + 1)

/-- A block on names that fit the op table fits it. -/
theorem check_of_names {es : List Entry} (h : List.Forall₂ b.InstrNames b.code es)
    (hfits : ∀ e ∈ es, e.instr.op.valid = true ∧ e.instr.Fits) : b.check = .ok () :=
  checkFrom_of_names h hfits 0

end Block

namespace Draft

variable {d d' : Draft} {w : Written.Stmt} {ws : List Written.Stmt}

theorem valid_of_means {w : Written.Instr} {n : NamedInstr} (hw : w.Means n) : n.op.valid = true := by
  have hall : ∀ op ∈ Op.all, op.valid = true := by decide
  exact hall _ (List.mem_of_find?_eq_some hw.op)

theorem Step.fits (h : d.Step w d') (hd : d.Fits) : d'.Fits := by
  cases h with
  | instr hw =>
    intro e he
    rcases List.mem_append.1 he with he | he
    · exact hd e he
    · rw [List.mem_singleton.1 he]
      exact ⟨valid_of_means hw, hw.fits⟩
  | @live code e xs hcode _ =>
    rw [Fits, hcode] at hd
    intro e' he
    rcases List.mem_append.1 he with he | he
    · exact hd e' (List.mem_append_left _ he)
    · rw [List.mem_singleton.1 he]
      exact hd e (List.mem_append_right _ (List.mem_singleton_self e))
  | out => exact hd

theorem Steps.fits (h : d.Steps ws d') (hd : d.Fits) : d'.Fits := by
  induction h with
  | nil => exact hd
  | cons head _ ih => exact ih (head.fits hd)

theorem Steps.name (h : d.Steps ws d') : d'.name = d.name := by
  induction h with
  | nil => rfl
  | cons head _ ih =>
    rw [ih]
    cases head <;> rfl

theorem fits_new (name : Text) : (new name).Fits := by
  simp [new, Fits]

end Draft

/-- Changing the last entry on both sides. -/
theorem forall₂_modify_last {α β : Type} {R : α → β → Prop} {as : List α} {bs : List β} {b b' : β} {f : α → α}
    (h : List.Forall₂ R as (bs ++ [b])) (hf : ∀ a, R a b → R (f a) b') :
    List.Forall₂ R (as.modify (as.length - 1) f) (bs ++ [b']) := by
  have hlen : as.length - 1 = bs.length := by simp [h.length_eq]
  have hinit := List.forall₂_take_append as bs [b] h
  obtain ⟨a, rest, ha, hrest, hlast⟩ := List.forall₂_cons_right_iff.1 (List.forall₂_drop_append as bs [b] h)
  rw [List.forall₂_nil_right_iff.1 hrest] at hlast
  rw [hlen, List.modify_eq_take_drop, hlast]
  exact List.rel_append hinit (.cons (hf a ha) .nil)

/-! ## Statements -/

namespace Lowering

variable {src : Source} {st st' : State} {d d' : Draft} {s : Tree.Stmt} {w : Written.Stmt}

theorem temps_of_slices {b : Block} {ss : List Span} {xs : List Text}
    (h : List.Forall₂ (fun s x => src.slice s = .ok x) ss xs) : temps src b ss = .ok (b.internAll xs) := by
  induction h generalizing b with
  | nil => rfl
  | cons hs _ ih =>
    rw [temps, temp_of_slice hs]
    simp only [bind, Except.bind, ih]
    rfl

theorem refines_instr (hst : st.Refines d) (n : NamedInstr) :
    State.Refines { st with
      block := (st.block.internSlots n.args).2.push (n.onTemps (st.block.internSlots n.args).1)
      lastHasLive := false } { d with code := d.code ++ [⟨n, []⟩], lastHasLive := false } := by
  obtain ⟨hadds, hslots⟩ := Block.internSlots_spec hst.indexed n.args
  refine ⟨hadds.name.trans hst.name, hadds.indexed, ?_, rfl, hst.explicit,
    Block.forall₂_names_mono hadds.names hst.exit⟩
  have hcode := Block.forall₂_instrNames_mono hadds.names hst.code
  rw [← hadds.code] at hcode
  have hlast : (st.block.internSlots n.args).2.InstrNames (n.onTemps (st.block.internSlots n.args).1) ⟨n, []⟩ :=
    ⟨rfl, rfl, rfl, hslots, [], .nil, fun t => by simp [NamedInstr.onTemps, DenseSet.not_contains_empty]⟩
  have hall := List.rel_append hcode (.cons hlast .nil)
  refine Block.forall₂_instrNames_mono ?_ hall
  exact List.prefix_rfl

theorem refines_out (hst : st.Refines d) (xs : List Text) :
    State.Refines { st with
      block := (st.block.internAll xs).2
      exit := st.exit ++ (st.block.internAll xs).1 } { d with exit := d.exit ++ xs } := by
  obtain ⟨hadds, hnames⟩ := Block.internAll_spec hst.indexed xs
  refine ⟨hadds.name.trans hst.name, hadds.indexed, ?_, hst.lastHasLive, hst.explicit,
    List.rel_append (Block.forall₂_names_mono hadds.names hst.exit) hnames⟩
  rw [hadds.code]
  exact Block.forall₂_instrNames_mono hadds.names hst.code

theorem refines_live (hst : st.Refines d) {code : List Entry} {e : Entry} (hcode : d.code = code ++ [e])
    (xs : List Text) :
    State.Refines { st with
      block := (st.block.internAll xs).2.modifyInstr (st.block.code.length - 1) fun i =>
        { i with liveOut := Block.liveSet (st.block.internAll xs).1 }
      lastHasLive := true
      explicit := true }
      { d with code := code ++ [⟨e.instr, xs⟩], lastHasLive := true, explicit := true } := by
  obtain ⟨hadds, hnames⟩ := Block.internAll_spec hst.indexed xs
  refine ⟨hadds.name.trans hst.name, hadds.indexed, ?_, rfl, rfl,
    Block.forall₂_names_mono hadds.names hst.exit⟩
  have hold := Block.forall₂_instrNames_mono hadds.names hst.code
  rw [hcode, ← hadds.code] at hold
  have hlast : ∀ i, (st.block.internAll xs).2.InstrNames i e → (st.block.internAll xs).2.InstrNames
      { i with liveOut := Block.liveSet (st.block.internAll xs).1 } ⟨e.instr, xs⟩ := fun i hi =>
    ⟨hi.op, hi.imm, hi.label, hi.args, Block.liveSet_names hnames⟩
  rw [← hadds.code]
  refine Block.forall₂_instrNames_mono ?_ (forall₂_modify_last hold hlast)
  exact List.prefix_rfl

theorem stmt_live {x : Tree.Directive} {xs : List Text} (hx : x.Spells src xs) (hne : st.block.code.length ≠ 0)
    (hfree : st.lastHasLive = false) : stmt src st (.live x) = .ok { st with
      block := (st.block.internAll xs).2.modifyInstr (st.block.code.length - 1) fun i =>
        { i with liveOut := Block.liveSet (st.block.internAll xs).1 }
      lastHasLive := true
      explicit := true } := by
  simp only [stmt, live, hne, if_false, hfree, Bool.false_eq_true, temps_of_slices hx.temps]
  rfl

theorem stmt_out {x : Tree.Directive} {xs : List Text} (hx : x.Spells src xs) :
    stmt src st (.out x) = .ok { st with
      block := (st.block.internAll xs).2
      exit := st.exit ++ (st.block.internAll xs).1 } := by
  simp only [stmt, temps_of_slices hx.temps]
  rfl

/-- What a statement does to the block under construction. -/
inductive Step (st : State) : Written.Stmt → State → Prop where
  | instr {w : Written.Instr} {n : NamedInstr} (hw : w.Means n) : Step st (.instr w) { st with
      block := (st.block.internSlots n.args).2.push (n.onTemps (st.block.internSlots n.args).1)
      lastHasLive := false }
  | live {xs : List Text} (hne : st.block.code.length ≠ 0) (hfree : st.lastHasLive = false) :
      Step st (.live xs) { st with
        block := (st.block.internAll xs).2.modifyInstr (st.block.code.length - 1) fun i =>
          { i with liveOut := Block.liveSet (st.block.internAll xs).1 }
        lastHasLive := true
        explicit := true }
  | out {xs : List Text} : Step st (.out xs) { st with
      block := (st.block.internAll xs).2
      exit := st.exit ++ (st.block.internAll xs).1 }

/-- **What is lowered from a statement depends on its words only.** -/
theorem stmt_eq_ok_iff (hs : s.Spells src w) : stmt src st s = .ok st' ↔ Step st w st' := by
  cases hs with
  | instr hx =>
    simp only [stmt, bind_eq_ok_iff, Prod.exists, instr_ok_iff hx]
    constructor
    · rintro ⟨i, b, ⟨n, hn, rfl, rfl⟩, h⟩
      cases h
      exact .instr hn
    · intro h
      cases h with
      | instr hn => exact ⟨_, _, ⟨_, hn, rfl, rfl⟩, rfl⟩
  | live hx =>
    constructor
    · intro h
      have hne : st.block.code.length ≠ 0 := by
        intro hzero
        simp only [stmt, live, hzero, if_true] at h
        exact report_ne_ok h
      have hfree : st.lastHasLive = false := by
        by_contra hno
        have htaken : st.lastHasLive = true := by simpa using hno
        simp only [stmt, live, hne, if_false, htaken, if_true] at h
        exact report_ne_ok h
      rw [stmt_live hx hne hfree] at h
      cases h
      exact .live hne hfree
    · intro h
      cases h with
      | live hne hfree => exact stmt_live hx hne hfree
  | out hx =>
    rw [stmt_out hx]
    constructor
    · intro h
      cases h
      exact .out
    · intro h
      cases h
      rfl

/-- **A statement that is lowered is a step of the draft.** -/
theorem Step.refines (h : Step st w st') (hst : st.Refines d) : ∃ d', d.Step w d' ∧ st'.Refines d' := by
  cases h with
  | instr hn => exact ⟨_, .instr hn, refines_instr hst _⟩
  | live hne hfree =>
    have hlen : d.code ≠ [] := by
      intro hnil
      simp [hst.code.length_eq, hnil] at hne
    obtain ⟨code, e, hcode⟩ := (List.eq_nil_or_concat' d.code).resolve_left hlen
    exact ⟨_, .live hcode (hst.lastHasLive ▸ hfree), refines_live hst hcode _⟩
  | out => exact ⟨_, .out, refines_out hst _⟩

/-- **A step of the draft can be lowered.** -/
theorem State.Refines.exists_step (hst : st.Refines d) (h : d.Step w d') :
    ∃ st', Step st w st' ∧ st'.Refines d' := by
  cases h with
  | instr hn => exact ⟨_, .instr hn, refines_instr hst _⟩
  | live hcode hfree =>
    have hne : st.block.code.length ≠ 0 := by simp [hst.code.length_eq, hcode]
    exact ⟨_, .live hne (hst.lastHasLive.trans hfree), refines_live hst hcode _⟩
  | out => exact ⟨_, .out, refines_out hst _⟩

/-! ## Blocks -/

/-- What statements in order do to the block under construction. -/
inductive Steps : State → List Written.Stmt → State → Prop where
  | nil (st : State) : Steps st [] st
  | cons {st st₁ st₂ : State} {w : Written.Stmt} {ws : List Written.Stmt} (head : Step st w st₁)
      (tail : Steps st₁ ws st₂) : Steps st (w :: ws) st₂

section
variable {ss : List Tree.Stmt} {ws : List Written.Stmt}

theorem stmts_eq_ok_iff (hss : List.Forall₂ (Tree.Stmt.Spells src) ss ws) :
    ss.foldlM (stmt src) st = .ok st' ↔ Steps st ws st' := by
  induction hss generalizing st with
  | nil =>
    constructor
    · intro h
      cases h
      exact .nil _
    · intro h
      cases h
      rfl
  | cons hs _ ih =>
    simp only [List.foldlM_cons, bind_eq_ok_iff, ih, stmt_eq_ok_iff hs]
    constructor
    · rintro ⟨st₁, head, tail⟩
      exact .cons head tail
    · intro h
      cases h with
      | cons head tail => exact ⟨_, head, tail⟩

theorem Steps.refines (h : Steps st ws st') (hst : st.Refines d) : ∃ d', d.Steps ws d' ∧ st'.Refines d' := by
  induction h generalizing d with
  | nil => exact ⟨d, .nil d, hst⟩
  | cons head _ ih =>
    obtain ⟨d₁, hstep, hst₁⟩ := head.refines hst
    obtain ⟨d₂, hsteps, hst₂⟩ := ih hst₁
    exact ⟨d₂, .cons hstep hsteps, hst₂⟩

theorem State.Refines.exists_steps (hst : st.Refines d) (h : d.Steps ws d') :
    ∃ st', Steps st ws st' ∧ st'.Refines d' := by
  induction h generalizing st with
  | nil => exact ⟨st, .nil st, hst⟩
  | cons head _ ih =>
    obtain ⟨st₁, hstep, hst₁⟩ := hst.exists_step head
    obtain ⟨st₂, hsteps, hst₂⟩ := ih hst₁
    exact ⟨st₂, .cons hstep hsteps, hst₂⟩

end

theorem refines_new (name : Text) : State.Refines ⟨.new name, false, false, []⟩ (.new name) :=
  ⟨rfl, Block.indexed_new name, .nil, rfl, rfl, .nil⟩

theorem State.Refines.isOf (hst : st.Refines d) :
    LoweredBlock.IsOf ⟨st.block, if st.explicit then .given else .backward st.exit⟩ d := by
  refine ⟨hst.name, hst.indexed, hst.code, fun h => ?_, fun h => ⟨st.exit, ?_, hst.exit⟩⟩
  · simp [hst.explicit, h]
  · simp [hst.explicit, h]

/-- The words of a block make this block, which fits the op table. -/
def Makes (name : Text) (ws : List Written.Stmt) (b : LoweredBlock) : Prop :=
  ∃ st : State, Steps ⟨.new name, false, false, []⟩ ws st ∧ st.block.check = .ok () ∧
    b = ⟨st.block, if st.explicit then .given else .backward st.exit⟩

section
variable {name : Text} {x : Tree.Block} {ws : List Written.Stmt} {b : LoweredBlock}

theorem block_eq_ok_iff (hx : List.Forall₂ (Tree.Stmt.Spells src) x.stmts ws) :
    block src name x = .ok b ↔ Makes name ws b := by
  simp only [block, bind_eq_ok_iff, mapError_eq_ok_iff, stmts_eq_ok_iff hx]
  constructor
  · rintro ⟨st, hsteps, _, hcheck, h⟩
    cases h
    exact ⟨st, hsteps, hcheck, rfl⟩
  · rintro ⟨st, hsteps, hcheck, rfl⟩
    exact ⟨st, hsteps, (), hcheck, rfl⟩

theorem Makes.isOf (h : Makes name ws b) : ∃ d, Draft.Steps (.new name) ws d ∧ b.IsOf d := by
  obtain ⟨st, hsteps, -, rfl⟩ := h
  obtain ⟨d, hd, hst⟩ := hsteps.refines (refines_new name)
  exact ⟨d, hd, hst.isOf⟩

/-- No block fails the check: what lowering puts into it fits. -/
theorem exists_makes (h : Draft.Steps (.new name) ws d) : ∃ b, Makes name ws b ∧ b.IsOf d := by
  obtain ⟨st, hsteps, hst⟩ := (refines_new name).exists_steps h
  have hcheck := Block.check_of_names hst.code (h.fits (Draft.fits_new name))
  exact ⟨_, ⟨st, hsteps, hcheck, rfl⟩, hst.isOf⟩

end

theorem blocksFrom_cons {seen : List (Text × Span)} {x : Tree.Block} {xs : List Tree.Block} {name : Text}
    (hx : src.slice x.name = .ok name) {bs : List LoweredBlock} :
    blocksFrom src seen (x :: xs) = .ok bs ↔ seen.lookup name = none ∧
      ∃ b bs', bs = b :: bs' ∧ block src name x = .ok b ∧
        blocksFrom src ((name, x.name) :: seen) xs = .ok bs' := by
  rw [blocksFrom]
  simp only [textOf_of_slice hx, mapError_ok, bind_eq_ok_iff, Except.ok.injEq, exists_eq_left']
  rcases seen.lookup name with _ | previous
  · simp only [bind_eq_ok_iff, mapError_eq_ok_iff, true_and]
    constructor
    · rintro ⟨b, hb, bs', hbs, ⟨⟩⟩
      exact ⟨b, bs', rfl, hb, hbs⟩
    · rintro ⟨b, bs', rfl, hb, hbs⟩
      exact ⟨b, hb, bs', hbs, rfl⟩
  · simp only [bind_eq_ok_iff, mapError_eq_ok_iff, report_ne_ok, and_false, exists_false, reduceCtorEq, false_and]

theorem lookup_cons_eq_none {seen : List (Text × Span)} {x y : Text} {s : Span} :
    ((x, s) :: seen).lookup y = none ↔ y ≠ x ∧ seen.lookup y = none := by
  by_cases h : y = x
  · simp [h]
  · have hne : (y == x) = false := beq_eq_false_iff_ne.2 h
    simp [List.lookup_cons, hne, h]

/-- **Blocks are lowered iff the words of each make a block**, and no name is there twice. -/
theorem blocksFrom_eq_ok_iff {xs : List Tree.Block} {ws : List Written.Block}
    (hxs : List.Forall₂ (Tree.Block.Spells src) xs ws) {seen : List (Text × Span)} {bs : List LoweredBlock} :
    blocksFrom src seen xs = .ok bs ↔ (ws.map (·.name)).Nodup ∧ (∀ w ∈ ws, seen.lookup w.name = none) ∧
      List.Forall₂ (fun w b => Makes w.name w.stmts b) ws bs := by
  induction hxs generalizing seen bs with
  | nil =>
    rw [List.forall₂_nil_left_iff]
    constructor
    · intro h
      cases h
      exact ⟨List.nodup_nil, by simp, rfl⟩
    · rintro ⟨-, -, rfl⟩
      rfl
  | @cons x w xs ws hx _ ih =>
    rw [blocksFrom_cons hx.name, List.forall₂_cons_left_iff, List.map_cons, List.nodup_cons,
      List.forall_mem_cons]
    simp only [block_eq_ok_iff hx.stmts, ih, lookup_cons_eq_none]
    constructor
    · rintro ⟨hseen, b, bs', rfl, hb, hnodup, hfree, hbs⟩
      refine ⟨⟨?_, hnodup⟩, ⟨hseen, fun v hv => (hfree v hv).2⟩, b, bs', hb, hbs, rfl⟩
      rw [List.mem_map]
      rintro ⟨v, hv, hname⟩
      exact (hfree v hv).1 hname
    · rintro ⟨⟨hnew, hnodup⟩, ⟨hseen, hfree⟩, b, bs', hb, hbs, rfl⟩
      refine ⟨hseen, b, bs', rfl, hb, hnodup, fun v hv => ⟨fun hname => hnew ?_, hfree v hv⟩, hbs⟩
      exact hname ▸ List.mem_map_of_mem hv

section
variable {xs : List Tree.Block} {ws : List Written.Block} (hxs : List.Forall₂ (Tree.Block.Spells src) xs ws)
include hxs

theorem blocks_sound {bs : List LoweredBlock} (h : blocksFrom src [] xs = .ok bs) :
    (∃ ds, List.Forall₂ Written.Block.Drafts ws ds ∧ List.Forall₂ LoweredBlock.IsOf bs ds) ∧
      (ws.map (·.name)).Nodup := by
  obtain ⟨hnodup, -, hmade⟩ := (blocksFrom_eq_ok_iff hxs).1 h
  obtain ⟨ds, hdrafts, hofs⟩ := forall₂_through hmade fun w _ b hb => hb.isOf
  exact ⟨⟨ds, hdrafts, hofs.flip⟩, hnodup⟩

theorem blocks_complete {ds : List Draft} (hws : List.Forall₂ Written.Block.Drafts ws ds)
    (hnodup : (ws.map (·.name)).Nodup) :
    ∃ bs, blocksFrom src [] xs = .ok bs ∧ List.Forall₂ LoweredBlock.IsOf bs ds := by
  obtain ⟨bs, hmade, hofs⟩ := forall₂_through hws fun w _ d hd => exists_makes hd
  exact ⟨bs, (blocksFrom_eq_ok_iff hxs).2 ⟨hnodup, by simp, hmade⟩, hofs⟩

end

end Lowering

end Straightline
