/-
  Names and temps over whole runs.

  Blocks are kept under keys and changed by calls, one after the other; a block may be
  replaced by a clone of another.  Calls may end with a fault, which leaves interned
  what was interned before it.

  * `Block.Sound`: the index agrees with the names, and the code uses temps of the block only;
  * `Sound.intern`, `Sound.append`, `Sound.setLive`, `Sound.clone`: each call keeps this, and
    all names keep their places;
  * `grows_step`, `grows_run`: so do one call and a run, where a block is compared with the one it
    comes from, perhaps through clones (`BlockCall.origin`);
  * `interned_after`: hence in every block that calls can make, names and temps determine each
    other, and a temp keeps its name for ever.
-/
import Mathlib
import Straightline.Proofs.RoundTrip

namespace Straightline

namespace Block

variable {b b' : Block} {i : Instr} {t : Temp} {n : Text}

/-! ## Sound blocks -/

/-- The instruction has temps of the block only, in its slots and in its live-out set. -/
structure Owns (b : Block) (i : Instr) : Prop where
  args : ∀ t, some t ∈ i.args.toList → b.hasTemp t = true
  live : ∀ t, i.liveOut.contains t = true → b.hasTemp t = true

/-- The index agrees with the names, and the code uses temps of the block only. -/
structure Sound (b : Block) : Prop where
  indexed : b.Indexed
  code : ∀ i ∈ b.code, b.Owns i

/-- A sound block in which all names of `b` have kept their places. -/
structure Grows (b b' : Block) : Prop where
  names : b.names <+: b'.names
  sound : b'.Sound

theorem sound_new (name : Text) : (new name).Sound :=
  ⟨indexed_new name, by simp [new]⟩

theorem hasTemp_mono (h : b.names <+: b'.names) (ht : b.hasTemp t = true) : b'.hasTemp t = true := by
  obtain ⟨n, hn⟩ := hasTemp_iff.1 ht
  exact hasTemp_iff.2 ⟨n, hn.mono h⟩

theorem Owns.mono (h : b.names <+: b'.names) (hi : b.Owns i) : b'.Owns i :=
  ⟨fun t ht => hasTemp_mono h (hi.args t ht), fun t ht => hasTemp_mono h (hi.live t ht)⟩

theorem Adds.grows {xs : List Text} (h : b.Adds xs b') (hb : b.Sound) : b.Grows b' := by
  refine ⟨h.names, h.indexed, ?_⟩
  intro i hi
  rw [h.code] at hi
  exact (hb.code i hi).mono h.names

theorem Sound.intern (hb : b.Sound) (n : Text) : b.Grows (b.intern n).2 :=
  (intern_spec hb.indexed n).1.grows hb

/-- A block with other code, on the same names. -/
theorem Grows.withCode (h : b.Grows b') {code : List Instr} (hcode : ∀ i ∈ code, b'.Owns i) :
    b.Grows { b' with code } := by
  have hindexed : Indexed { b' with code } := h.sound.indexed
  have hnames : b'.names <+: { b' with code }.names := List.prefix_rfl
  exact ⟨h.names, hindexed, fun i hi => (hcode i hi).mono hnames⟩

theorem Grows.push (h : b.Grows b') (hi : b'.Owns i) : b.Grows (b'.push i) := by
  apply h.withCode
  intro j hj
  rcases List.mem_append.1 hj with hj | hj
  · exact h.sound.code j hj
  · rwa [List.mem_singleton.1 hj]

/-- The name in an operand position, the empty name standing for none. -/
def operandName (names : List Text) (k : Nat) : Option Text :=
  if (names[k]?.getD []).isEmpty then none else some (names[k]?.getD [])

theorem internOperand_eq (b : Block) (n : Text) :
    b.internOperand n = b.internSlot (if n.isEmpty then none else some n) := by
  rw [internOperand]
  split <;> rfl

theorem append_cases (b : Block) (op : Op) (names : List Text) (imm : Int) (label : Text) :
    (∃ f, b.append op names imm label = .error f) ∨ ∃ s : Slots (Option Text),
      b.append op names imm label =
        .ok ((b.internSlots s).2.push ⟨op, (b.internSlots s).1, imm, label, ∅⟩) := by
  unfold append
  split
  · exact .inl ⟨_, rfl⟩
  · refine .inr ⟨⟨operandName names 0, operandName names 1, operandName names 2⟩, ?_⟩
    simp only [internOperand_eq]
    rfl

theorem SlotNames.hasTemp {s : Slots (Option Temp)} {x : Slots (Option Text)} (h : b.SlotNames s x)
    (ht : some t ∈ s.toList) : b.hasTemp t = true := by
  have hrel : ∀ {o : Option Text}, Option.Rel b.Names (some t) o → b.hasTemp t = true := by
    rintro _ ⟨hname⟩
    exact hasTemp_iff.2 ⟨_, hname⟩
  simp only [Slots.toList, List.mem_cons, List.not_mem_nil, or_false] at ht
  rcases ht with ht | ht | ht
  · exact hrel (ht ▸ h.first)
  · exact hrel (ht ▸ h.second)
  · exact hrel (ht ▸ h.third)

/-- The block after an attempt to append an instruction, which changes nothing if it fails. -/
theorem Sound.append (hb : b.Sound) (op : Op) (names : List Text) (imm : Int) (label : Text) :
    b.Grows ((b.append op names imm label).toOption.getD b) := by
  rcases b.append_cases op names imm label with ⟨f, h⟩ | ⟨s, h⟩
  · rw [h]
    exact ⟨List.prefix_rfl, hb⟩
  · obtain ⟨hadds, hslots⟩ := internSlots_spec hb.indexed s
    rw [h]
    apply (hadds.grows hb).push
    refine ⟨fun t ht => hslots.hasTemp ht, ?_⟩
    intro t ht
    exact absurd ht (DenseSet.not_contains_empty t)

theorem Grows.modifyInstr (h : b.Grows b') (k : Nat) {f : Instr → Instr}
    (hf : ∀ i, b'.Owns i → b'.Owns (f i)) : b.Grows (b'.modifyInstr k f) := by
  apply h.withCode
  intro j hj
  obtain ⟨m, hm⟩ := List.mem_iff_getElem?.1 hj
  rw [List.getElem?_modify] at hm
  obtain ⟨i, hi, rfl⟩ := Option.map_eq_some_iff.1 hm
  have howns := h.sound.code i (List.mem_of_getElem? hi)
  split
  · exact hf i howns
  · exact howns

theorem hasTemp_of_forall₂ {ts : List Temp} {xs : List Text} (h : List.Forall₂ b.Names ts xs) (ht : t ∈ ts) :
    b.hasTemp t = true := by
  obtain ⟨n, -, hn⟩ := exists_of_forall₂_left h ht
  exact hasTemp_iff.2 ⟨n, hn⟩

theorem Sound.setLive (hb : b.Sound) (k : Int) (names : List Text) : b.Grows (b.setLive k names).1 := by
  obtain ⟨hadds, hnames⟩ := internAll_spec hb.indexed names
  have hgrows := hadds.grows hb
  simp only [Block.setLive]
  split
  · apply hgrows.modifyInstr
    intro i hi
    refine ⟨hi.args, ?_⟩
    intro t ht
    exact hasTemp_of_forall₂ hnames ((contains_liveSet (nonneg_of_names hnames) t).1 ht)
  · exact hgrows

/-! ## Clones -/

theorem Indexed.nodup (hb : b.Indexed) : b.names.Nodup := by
  rw [List.nodup_iff_getElem?_ne_getElem?]
  intro k l hkl hl heq
  have hname : b.names[l]? = some b.names[l] := List.getElem?_eq_getElem hl
  have htemp : (k : Temp) = l := hb.temp_unique ⟨k, rfl, heq.trans hname⟩ ⟨l, rfl, hname⟩
  exact hkl.ne (Int.ofNat.inj htemp)

/-- In an index of different names an entry is found iff it is there. -/
theorem lookup_eq_some_iff_mem {index : List (Text × Temp)} (h : (index.map Prod.fst).Nodup) :
    index.lookup n = some t ↔ (n, t) ∈ index := by
  induction index with
  | nil => simp
  | cons e index ih =>
    obtain ⟨hnew, hrest⟩ := List.nodup_cons.1 h
    rw [List.lookup_cons, List.mem_cons]
    by_cases hn : n = e.1
    · have hnot : (n, t) ∉ index := fun hmem => hnew (hn ▸ List.mem_map_of_mem hmem)
      rw [beq_iff_eq.2 hn, or_iff_left hnot, Prod.ext_iff, Option.some.injEq, eq_comm]
      exact (and_iff_right hn).symm
    · rw [beq_eq_false_iff_ne.2 hn, ih hrest]
      simp [Prod.ext_iff, hn]

/-- The index that different names give is right. -/
theorem indexed_of_nodup (h : b.names.Nodup) (hindex : b.index = none) : b.Indexed := by
  intro n t
  have hbuilt : b.nameIndex = indexOf b.names := by rw [nameIndex, hindex, Option.getD_none]
  have hkeys : (indexOf b.names).map Prod.fst = b.names.reverse := by
    simp only [indexOf, List.map_reverse, List.map_map, Function.comp_def]
    rw [List.zipIdx_map_fst]
  have hnodup : ((indexOf b.names).map Prod.fst).Nodup := by rwa [hkeys, List.nodup_reverse]
  rw [hbuilt, lookup_eq_some_iff_mem hnodup, Names]
  simp only [indexOf, List.mem_reverse, List.mem_map, Prod.exists, List.mk_mem_zipIdx_iff_getElem?,
    Prod.mk.injEq]
  constructor
  · rintro ⟨x, k, hk, rfl, rfl⟩
    exact ⟨k, rfl, hk⟩
  · rintro ⟨k, rfl, hk⟩
    exact ⟨n, k, hk, rfl, rfl⟩

/-- A clone builds its index anew, and gets the one it would have had. -/
theorem Sound.clone (hb : b.Sound) : b.Grows b.clone := by
  have hnames : b.names <+: b.clone.names := List.prefix_rfl
  exact ⟨hnames, indexed_of_nodup hb.indexed.nodup rfl, fun i hi => (hb.code i hi).mono hnames⟩

/-! ## Names and temps of a block -/

/-- Names and temps of a block determine each other, and its code has no other temps. -/
structure Interned (b : Block) : Prop where
  nodup : b.names.Nodup
  /-- The temp of a name is its index, and the name is added only if it is missing. -/
  intern : ∀ n, (b.intern n).1 = (b.intern n).2.names.idxOf n ∧
    (b.intern n).2.names = if n ∈ b.names then b.names else b.names ++ [n]
  /-- Looking up agrees with interning for the names that are there, and finds no others. -/
  lookup : ∀ n, b.lookup? n = if n ∈ b.names then some (b.intern n).1 else none
  tempName : ∀ n, (b.intern n).2.tempName (b.intern n).1 = n
  /-- What stands in a slot or in a live-out set is an index of a name. -/
  args : ∀ i ∈ b.code, ∀ t, some t ∈ i.args.toList → 0 ≤ t ∧ t < b.names.length
  live : ∀ i ∈ b.code, ∀ t, i.liveOut.contains t = true → 0 ≤ t ∧ t < b.names.length

theorem Indexed.eq_idxOf (hb : b.Indexed) (h : b.Names t n) : t = b.names.idxOf n := by
  obtain ⟨k, rfl, hk⟩ := h
  obtain ⟨hlt, rfl⟩ := List.getElem?_eq_some_iff.1 hk
  rw [hb.nodup.idxOf_getElem]

theorem Indexed.names_intern (hb : b.Indexed) (n : Text) :
    (b.intern n).2.names = if n ∈ b.names then b.names else b.names ++ [n] := by
  have hmem : n ∈ b.names ↔ ∃ t, b.nameIndex.lookup n = some t := by
    rw [← exists_names_iff]
    exact exists_congr fun t => (hb n t).symm
  unfold Block.intern
  rcases h : b.nameIndex.lookup n with _ | t
  · rw [if_neg (by simp [hmem, h])]
  · rw [if_pos (hmem.2 ⟨t, h⟩)]

theorem Indexed.lookup?_eq (hb : b.Indexed) (n : Text) :
    b.lookup? n = if n ∈ b.names then some (b.intern n).1 else none := by
  split
  · rename_i hn
    obtain ⟨t, ht⟩ := exists_names_iff.2 hn
    obtain ⟨hadds, hname⟩ := intern_spec hb n
    rw [lookup?_of_names hb ht, hadds.indexed.temp_unique hname (ht.mono hadds.names)]
  · rename_i hn
    rw [lookup?, List.idxOf?_eq_none_iff.2 hn]
    rfl

theorem Sound.interned (hb : b.Sound) : b.Interned := by
  have hvalid : ∀ t, b.hasTemp t = true → 0 ≤ t ∧ t < b.names.length := fun t ht => hasTemp_eq_true_iff.1 ht
  refine ⟨hb.indexed.nodup, ?_, hb.indexed.lookup?_eq, ?_, ?_, ?_⟩
  · intro n
    obtain ⟨hadds, hname⟩ := intern_spec hb.indexed n
    exact ⟨hadds.indexed.eq_idxOf hname, hb.indexed.names_intern n⟩
  · intro n
    exact (intern_spec hb.indexed n).2.tempName
  · intro i hi t ht
    exact hvalid t ((hb.code i hi).args t ht)
  · intro i hi t ht
    exact hvalid t ((hb.code i hi).live t ht)

end Block

/-! ## Runs -/

/-- What is done to a block, perhaps with another one of those kept under keys. -/
inductive BlockAction (ι : Type) where
  | intern (name : Text)
  | append (op : Op) (names : List Text) (imm : Int) (label : Text)
  | setLive (index : Int) (names : List Text)
  /-- the block is replaced by a clone of the one under a key -/
  | clone (key : ι)

/-- An action on the block kept under a key. -/
structure BlockCall (ι : Type) where
  receiver : ι
  action : BlockAction ι

namespace BlockCall

variable {ι : Type}

/-- What an action makes of a block, whether or not it ends with a fault. -/
def act (blocks : ι → Block) (b : Block) : BlockAction ι → Block
  | .intern n => (b.intern n).2
  | .append op names imm label => (b.append op names imm label).toOption.getD b
  | .setLive k names => (b.setLive k names).1
  | .clone x => (blocks x).clone

variable [DecidableEq ι]

/-- One call on blocks kept under keys. -/
def step (blocks : ι → Block) (c : BlockCall ι) : ι → Block :=
  Function.update blocks c.receiver (act blocks (blocks c.receiver) c.action)

/-- The blocks after some calls, new ones at first. -/
def after (title : ι → Text) (calls : List (BlockCall ι)) : ι → Block :=
  calls.foldl step fun i => Block.new (title i)

/-- The key of the block from which the one kept under `i` after a call comes. -/
def source (c : BlockCall ι) (i : ι) : ι :=
  match c.action with
  | .clone x => if i = c.receiver then x else i
  | _ => i

/-- The key of the block from which the one kept under `i` after some calls comes: it is that block,
    or a clone of it, or a clone of a clone. -/
def origin (calls : List (BlockCall ι)) (i : ι) : ι :=
  calls.foldr source i

variable {blocks : ι → Block}

/-- One call keeps blocks sound, and keeps the names of the block that each one comes from. -/
theorem grows_step (h : ∀ i, (blocks i).Sound) (c : BlockCall ι) (i : ι) :
    (blocks (c.source i)).Grows (step blocks c i) := by
  rcases c with ⟨r, a⟩
  by_cases hi : i = r
  · subst hi
    rw [step, Function.update_self]
    cases a with
    | intern n => exact (h i).intern n
    | append op names imm label => exact (h i).append op names imm label
    | setLive k names => exact (h i).setLive k names
    | clone x =>
      have hsource : source ⟨i, .clone x⟩ i = x := if_pos rfl
      rw [hsource]
      exact (h x).clone
  · have hsource : source ⟨r, a⟩ i = i := by cases a <;> simp [source, hi]
    rw [step, Function.update_of_ne hi, hsource]
    exact ⟨List.prefix_rfl, h i⟩

/-- **A run keeps blocks sound**, and keeps the names of the block that each one comes from. -/
theorem grows_run (h : ∀ i, (blocks i).Sound) (calls : List (BlockCall ι)) (i : ι) :
    (blocks (origin calls i)).Grows (calls.foldl step blocks i) := by
  induction calls generalizing blocks with
  | nil => exact ⟨List.prefix_rfl, h i⟩
  | cons c calls ih =>
    have hstep := grows_step h c
    have hrest := ih fun j => (hstep j).sound
    exact ⟨(hstep (origin calls i)).names.trans hrest.names, hrest.sound⟩

theorem sound_after (title : ι → Text) (calls : List (BlockCall ι)) (i : ι) : (after title calls i).Sound :=
  (grows_run (fun j => Block.sound_new (title j)) calls i).sound

theorem after_append (title : ι → Text) (calls more : List (BlockCall ι)) :
    after title (calls ++ more) = more.foldl step (after title calls) :=
  List.foldl_append

/-- **Interning is a stable bijection.** In every block that calls can make names and temps
    determine each other; and the temp that a name gets keeps that name, whatever calls follow, in
    the block and in all that are cloned from it. -/
theorem interned_after (title : ι → Text) (calls : List (BlockCall ι)) :
    (∀ i, (after title calls i).Interned) ∧
      ∀ n more i, (after title (calls ++ ⟨origin more i, .intern n⟩ :: more) i).tempName
        ((after title calls (origin more i)).intern n).1 = n := by
  refine ⟨fun i => (sound_after title calls i).interned, ?_⟩
  intro n more i
  have hsound := sound_after title calls
  let c : BlockCall ι := ⟨origin more i, .intern n⟩
  have hgrows := grows_run (fun j => (grows_step hsound c j).sound) more i
  have hname := (Block.intern_spec (hsound (origin more i)).indexed n).2
  have hreceiver : step (after title calls) c (origin more i) = ((after title calls (origin more i)).intern n).2 :=
    Function.update_self ..
  rw [after_append, List.foldl_cons]
  exact ((hreceiver ▸ hname).mono hgrows.names).tempName

end BlockCall

end Straightline
