/-
  Names and the temps they stand for.

  * `Block.Indexed`: the index of a block finds the temp of each of its names, and
    nothing else; so no two temps have one name;
  * `Block.Adds`: a block with some more names, in which all temps keep theirs;
  * `intern_spec`, `internAll_spec`, `internSlots_spec`: interning adds the names, and
    gives the temps that have them.
-/
import Mathlib.Data.List.Forall2
import Straightline.Proofs.Liveness

namespace Straightline

namespace Block

variable {b b' : Block} {t u : Temp} {n x : Text}

/-- The temp has this name. -/
def Names (b : Block) (t : Temp) (n : Text) : Prop :=
  ∃ k : Nat, t = k ∧ b.names[k]? = some n

/-- The index finds the temp of each name, and nothing else. -/
def Indexed (b : Block) : Prop :=
  ∀ n t, b.nameIndex.lookup n = some t ↔ b.Names t n

theorem Names.name_unique (h : b.Names t n) (h' : b.Names t x) : n = x := by
  obtain ⟨k, rfl, hk⟩ := h
  obtain ⟨l, heq, hl⟩ := h'
  obtain rfl : k = l := Int.ofNat.inj heq
  exact Option.some.inj (hk.symm.trans hl)

theorem Indexed.temp_unique (hb : b.Indexed) (h : b.Names t n) (h' : b.Names u n) : t = u :=
  Option.some.inj (((hb n t).2 h).symm.trans ((hb n u).2 h'))

theorem Names.tempName (h : b.Names t n) : b.tempName t = n := by
  obtain ⟨k, rfl, hk⟩ := h
  change b.names[k]?.getD _ = n
  rw [hk, Option.getD_some]

theorem hasTemp_iff : b.hasTemp t = true ↔ ∃ n, b.Names t n := by
  rw [hasTemp_eq_true_iff, numTemps]
  constructor
  · rintro ⟨h₀, h₁⟩
    obtain ⟨k, rfl⟩ := Int.eq_ofNat_of_zero_le h₀
    have hk : k < b.names.length := Int.ofNat_lt.1 h₁
    exact ⟨b.names[k], k, rfl, List.getElem?_eq_getElem hk⟩
  · rintro ⟨n, k, rfl, hk⟩
    exact ⟨Int.natCast_nonneg k, Int.ofNat_lt.2 (List.getElem?_eq_some_iff.1 hk).1⟩

theorem exists_names_iff : (∃ t, b.Names t n) ↔ n ∈ b.names := by
  rw [List.mem_iff_getElem?]
  constructor
  · rintro ⟨t, k, -, hk⟩
    exact ⟨k, hk⟩
  · rintro ⟨k, hk⟩
    exact ⟨k, k, rfl, hk⟩

theorem indexed_new (name : Text) : (new name).Indexed := by
  intro n t
  simp [nameIndex, new, indexOf, Names]

/-- `b'` is `b` with the names `xs` added where they are new. -/
structure Adds (b : Block) (xs : List Text) (b' : Block) : Prop where
  name : b'.name = b.name
  code : b'.code = b.code
  names : b.names <+: b'.names
  mem : ∀ n, n ∈ b'.names ↔ n ∈ b.names ∨ n ∈ xs
  indexed : b'.Indexed

theorem Adds.refl (hb : b.Indexed) : b.Adds [] b :=
  ⟨rfl, rfl, List.prefix_rfl, by simp, hb⟩

theorem Adds.trans {b'' : Block} {xs ys : List Text} (h : b.Adds xs b') (h' : b'.Adds ys b'') :
    b.Adds (xs ++ ys) b'' := by
  refine ⟨h'.name.trans h.name, h'.code.trans h.code, h.names.trans h'.names, ?_, h'.indexed⟩
  intro n
  rw [h'.mem, h.mem, List.mem_append, or_assoc]

/-- A temp keeps its name. -/
theorem Names.mono (hnames : b.names <+: b'.names) (h : b.Names t n) : b'.Names t n := by
  obtain ⟨k, rfl, hk⟩ := h
  obtain ⟨xs, hxs⟩ := hnames
  have hlt := (List.getElem?_eq_some_iff.1 hk).1
  exact ⟨k, rfl, by rw [← hxs, List.getElem?_append_left hlt, hk]⟩

theorem Adds.names_mono {xs : List Text} (h : b.Adds xs b') (ht : b.Names t n) : b'.Names t n :=
  ht.mono h.names

/-! ## Interning -/

theorem names_concat {index : Option (List (Text × Temp))} :
    (Block.mk b.name (b.names ++ [n]) b.code index).Names t x ↔
      b.Names t x ∨ (t = (b.numTemps : Temp) ∧ x = n) := by
  constructor
  · rintro ⟨k, rfl, hk⟩
    rcases Nat.lt_or_ge k b.names.length with hlt | hge
    · rw [List.getElem?_append_left hlt] at hk
      exact .inl ⟨k, rfl, hk⟩
    · rw [List.getElem?_append_right hge] at hk
      obtain ⟨hlt, hx⟩ := List.getElem?_eq_some_iff.1 hk
      obtain rfl : k = b.names.length := by simp only [List.length_singleton] at hlt; omega
      exact .inr ⟨rfl, by simpa using hx.symm⟩
  · rintro (h | ⟨rfl, rfl⟩)
    · exact h.mono (List.prefix_append _ _)
    · exact ⟨b.numTemps, rfl, List.getElem?_concat_length⟩

theorem intern_spec (hb : b.Indexed) (n : Text) :
    b.Adds [n] (b.intern n).2 ∧ (b.intern n).2.Names (b.intern n).1 n := by
  rcases h : b.nameIndex.lookup n with _ | t
  · have hnew : ∀ t, ¬ b.Names t n := by
      intro t ht
      rw [(hb n t).2 ht] at h
      cases h
    have hint : b.intern n = ((b.numTemps : Temp),
        ⟨b.name, b.names ++ [n], b.code, some ((n, (b.numTemps : Temp)) :: b.nameIndex)⟩) := by
      rw [intern, h]
    rw [hint]
    refine ⟨⟨rfl, rfl, List.prefix_append _ _, by simp, ?_⟩, names_concat.2 (.inr ⟨rfl, rfl⟩)⟩
    intro x t
    change ((n, (b.numTemps : Temp)) :: b.nameIndex).lookup x = some t ↔ _
    rw [names_concat, List.lookup_cons]
    by_cases hx : x = n
    · subst hx
      simp [hnew, eq_comm]
    · have hne : (x == n) = false := beq_eq_false_iff_ne.2 hx
      simp [hne, hx, hb x t]
  · have hint : b.intern n = (t, { b with index := some b.nameIndex }) := by rw [intern, h]
    have ht : b.Names t n := (hb n t).1 h
    rw [hint]
    refine ⟨⟨rfl, rfl, List.prefix_rfl, ?_, hb⟩, ht⟩
    intro x
    simp only [List.mem_singleton]
    exact ⟨.inl, fun hx => hx.elim id fun hx => hx ▸ exists_names_iff.1 ⟨t, ht⟩⟩

theorem internAll_spec (hb : b.Indexed) (xs : List Text) :
    b.Adds xs (b.internAll xs).2 ∧ List.Forall₂ (b.internAll xs).2.Names (b.internAll xs).1 xs := by
  induction xs generalizing b with
  | nil => exact ⟨.refl hb, .nil⟩
  | cons x xs ih =>
    obtain ⟨hadd, hname⟩ := intern_spec hb x
    obtain ⟨hadds, hnames⟩ := ih hadd.indexed
    exact ⟨hadd.trans hadds, .cons (hadds.names_mono hname) hnames⟩

/-- The temp of the name in a slot, if there is one. -/
def internSlot (b : Block) : Option Text → Option Temp × Block
  | none => (none, b)
  | some n => ((b.intern n).1, (b.intern n).2)

/-- The temps of the names in the slots, first to last. -/
def internSlots (b : Block) (s : Slots (Option Text)) : Slots (Option Temp) × Block :=
  let (t₀, b) := b.internSlot s.first
  let (t₁, b) := b.internSlot s.second
  let (t₂, b) := b.internSlot s.third
  (⟨t₀, t₁, t₂⟩, b)

theorem internSlot_spec (hb : b.Indexed) (o : Option Text) :
    b.Adds o.toList (b.internSlot o).2 ∧ Option.Rel (b.internSlot o).2.Names (b.internSlot o).1 o := by
  cases o with
  | none => exact ⟨.refl hb, .none⟩
  | some n =>
    obtain ⟨hadd, hname⟩ := intern_spec hb n
    exact ⟨hadd, .some hname⟩

/-- Each slot holds a temp with the name, or nothing where there is no name. -/
structure SlotNames (b : Block) (s : Slots (Option Temp)) (n : Slots (Option Text)) : Prop where
  first : Option.Rel b.Names s.first n.first
  second : Option.Rel b.Names s.second n.second
  third : Option.Rel b.Names s.third n.third

theorem rel_names_mono (hnames : b.names <+: b'.names) {s : Option Temp} {o : Option Text}
    (h : Option.Rel b.Names s o) : Option.Rel b'.Names s o := by
  cases h with
  | none => exact .none
  | some h => exact .some (h.mono hnames)

theorem SlotNames.mono {s : Slots (Option Temp)} {n : Slots (Option Text)} (hnames : b.names <+: b'.names)
    (h : b.SlotNames s n) : b'.SlotNames s n :=
  ⟨rel_names_mono hnames h.first, rel_names_mono hnames h.second, rel_names_mono hnames h.third⟩

theorem internSlots_spec (hb : b.Indexed) (n : Slots (Option Text)) :
    b.Adds (n.toList.filterMap id) (b.internSlots n).2 ∧ (b.internSlots n).2.SlotNames (b.internSlots n).1 n := by
  obtain ⟨hadd₀, hname₀⟩ := internSlot_spec hb n.first
  obtain ⟨hadd₁, hname₁⟩ := internSlot_spec hadd₀.indexed n.second
  obtain ⟨hadd₂, hname₂⟩ := internSlot_spec hadd₁.indexed n.third
  refine ⟨?_, rel_names_mono (hadd₁.trans hadd₂).names hname₀, rel_names_mono hadd₂.names hname₁, hname₂⟩
  have hlist : n.toList.filterMap id = n.first.toList ++ n.second.toList ++ n.third.toList := by
    obtain ⟨_ | _, _ | _, _ | _⟩ := n <;> rfl
  rw [hlist]
  exact (hadd₀.trans hadd₁).trans hadd₂

end Block

end Straightline
