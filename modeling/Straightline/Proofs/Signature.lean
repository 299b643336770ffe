/-
  What the op table makes of a written instruction.

  `NamedInstr` is an instruction with names in place of temps.  A written instruction
  means one (`Written.Instr.Means`) if it has the op's name, a destination if and only
  if the op's first slot is defined and filled, an identifier for each slot that is
  read and filled, and behind them the operand that is no temp.

  * `Lowering.instr_ok_iff`: an instruction is lowered iff it means something, and then
    to what it means with the temps of its names.
-/
import Straightline.Lowering
import Straightline.Proofs.Interning
import Straightline.Proofs.Written

namespace Straightline

theorem bind_eq_ok_iff {ε α β : Type} {x : Except ε α} {f : α → Except ε β} {b : β} :
    x >>= f = .ok b ↔ ∃ a, x = .ok a ∧ f a = .ok b := by
  cases x with
  | error e => simp [bind, Except.bind]
  | ok a => simp [bind, Except.bind]

theorem mapError_ok {ε ε' α : Type} {f : ε → ε'} {a : α} :
    (Except.ok a : Except ε α).mapError f = .ok a := rfl

theorem mapError_eq_ok_iff {ε ε' α : Type} {x : Except ε α} {f : ε → ε'} {a : α} :
    x.mapError f = .ok a ↔ x = .ok a := by
  cases x <;> simp [Except.mapError]

theorem exists_of_toOption_map {ε α β : Type} {x : Except ε α} {f : α → β} {b : β}
    (h : x.toOption.map f = some b) : ∃ a, x = .ok a ∧ f a = b := by
  cases x with
  | error e => cases h
  | ok a => exact ⟨a, rfl, Option.some.inj h⟩

/-! ## Instructions on names -/

/-- A slot of this role may hold this. -/
structure Role.Fits {α : Type} (r : Role) (o : Option α) : Prop where
  unused : r = .unused → o = none
  required : r.required = true → o.isSome = true

/-- What the role reads of a slot. -/
def Role.taken {α : Type} (r : Role) (o : Option α) : List α :=
  if r.reads then o.toList else []

/-- An instruction on names. -/
structure NamedInstr where
  op : Op
  args : Slots (Option Text)
  imm : Int
  label : Text
  deriving DecidableEq

namespace NamedInstr

/-- The slots are filled as the op table says. -/
structure Fits (n : NamedInstr) : Prop where
  first : n.op.roles.first.Fits n.args.first
  second : n.op.roles.second.Fits n.args.second
  third : n.op.roles.third.Fits n.args.third

/-- The name that the instruction defines. -/
def target (n : NamedInstr) : Option Text :=
  if n.op.roles.first.defines then n.args.first else none

/-- The names that the instruction reads, in slot order. -/
def sources (n : NamedInstr) : List Text :=
  n.op.roles.first.taken n.args.first ++ n.op.roles.second.taken n.args.second ++
    n.op.roles.third.taken n.args.third

/-- The instruction with these temps in its slots. -/
def onTemps (n : NamedInstr) (args : Slots (Option Temp)) : Instr :=
  ⟨n.op, args, n.imm, n.label, ∅⟩

end NamedInstr

namespace Written

/-- The arguments behind the temps mean this integer and this text, by the kind of
    operand that the op has. -/
def ExtraMeans : Extra → List Arg → Int → Text → Prop
  | .nothing, [], n, s => n = 0 ∧ s = []
  | .immediate, [.int x], n, s => Numeral.read .prefixed x = .ok n ∧ s = []
  | .label, [.ident x], n, s => n = 0 ∧ s = x
  | .string, [.string x], n, s => n = 0 ∧ unquoted? x = some s
  | _, _, _, _ => False

/-- The written instruction means this one. -/
structure Instr.Means (w : Instr) (n : NamedInstr) : Prop where
  op : Op.ofName? w.op = some n.op
  fits : n.Fits
  dst : w.dst = n.target
  args : ∃ extra, w.args = n.sources.map .ident ++ extra ∧ ExtraMeans n.op.extra extra n.imm n.label

theorem ExtraMeans.length_eq {e : Extra} {as : List Arg} {n : Int} {s : Text} (h : ExtraMeans e as n s) :
    as.length = if e = .nothing then 0 else 1 := by
  unfold ExtraMeans at h
  split at h
  · rfl
  · rfl
  · rfl
  · rfl
  · exact h.elim

end Written

namespace Role

variable {r : Role} {α : Type} {o : Option α}

theorem reads_of_used (h : r ≠ .unused) (hdef : r.defines = false) : r.reads = true := by
  cases r <;> simp_all [reads, defines]

theorem fits_some {a : α} (h : r ≠ .unused) : r.Fits (some a) :=
  ⟨fun hr => absurd hr h, fun _ => rfl⟩

theorem fits_none : r.Fits (none : Option α) ↔ r.required = false := by
  constructor
  · intro h
    rw [Bool.eq_false_iff]
    exact fun hreq => by simpa using h.required hreq
  · intro h
    exact ⟨fun _ => rfl, fun hreq => by simp [h] at hreq⟩

theorem used_of_defines (h : r.defines = true) : r ≠ .unused := by
  rintro rfl
  cases h

theorem taken_of_defines (h : r.defines = true) : r.taken o = [] := by
  cases r <;> simp_all [taken, reads, defines]

theorem required_of_used (h : r ≠ .unused) : r.required = !r.optional := by
  cases r <;> simp_all [required, optional]

theorem Fits.length_taken (h : r.Fits o) (hopt : r.optional = false) (hdef : r.defines = false) :
    (r.taken o).length = if r.required then 1 else 0 := by
  by_cases hused : r = .unused
  · subst hused
    rfl
  · have hreads := reads_of_used hused hdef
    have hreq : r.required = true := by simp [required_of_used hused, hopt]
    obtain ⟨a, rfl⟩ := Option.isSome_iff_exists.1 (h.required hreq)
    simp [taken, hreads, hreq]

end Role

theorem Op.optional_only_first (op : Op) :
    op.roles.second.optional = false ∧ op.roles.third.optional = false := by
  cases op <;> exact ⟨rfl, rfl⟩

/-! ## Lowering -/

namespace Lowering

variable {src : Source} {x : Tree.Instr} {w : Written.Instr} {op : Op} {b b' : Block} {o : Option Temp}
  {as rest : List Tree.Arg} {ws : List Written.Arg} {s : Span} {y : Text}

theorem report_ne_ok {α : Type} {offset : Int} {p : SemanticProblem} {a : α} :
    report src offset p ≠ .ok a := by
  unfold report
  split <;> nofun

theorem textOf_of_slice (h : src.slice s = .ok y) : textOf src s = .ok y := by
  rw [textOf, h]
  rfl

theorem temp_of_slice (h : src.slice s = .ok y) : temp src b s = .ok (b.intern y) := by
  rw [temp, textOf_of_slice h]
  rfl

theorem operand_sound {role : Role} {slot : Nat} {later : List Role}
    (has : List.Forall₂ (Tree.Arg.Spells src) as ws) (hdef : role.defines = false)
    (h : operand src x op slot role later b as = .ok (o, b', rest)) :
    ∃ n ws', role.Fits n ∧ ws = (role.taken n).map .ident ++ ws' ∧
      List.Forall₂ (Tree.Arg.Spells src) rest ws' ∧ (o, b') = b.internSlot n := by
  unfold operand at h
  split at h
  · rename_i hskip
    cases h
    refine ⟨none, ws, Role.fits_none.2 ?_, by simp [Role.taken], has, rfl⟩
    rcases hskip with rfl | ⟨hopt, -⟩
    · rfl
    · simp [Role.required, hopt]
  · rename_i hskip
    have hused : role ≠ .unused := fun hr => hskip (.inl hr)
    cases has with
    | nil => exact absurd h report_ne_ok
    | cons ha has =>
      cases ha with
      | @ident s y hs =>
        simp only [temp_of_slice hs, bind_eq_ok_iff, Except.ok.injEq, exists_eq_left'] at h
        cases h
        refine ⟨some y, _, Role.fits_some hused, ?_, has, rfl⟩
        simp [Role.taken, Role.reads_of_used hused hdef]
      | int => exact absurd h report_ne_ok
      | string => exact absurd h report_ne_ok

theorem operand_complete (x : Tree.Instr) (op : Op) (slot : Nat) {role : Role} (later : List Role) (b : Block)
    {n : Option Text} {ws' : List Written.Arg}
    (has : List.Forall₂ (Tree.Arg.Spells src) as ((role.taken n).map .ident ++ ws'))
    (hdef : role.defines = false) (hfits : role.Fits n)
    (hopt : role.optional = true → ws'.length = needed op later) :
    ∃ rest, operand src x op slot role later b as = .ok ((b.internSlot n).1, (b.internSlot n).2, rest) ∧
      List.Forall₂ (Tree.Arg.Spells src) rest ws' := by
  have hlen := has.length_eq
  unfold operand
  cases n with
  | none =>
    have hskip : role = .unused ∨ (role.optional = true ∧ as.length ≤ needed op later) := by
      by_cases hused : role = .unused
      · exact .inl hused
      have hopt' : role.optional = true := by
        simpa [Role.required_of_used hused] using Role.fits_none.1 hfits
      simp [Role.taken, hopt hopt'] at hlen
      exact .inr ⟨hopt', Nat.le_of_eq hlen⟩
    rw [if_pos hskip]
    exact ⟨as, rfl, by simpa [Role.taken] using has⟩
  | some y =>
    have hused : role ≠ .unused := fun hr => by simpa using hfits.unused hr
    have hreads := Role.reads_of_used hused hdef
    simp only [Role.taken, hreads, if_true, Option.toList_some, List.map_cons, List.map_nil,
      List.singleton_append, List.length_cons] at has hlen
    have hskip : ¬ (role = .unused ∨ (role.optional = true ∧ as.length ≤ needed op later)) := by
      rintro (hr | ⟨hopt', hle⟩)
      · exact hused hr
      · have := hopt hopt'
        omega
    rw [if_neg hskip]
    cases has with
    | cons ha has =>
      cases ha with
      | ident hs =>
        simp only [temp_of_slice hs]
        exact ⟨_, rfl, has⟩

theorem destination_ok_iff (hx : x.Spells src w) (hused : op.roles.first ≠ .unused) :
    destination src x op b = .ok (o, b') ↔ op.roles.first.Fits w.dst ∧ (o, b') = b.internSlot w.dst := by
  obtain ⟨span, dst, spelling, args⟩ := x
  obtain ⟨dst', name, args'⟩ := w
  cases hx.dst with
  | none =>
    have hreq := Role.required_of_used hused
    by_cases hopt : op.roles.first.optional = true
    · simp [destination, hopt, Role.fits_none, hreq, Block.internSlot, eq_comm]
    · simp [destination, hopt, Role.fits_none, hreq, report_ne_ok]
  | @some d y hs =>
    simp only [destination, temp_of_slice hs, Role.fits_some hused, true_and]
    change Except.ok (some (b.intern y).1, (b.intern y).2) = Except.ok (o, b') ↔ _
    simp [Block.internSlot, eq_comm]

theorem dst_eq_none (hx : x.Spells src w) : x.dst = none ↔ w.dst = none := by
  obtain ⟨span, dst, spelling, args⟩ := x
  obtain ⟨dst', name, args'⟩ := w
  cases hx.dst <;> simp

theorem firstSlot_sound (hx : x.Spells src w) (h : firstSlot src x op b = .ok (o, b', rest)) :
    ∃ n ws', op.roles.first.Fits n ∧ w.dst = (if op.roles.first.defines then n else none) ∧
      w.args = (op.roles.first.taken n).map .ident ++ ws' ∧ List.Forall₂ (Tree.Arg.Spells src) rest ws' ∧
      (o, b') = b.internSlot n := by
  unfold firstSlot at h
  by_cases hdef : op.roles.first.defines = true
  · simp only [hdef, if_true, bind_eq_ok_iff, Prod.exists] at h
    obtain ⟨t, b₁, hdst, h⟩ := h
    cases h
    obtain ⟨hfits, hslot⟩ := (destination_ok_iff hx (Role.used_of_defines hdef)).1 hdst
    exact ⟨w.dst, w.args, hfits, by simp [hdef], by simp [Role.taken_of_defines hdef], hx.args, hslot⟩
  · simp only [hdef, if_false, Bool.false_eq_true] at h
    split at h
    · exact absurd h report_ne_ok
    · rename_i hd
      obtain ⟨n, ws', hfits, hargs, hrest, hslot⟩ := operand_sound hx.args (by simpa using hdef) h
      exact ⟨n, ws', hfits, by simp [(dst_eq_none hx).1 hd, hdef], hargs, hrest, hslot⟩

theorem firstSlot_complete (hx : x.Spells src w) {n : Option Text} {ws' : List Written.Arg}
    (hfits : op.roles.first.Fits n) (hdst : w.dst = if op.roles.first.defines then n else none)
    (hargs : w.args = (op.roles.first.taken n).map .ident ++ ws')
    (hlen : ws'.length = needed op [op.roles.second, op.roles.third]) :
    ∃ rest, firstSlot src x op b = .ok ((b.internSlot n).1, (b.internSlot n).2, rest) ∧
      List.Forall₂ (Tree.Arg.Spells src) rest ws' := by
  unfold firstSlot
  have has := hx.args
  rw [hargs] at has
  by_cases hdef : op.roles.first.defines = true
  · simp only [hdef, if_true] at hdst ⊢
    rw [Role.taken_of_defines hdef] at has
    subst hdst
    have hslot := (destination_ok_iff (b := b) hx (Role.used_of_defines hdef)).2 ⟨hfits, rfl⟩
    rw [hslot]
    exact ⟨x.args, rfl, by simpa using has⟩
  · simp only [hdef, if_false, Bool.false_eq_true] at hdst ⊢
    rw [(dst_eq_none hx).2 hdst]
    exact operand_complete x op 0 _ b has (by simpa using hdef) hfits fun _ => hlen

theorem extraValue_ok_iff {a : Tree.Arg} {v : Written.Arg} (ha : a.Spells src v) {imm : Int} {label : Text} :
    extraValue src op a = .ok (imm, label) ↔ Written.ExtraMeans op.extra [v] imm label := by
  cases ha with
  | ident hs =>
    cases hop : op.extra with
    | label =>
      simp [extraValue, hop, Written.ExtraMeans, textOf_of_slice hs, bind, Except.bind, pure, Except.pure,
        eq_comm]
    | nothing | immediate | string => simp [extraValue, hop, Written.ExtraMeans, report_ne_ok]
  | @int s x hs =>
    cases hop : op.extra with
    | immediate =>
      rcases hr : Numeral.read .prefixed x with e | n
      · simp [extraValue, hop, Written.ExtraMeans, textOf_of_slice hs, hr, bind, Except.bind, report_ne_ok]
      · simp [extraValue, hop, Written.ExtraMeans, textOf_of_slice hs, hr, bind, Except.bind, pure,
          Except.pure, eq_comm]
    | nothing | label | string => simp [extraValue, hop, Written.ExtraMeans, report_ne_ok]
  | @string s x hs =>
    cases hop : op.extra with
    | string =>
      rcases hr : unquoted? x with _ | y
      · simp [extraValue, hop, Written.ExtraMeans, textOf_of_slice hs, hr, bind, Except.bind, report_ne_ok]
      · simp [extraValue, hop, Written.ExtraMeans, textOf_of_slice hs, hr, bind, Except.bind, pure,
          Except.pure, eq_comm]
    | nothing | label | immediate => simp [extraValue, hop, Written.ExtraMeans, report_ne_ok]

theorem extra_sound (has : List.Forall₂ (Tree.Arg.Spells src) as ws) {imm : Int} {label : Text}
    (h : extra src x op as = .ok ((imm, label), rest)) :
    ∃ ex ws', ws = ex ++ ws' ∧ Written.ExtraMeans op.extra ex imm label ∧
      List.Forall₂ (Tree.Arg.Spells src) rest ws' := by
  unfold extra at h
  split at h
  · rename_i hno
    cases h
    exact ⟨[], ws, rfl, by simp [hno, Written.ExtraMeans], has⟩
  cases has with
  | nil => exact absurd h report_ne_ok
  | @cons a v as vs ha has =>
    simp only [bind_eq_ok_iff, Prod.exists] at h
    obtain ⟨imm', label', hvalue, h⟩ := h
    cases h
    exact ⟨[v], vs, rfl, (extraValue_ok_iff ha).1 hvalue, has⟩

theorem extra_complete {ex : List Written.Arg} (has : List.Forall₂ (Tree.Arg.Spells src) as ex)
    {imm : Int} {label : Text} (hex : Written.ExtraMeans op.extra ex imm label) :
    extra src x op as = .ok ((imm, label), []) := by
  have hlen := hex.length_eq
  unfold extra
  split at hlen
  · rename_i hno
    obtain rfl := List.length_eq_zero_iff.1 hlen
    cases has
    rw [if_pos hno]
    simp only [hno, Written.ExtraMeans] at hex
    rw [hex.1, hex.2]
  · rename_i hno
    obtain ⟨v, rfl⟩ := List.length_eq_one_iff.1 hlen
    cases has with
    | cons ha has =>
      cases has
      rw [if_neg hno]
      simp only [(extraValue_ok_iff ha).2 hex]
      rfl

theorem instrOf_sound (hx : x.Spells src w) (hop : Op.ofName? w.op = some op) {i : Instr}
    (h : instrOf src x op b = .ok (i, b')) :
    ∃ n, w.Means n ∧ i = n.onTemps (b.internSlots n.args).1 ∧ b' = (b.internSlots n.args).2 := by
  obtain ⟨hdef₁, hdef₂⟩ := Instr.defines_only_first op
  unfold instrOf at h
  simp only [bind_eq_ok_iff, Prod.exists] at h
  obtain ⟨t₀, b₀, as₀, h₀, t₁, b₁, as₁, h₁, t₂, b₂, as₂, h₂, imm, label, as₃, h₃, h⟩ := h
  obtain ⟨n₀, ws₀, hfits₀, hdst, hargs₀, hws₀, hslot₀⟩ := firstSlot_sound hx h₀
  obtain ⟨n₁, ws₁, hfits₁, rfl, hws₁, hslot₁⟩ := operand_sound hws₀ hdef₁ h₁
  obtain ⟨n₂, ws₂, hfits₂, rfl, hws₂, hslot₂⟩ := operand_sound hws₁ hdef₂ h₂
  obtain ⟨ex, ws₃, rfl, hex, hws₃⟩ := extra_sound hws₂ h₃
  cases hws₃ with
  | cons => exact absurd h report_ne_ok
  | nil =>
    cases h
    refine ⟨⟨op, ⟨n₀, n₁, n₂⟩, imm, label⟩, ⟨hop, ⟨hfits₀, hfits₁, hfits₂⟩, hdst, ex, ?_, hex⟩, ?_, ?_⟩
    · rw [hargs₀]
      simp [NamedInstr.sources]
    · simp only [NamedInstr.onTemps, Block.internSlots, ← hslot₀, ← hslot₁, ← hslot₂]
    · simp only [Block.internSlots, ← hslot₀, ← hslot₁, ← hslot₂]

/-- The arguments behind the first slot are as many as the op needs. -/
theorem length_later {n : NamedInstr} (hfits : n.Fits) {ex : List Written.Arg}
    (hex : Written.ExtraMeans n.op.extra ex n.imm n.label) :
    ((n.op.roles.second.taken n.args.second).map Written.Arg.ident ++
      ((n.op.roles.third.taken n.args.third).map Written.Arg.ident ++ ex)).length =
        needed n.op [n.op.roles.second, n.op.roles.third] := by
  obtain ⟨hdef₁, hdef₂⟩ := Instr.defines_only_first n.op
  obtain ⟨hopt₁, hopt₂⟩ := n.op.optional_only_first
  simp only [List.length_append, List.length_map, hfits.second.length_taken hopt₁ hdef₁,
    hfits.third.length_taken hopt₂ hdef₂, hex.length_eq, needed, List.countP_cons, List.countP_nil]
  omega

theorem instrOf_complete (hx : x.Spells src w) {n : NamedInstr} (hw : w.Means n) (b : Block) :
    instrOf src x n.op b = .ok (n.onTemps (b.internSlots n.args).1, (b.internSlots n.args).2) := by
  obtain ⟨-, hfits, hdst, ex, hargs, hex⟩ := hw
  obtain ⟨hdef₁, hdef₂⟩ := Instr.defines_only_first n.op
  obtain ⟨hopt₁, hopt₂⟩ := n.op.optional_only_first
  obtain ⟨as₀, h₀, hws₀⟩ := firstSlot_complete (b := b) hx hfits.first hdst
    (by rw [hargs]; simp [NamedInstr.sources]) (length_later hfits hex)
  obtain ⟨as₁, h₁, hws₁⟩ := operand_complete x n.op 1 [n.op.roles.third] (b.internSlot n.args.first).2
    hws₀ hdef₁ hfits.second (by simp [hopt₁])
  obtain ⟨as₂, h₂, hws₂⟩ := operand_complete x n.op 2 []
    ((b.internSlot n.args.first).2.internSlot n.args.second).2 hws₁ hdef₂ hfits.third (by simp [hopt₂])
  have h₃ := extra_complete (x := x) hws₂ hex
  unfold instrOf
  simp only [bind_eq_ok_iff, Prod.exists]
  exact ⟨_, _, _, h₀, _, _, _, h₁, _, _, _, h₂, _, _, _, h₃, rfl⟩

/-- **An instruction is lowered iff it means something**, and then to that with the temps
    of its names. -/
theorem instr_ok_iff (hx : x.Spells src w) {i : Instr} : instr src x b = .ok (i, b') ↔
    ∃ n, w.Means n ∧ i = n.onTemps (b.internSlots n.args).1 ∧ b' = (b.internSlots n.args).2 := by
  unfold instr
  simp only [textOf_of_slice hx.op, bind_eq_ok_iff, Except.ok.injEq, exists_eq_left']
  constructor
  · intro h
    split at h
    · exact instrOf_sound hx ‹_› h
    · exact absurd h report_ne_ok
  · rintro ⟨n, hw, rfl, rfl⟩
    rw [hw.op]
    exact instrOf_complete hx hw b

end Lowering

end Straightline
