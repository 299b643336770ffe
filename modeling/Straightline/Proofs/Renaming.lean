/-
  Temps renamed.

  * `Instr.Renamed`: one instruction with its temps, in its slots and in its live-out set,
    renamed as another one's;
  * `Renamed.occurs_iff`: what occurs in it then.
-/
import Mathlib.Logic.Basic
import Straightline.Instr

namespace Straightline

/-- A function applied in the slots that are filled. -/
def Slots.mapSome {α β : Type} (f : α → β) (s : Slots (Option α)) : Slots (Option β) :=
  ⟨s.first.map f, s.second.map f, s.third.map f⟩

namespace Instr

variable {ρ : Temp → Temp} {i i' : Instr} {t : Temp}

/-- The temp stands in a slot or is live after the instruction. -/
def Occurs (i : Instr) (t : Temp) : Prop :=
  some t ∈ i.args.toList ∨ i.liveOut.contains t = true

/-- The temps of `i'` are those of `i`, renamed. -/
structure Renamed (ρ : Temp → Temp) (i i' : Instr) : Prop where
  args : i'.args = i.args.mapSome ρ
  live : ∀ t, i'.liveOut.contains t = true ↔ ∃ u, i.liveOut.contains u = true ∧ ρ u = t

theorem mem_mapSome {α β : Type} {f : α → β} {s : Slots (Option α)} {y : β} :
    some y ∈ (s.mapSome f).toList ↔ ∃ x, some x ∈ s.toList ∧ f x = y := by
  obtain ⟨o₀, o₁, o₂⟩ := s
  simp only [Slots.mapSome, Slots.toList, List.mem_cons, List.not_mem_nil, or_false, eq_comm (a := some y),
    Option.map_eq_some_iff, or_and_right, exists_or, eq_comm (b := o₀), eq_comm (b := o₁), eq_comm (b := o₂)]

theorem Renamed.occurs_iff (h : Renamed ρ i i') : i'.Occurs t ↔ ∃ u, i.Occurs u ∧ ρ u = t := by
  simp only [Occurs, h.args, mem_mapSome, h.live, or_and_right, exists_or]

end Instr

end Straightline
