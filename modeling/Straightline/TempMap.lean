/-
  Finite maps from temps.

  A map is a list of entries in strictly ascending order of temps, so two maps
  with the same entries are equal.

  * `TempMap.get?` looks a temp up, `TempMap.insert` sets its entry.
-/
import Straightline.Instr

namespace Straightline

/-- A finite map from temps, kept in ascending order. -/
structure TempMap (α : Type) where
  entries : List (Temp × α)
  deriving DecidableEq

namespace TempMap

variable {α β : Type}

/-- The map without entries. -/
def empty : TempMap α := ⟨[]⟩

/-- The entry of a temp. -/
def get? (m : TempMap α) (t : Temp) : Option α :=
  m.entries.lookup t

/-- Entries with that of `t` set, in ascending order if they were so. -/
def insertEntry (t : Temp) (a : α) : List (Temp × α) → List (Temp × α)
  | [] => [(t, a)]
  | e :: es =>
    if t < e.1 then (t, a) :: e :: es
    else if t = e.1 then (t, a) :: es
    else e :: insertEntry t a es

/-- The map with the entry of `t` set. -/
def insert (m : TempMap α) (t : Temp) (a : α) : TempMap α :=
  ⟨insertEntry t a m.entries⟩

/-- The map of some entries; of several for one temp the last counts. -/
def ofList (es : List (Temp × α)) : TempMap α :=
  es.foldl (fun m e => m.insert e.1 e.2) empty

/-- The map with every value changed. -/
def map (f : α → β) (m : TempMap α) : TempMap β :=
  ⟨m.entries.map fun e => (e.1, f e.2)⟩

end TempMap

end Straightline
