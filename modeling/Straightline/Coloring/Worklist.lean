/-
  The worklist of simplification: a priority queue.

  Candidates are taken by degree and then by rank.  Entries are never changed in place:
  when a degree changes, a new entry is pushed and the old one goes stale.

  * `Queue` is a kind of priority queue, with what is assumed of it: pushing and popping
    neither lose nor invent entries, and a least entry is popped.
-/
import Straightline.Instr

namespace Straightline

/-- A node with its degree at the time of pushing and its rank. -/
structure Candidate where
  temp : Temp
  degree : Nat
  rank : Nat
  deriving DecidableEq

/-- Is the first candidate to be taken before the second? -/
def Candidate.before (c d : Candidate) : Bool :=
  c.degree < d.degree || (c.degree == d.degree && c.rank < d.rank)

/-- Being taken no earlier is transitive. -/
theorem Candidate.not_before_trans {c d e : Candidate} (h₁ : d.before c = false)
    (h₂ : e.before d = false) : e.before c = false := by
  simp only [before, Bool.or_eq_false_iff, Bool.and_eq_false_imp, decide_eq_false_iff_not,
    beq_iff_eq] at *
  omega

theorem Candidate.not_before_of_before {c d : Candidate} (h : c.before d = true) :
    d.before c = false := by
  simp only [before, Bool.or_eq_false_iff, Bool.and_eq_false_imp, decide_eq_false_iff_not,
    beq_iff_eq, Bool.or_eq_true, Bool.and_eq_true, decide_eq_true_eq] at *
  omega

theorem Candidate.degree_le_of_not_before {c d : Candidate} (h : d.before c = false) :
    c.degree ≤ d.degree := by
  simp only [before, Bool.or_eq_false_iff, decide_eq_false_iff_not] at h
  omega

theorem Candidate.rank_le_of_not_before {c d : Candidate} (h : d.before c = false)
    (hd : c.degree = d.degree) : c.rank ≤ d.rank := by
  simp only [before, Bool.or_eq_false_iff, Bool.and_eq_false_imp, decide_eq_false_iff_not,
    beq_iff_eq] at h
  omega

/-- A kind of priority queue, and what is assumed of it: its entries are those that were
    pushed and not yet popped, and none of them is to be taken before one that is popped. -/
structure Queue where
  Carrier : Type
  empty : Carrier
  push : Carrier → Candidate → Carrier
  /-- an entry, and the queue without it -/
  pop? : Carrier → Option (Candidate × Carrier)
  /-- the entries of a queue, in some order -/
  entries : Carrier → List Candidate
  entries_empty : entries empty = []
  perm_push : ∀ q c, (entries (push q c)).Perm (c :: entries q)
  perm_pop : ∀ {q c q'}, pop? q = some (c, q') → (entries q).Perm (c :: entries q')
  pop_least : ∀ {q c q'}, pop? q = some (c, q') → ∀ d ∈ entries q, d.before c = false
  entries_of_pop_none : ∀ {q}, pop? q = none → entries q = []

namespace Queue

variable {queue : Queue} {q q' : queue.Carrier} {c d : Candidate}

theorem mem_push : d ∈ queue.entries (queue.push q c) ↔ d = c ∨ d ∈ queue.entries q := by
  rw [(queue.perm_push q c).mem_iff, List.mem_cons]

theorem mem_of_pop (h : queue.pop? q = some (c, q')) : d ∈ queue.entries q ↔ d = c ∨ d ∈ queue.entries q' := by
  rw [(queue.perm_pop h).mem_iff, List.mem_cons]

theorem length_pop (h : queue.pop? q = some (c, q')) :
    (queue.entries q').length < (queue.entries q).length := by
  rw [(queue.perm_pop h).length_eq, List.length_cons]
  exact Nat.lt_succ_self _

end Queue

end Straightline
