/-
  Skew heaps.

  The root of a heap is the least of its entries.  Pushing and popping are each one
  merge, which takes the lesser root and swaps the two sides below it.

  * `SkewHeap.Ordered`: no entry is to be taken before one above it, which merging
    preserves (`Ordered.merge`);
  * `Queue.skewHeap`: the ordered heaps are a queue.
-/
import Straightline.Coloring.Worklist

namespace Straightline

/-- A heap of candidates. -/
inductive SkewHeap where
  | empty
  /-- a least candidate over two heaps -/
  | node (left : SkewHeap) (least : Candidate) (right : SkewHeap)

namespace SkewHeap

/-- The number of entries. -/
def length : SkewHeap → Nat
  | empty => 0
  | node l _ r => l.length + 1 + r.length

/-- Two heaps as one: the lesser root becomes the root, and what is left of its
    right side is merged to the left. -/
def merge (p q : SkewHeap) : SkewHeap :=
  match p, q with
  | empty, q => q
  | p, empty => p
  | node l₁ c₁ r₁, node l₂ c₂ r₂ =>
    if c₂.before c₁ then node (merge (node l₁ c₁ r₁) r₂) c₂ l₂
    else node (merge r₁ (node l₂ c₂ r₂)) c₁ l₁
termination_by p.length + q.length
decreasing_by all_goals simp only [length]; omega

/-- The entries of a heap, the least first. -/
def entries : SkewHeap → List Candidate
  | empty => []
  | node l c r => c :: (l.entries ++ r.entries)

/-- No entry is to be taken before one above it. -/
def Ordered : SkewHeap → Prop
  | empty => True
  | node l c r => (∀ d ∈ l.entries ++ r.entries, d.before c = false) ∧ l.Ordered ∧ r.Ordered

theorem perm_merge (p q : SkewHeap) : (merge p q).entries.Perm (p.entries ++ q.entries) := by
  fun_induction merge p q with
  | case1 q => exact .refl _
  | case2 p _ => simp [entries]
  | case3 l₁ c₁ r₁ l₂ c₂ r₂ _ ih =>
    -- the root of the second heap comes to the front, and its two sides change places
    simp only [entries] at ih ⊢
    refine List.Perm.trans ?_ List.perm_middle.symm
    refine List.Perm.cons _ ((ih.append_right _).trans ?_)
    rw [List.append_assoc]
    exact List.perm_append_comm.append_left _
  | case4 l₁ c₁ r₁ l₂ c₂ r₂ _ ih =>
    simp only [entries] at ih ⊢
    rw [List.cons_append, List.append_assoc]
    exact List.Perm.cons _ ((ih.append_right _).trans List.perm_append_comm)

theorem mem_merge {p q : SkewHeap} {c : Candidate} :
    c ∈ (merge p q).entries ↔ c ∈ p.entries ∨ c ∈ q.entries := by
  rw [(perm_merge p q).mem_iff, List.mem_append]

/-- The root of an ordered heap is least. -/
theorem Ordered.root_least {l r : SkewHeap} {c d : Candidate} (h : (node l c r).Ordered)
    (hd : d ∈ (node l c r).entries) : d.before c = false := by
  rcases List.mem_cons.1 hd with rfl | hd
  · simp [Candidate.before]
  · exact h.1 d hd

theorem Ordered.merge {p q : SkewHeap} (hp : p.Ordered) (hq : q.Ordered) :
    (SkewHeap.merge p q).Ordered := by
  fun_induction SkewHeap.merge p q with
  | case1 q => exact hq
  | case2 p _ => exact hp
  | case3 l₁ c₁ r₁ l₂ c₂ r₂ h ih =>
    refine ⟨fun d hd => ?_, ih hp hq.2.2, hq.2.1⟩
    rw [List.mem_append, mem_merge] at hd
    rcases hd with (hd | hd) | hd
    -- an entry of the other heap is not before its root, which is not before the new one
    · exact Candidate.not_before_trans (Candidate.not_before_of_before h) (hp.root_least hd)
    · exact hq.1 d (List.mem_append_right _ hd)
    · exact hq.1 d (List.mem_append_left _ hd)
  | case4 l₁ c₁ r₁ l₂ c₂ r₂ h ih =>
    refine ⟨fun d hd => ?_, ih hp.2.2 hq, hp.2.1⟩
    rw [List.mem_append, mem_merge] at hd
    rcases hd with (hd | hd) | hd
    · exact hp.1 d (List.mem_append_right _ hd)
    · exact Candidate.not_before_trans (by simpa using h) (hq.root_least hd)
    · exact hp.1 d (List.mem_append_left _ hd)

end SkewHeap

/-! ## Ordered heaps -/

/-- A heap in which no entry is to be taken before one above it. -/
abbrev OrderedHeap := { q : SkewHeap // q.Ordered }

namespace OrderedHeap

variable {q q' : OrderedHeap} {c d : Candidate}

/-- A heap with one more entry. -/
def push (q : OrderedHeap) (c : Candidate) : OrderedHeap :=
  ⟨q.1.merge (.node .empty c .empty), q.2.merge ⟨by simp [SkewHeap.entries], trivial, trivial⟩⟩

/-- The root, and the two sides below it as one heap. -/
def pop? : OrderedHeap → Option (Candidate × OrderedHeap)
  | ⟨.empty, _⟩ => none
  | ⟨.node l c r, h⟩ => some (c, ⟨l.merge r, h.2.1.merge h.2.2⟩)

theorem perm_push (q : OrderedHeap) (c : Candidate) : (q.push c).1.entries.Perm (c :: q.1.entries) :=
  (SkewHeap.perm_merge ..).trans List.perm_append_comm

theorem of_pop (h : q.pop? = some (c, q')) : ∃ l r, q.1 = .node l c r ∧ q'.1 = l.merge r := by
  obtain ⟨_ | ⟨l, d, r⟩, hq⟩ := q
  · cases h
  · cases h
    exact ⟨l, r, rfl, rfl⟩

theorem perm_pop (h : q.pop? = some (c, q')) : q.1.entries.Perm (c :: q'.1.entries) := by
  obtain ⟨l, r, hq, hq'⟩ := of_pop h
  rw [hq, hq']
  exact ((SkewHeap.perm_merge l r).cons _).symm

/-- **A least entry is popped.** -/
theorem pop_least (h : q.pop? = some (c, q')) (hd : d ∈ q.1.entries) : d.before c = false := by
  obtain ⟨l, r, hq, -⟩ := of_pop h
  have hord := q.2
  rw [hq] at hord hd
  exact hord.root_least hd

theorem entries_of_pop_none (h : q.pop? = none) : q.1.entries = [] := by
  obtain ⟨_ | ⟨l, d, r⟩, hq⟩ := q
  · rfl
  · cases h

end OrderedHeap

/-- Ordered skew heaps as a queue. -/
def Queue.skewHeap : Queue where
  Carrier := OrderedHeap
  empty := ⟨.empty, trivial⟩
  push := OrderedHeap.push
  pop? := OrderedHeap.pop?
  entries q := q.1.entries
  entries_empty := rfl
  perm_push := OrderedHeap.perm_push
  perm_pop := OrderedHeap.perm_pop
  pop_least h _ := OrderedHeap.pop_least h
  entries_of_pop_none := OrderedHeap.entries_of_pop_none

end Straightline
