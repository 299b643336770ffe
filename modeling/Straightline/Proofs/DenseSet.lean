/-
  Membership in dense sets.

  Every operation is described by what it does to membership, so that no proof
  about sets of temps looks at words again.

  * `mem_put`, `mem_drop`: setting and clearing one bit changes one key;
  * `mem_toList`, `pairwise_toList`: the keys are listed once each, ascending;
  * `firstUnset_spec`, `firstUnset_isSome`: the first key that is not set is the
    least number outside the set, and there is one below a limit if the set misses
    a number below it; `firstUnset_eq_iff`: so the answer is known from membership;
    `firstUnset_mono`, `firstUnset_congr`: a greater limit or other words for the same
    keys do not change it;
  * `insertAll_spec`, `contains_foldl_erase`: the integer-keyed operations.
-/
import Mathlib.Algebra.Group.Nat.Defs
import Mathlib.Data.List.Nodup
import Straightline.DenseSet

namespace Straightline

namespace DenseSet

/-! ## Words -/

theorem toNat_bit {j : Nat} (h : j < 64) : (bit j).toNat = 2 ^ j := by
  have hj : j < 2 ^ 64 := by omega
  have hp : 2 ^ j < 2 ^ 64 := Nat.pow_lt_pow_right (by decide) h
  simp only [bit, UInt64.toNat_shiftLeft, UInt64.toNat_ofNat', Nat.mod_eq_of_lt hj,
    Nat.mod_eq_of_lt h, Nat.shiftLeft_eq]
  simpa using Nat.mod_eq_of_lt hp

theorem testBit_zero (j : Nat) : testBit 0 j = false := by simp [testBit]

theorem testBit_or_bit (w : UInt64) {i j : Nat} (h : j < 64) :
    testBit (w ||| bit j) i = (decide (i = j) || testBit w i) := by
  simp only [testBit, UInt64.toNat_or, toNat_bit h, Nat.testBit_or, Nat.testBit_two_pow]
  rw [Bool.or_comm, decide_eq_decide.2 eq_comm]

theorem testBit_not (w : UInt64) {i : Nat} (h : i < 64) : testBit (~~~w) i = !testBit w i := by
  have hw : w.toNat < 2 ^ 64 := w.toNat_lt
  simp only [testBit, UInt64.toNat_not, UInt64.size]
  rw [show 18446744073709551616 - 1 - w.toNat = 2 ^ 64 - (w.toNat + 1) by omega,
    Nat.testBit_two_pow_sub_succ hw]
  simp [h]

theorem testBit_and_not_bit (w : UInt64) {i j : Nat} (hi : i < 64) (hj : j < 64) :
    testBit (w &&& ~~~bit j) i = (!decide (i = j) && testBit w i) := by
  have h : testBit (bit j) i = decide (i = j) := by
    simp only [testBit, toNat_bit hj, Nat.testBit_two_pow, decide_eq_decide.2 eq_comm]
  have hand : testBit (w &&& ~~~bit j) i = (testBit w i && testBit (~~~bit j) i) := by
    simp only [testBit, UInt64.toNat_and, Nat.testBit_and]
  rw [hand, testBit_not _ hi, h, Bool.and_comm]

theorem mem_bitsOf {w : UInt64} {j : Nat} : j ∈ bitsOf w ↔ j < 64 ∧ testBit w j = true := by
  simp [bitsOf]

theorem pairwise_bitsOf (w : UInt64) : (bitsOf w).Pairwise (· < ·) :=
  List.pairwise_lt_range.filter _

/-! ## Membership -/

theorem getD_grown (n : Nat) (ws : List UInt64) (i : Nat) : (grown n ws).getD i 0 = ws.getD i 0 := by
  simp only [grown, List.getD_eq_getElem?_getD, List.getElem?_append]
  split
  · rfl
  · rename_i h
    rw [List.getElem?_eq_none (l := ws) (by omega), List.getElem?_replicate]
    split <;> rfl

theorem length_grown (n : Nat) (ws : List UInt64) : n ≤ (grown n ws).length := by
  simp only [grown, List.length_append, List.length_replicate]; omega

theorem getD_modify (f : UInt64 → UInt64) (ws : List UInt64) {i : Nat} (hi : i < ws.length) (j : Nat) :
    (ws.modify i f).getD j 0 = if j = i then f (ws.getD j 0) else ws.getD j 0 := by
  simp only [List.getD_eq_getElem?_getD, List.getElem?_modify]
  by_cases h : j = i
  · subst h; simp [List.getElem?_eq_getElem hi]
  · simp [h, Ne.symm h]

/-- A key is its word index and its bit index. -/
theorem key_eq_iff {j k : Nat} : j = k ↔ j / 64 = k / 64 ∧ j % 64 = k % 64 := by
  constructor
  · rintro rfl; exact ⟨rfl, rfl⟩
  · rintro ⟨h₁, h₂⟩
    rw [← Nat.div_add_mod j 64, ← Nat.div_add_mod k 64, h₁, h₂]

theorem not_mem_empty (k : Nat) : k ∉ (∅ : DenseSet) := by
  change ¬ has empty k = true
  simp [has, words, empty, testBit_zero]

theorem mem_put {s : DenseSet} {j k : Nat} : j ∈ s.put k ↔ j = k ∨ j ∈ s := by
  change has (s.put k) j = true ↔ j = k ∨ has s j = true
  have hlen := length_grown (k / 64 + 1) s.words
  simp only [has, put, words, Option.getD_some]
  rw [getD_modify _ _ (by exact hlen), getD_grown]
  by_cases hd : j / 64 = k / 64
  · rw [if_pos hd, testBit_or_bit _ (Nat.mod_lt k (by decide))]
    simp [key_eq_iff (j := j), hd]
  · rw [if_neg hd]
    simp [key_eq_iff (j := j), hd]

theorem mem_drop {s : DenseSet} {j k : Nat} : j ∈ s.drop k ↔ j ≠ k ∧ j ∈ s := by
  change has (s.drop k) j = true ↔ j ≠ k ∧ has s j = true
  rcases s with ⟨_ | ws⟩
  · simp [has, drop, words, testBit_zero]
  simp only [has, drop, words, Option.map_some, Option.getD_some, ne_eq, key_eq_iff (j := j)]
  by_cases hk : k / 64 < ws.length
  · rw [getD_modify _ _ hk]
    by_cases hd : j / 64 = k / 64
    · rw [if_pos hd, testBit_and_not_bit _ (Nat.mod_lt j (by decide)) (Nat.mod_lt k (by decide))]
      simp [hd]
    · rw [if_neg hd]; simp [hd]
  · rw [List.modify_eq_self (by omega)]
    by_cases hd : j / 64 = k / 64
    · have hnone : ws.getD (j / 64) 0 = 0 := by
        rw [List.getD_eq_getElem?_getD, List.getElem?_eq_none (by omega)]; rfl
      rw [hnone, testBit_zero]; simp
    · simp [hd]

theorem mem_foldl_put {ks : List Nat} {s : DenseSet} {j : Nat} :
    j ∈ ks.foldl put s ↔ j ∈ ks ∨ j ∈ s := by
  induction ks generalizing s with
  | nil => simp
  | cons k ks ih => rw [List.foldl_cons, ih, mem_put, List.mem_cons]; tauto

/-! ## Listing the keys -/

/-- Is `k` a key of words of which the first has index `i`? -/
def hasFrom (i : Nat) (ws : List UInt64) (k : Nat) : Bool :=
  testBit (ws.getD (k / 64 - i) 0) (k % 64)

theorem hasFrom_zero (s : DenseSet) : hasFrom 0 s.words = s.has := rfl

theorem hasFrom_nil (i k : Nat) : hasFrom i [] k = false := by simp [hasFrom, testBit_zero]

theorem hasFrom_first {i k : Nat} (w : UInt64) (ws : List UInt64) (h₁ : i * 64 ≤ k)
    (h₂ : k < (i + 1) * 64) : hasFrom i (w :: ws) k = testBit w (k - i * 64) := by
  rw [hasFrom, show k / 64 - i = 0 by omega, show k % 64 = k - i * 64 by omega]; rfl

theorem hasFrom_rest {i k : Nat} (w : UInt64) (ws : List UInt64) (h : (i + 1) * 64 ≤ k) :
    hasFrom i (w :: ws) k = hasFrom (i + 1) ws k := by
  rw [hasFrom, show k / 64 - i = (k / 64 - (i + 1)) + 1 by omega]; rfl

theorem mem_keysFrom {ws : List UInt64} {i k : Nat} :
    k ∈ keysFrom i ws ↔ i * 64 ≤ k ∧ hasFrom i ws k = true := by
  induction ws generalizing i with
  | nil => simp [keysFrom, hasFrom_nil]
  | cons w ws ih =>
    simp only [keysFrom, List.mem_append, List.mem_map, mem_bitsOf, ih]
    constructor
    · rintro (⟨j, ⟨hj, hw⟩, rfl⟩ | ⟨hi, hw⟩)
      · rw [hasFrom_first w ws (by omega) (by omega), Nat.add_sub_cancel_left]
        exact ⟨by omega, hw⟩
      · rw [hasFrom_rest w ws hi]
        exact ⟨by omega, hw⟩
    · rintro ⟨hi, hw⟩
      by_cases h : k < (i + 1) * 64
      · rw [hasFrom_first w ws hi h] at hw
        exact Or.inl ⟨k - i * 64, ⟨by omega, hw⟩, by omega⟩
      · rw [hasFrom_rest w ws (by omega)] at hw
        exact Or.inr ⟨by omega, hw⟩

theorem pairwise_keysFrom (i : Nat) (ws : List UInt64) : (keysFrom i ws).Pairwise (· < ·) := by
  induction ws generalizing i with
  | nil => exact .nil
  | cons w ws ih =>
    rw [keysFrom, List.pairwise_append]
    refine ⟨?_, ih (i + 1), ?_⟩
    · exact (pairwise_bitsOf w).map _ fun _ _ h => Nat.add_lt_add_left h _
    · rintro a ha b hb
      obtain ⟨j, hj, rfl⟩ := List.mem_map.1 ha
      have := (mem_bitsOf.1 hj).1
      have := (mem_keysFrom.1 hb).1
      omega

theorem mem_toList {s : DenseSet} {k : Nat} : k ∈ s.toList ↔ k ∈ s := by
  rw [toList, mem_keysFrom, hasFrom_zero]
  simp only [Nat.zero_mul, Nat.zero_le, true_and]
  rfl

theorem pairwise_toList (s : DenseSet) : s.toList.Pairwise (· < ·) :=
  pairwise_keysFrom 0 s.words

/-! ## The least number outside a set -/

/-- What a search through the numbers from `lo` up to `limit` finds if it looks
    for the first that is not in `p`. -/
def FirstWithout (p : Nat → Bool) (lo : Nat) (limit : Int) : Option Nat → Prop
  | some k => lo ≤ k ∧ (k : Int) < limit ∧ p k = false ∧ ∀ j, lo ≤ j → j < k → p j = true
  | none => ∀ j : Nat, lo ≤ j → (j : Int) < limit → p j = true

/-- A search may skip numbers that are in `p`. -/
theorem FirstWithout.skip {p q : Nat → Bool} {lo mid : Nat} {limit : Int} {r : Option Nat}
    (h : FirstWithout q mid limit r) (hlo : lo ≤ mid) (hp : ∀ j, lo ≤ j → j < mid → p j = true)
    (hq : ∀ j, mid ≤ j → p j = q j) : FirstWithout p lo limit r := by
  cases r with
  | none =>
    intro j h₁ h₂
    by_cases hj : j < mid
    · exact hp j h₁ hj
    · rw [hq j (by omega)]; exact h j (by omega) h₂
  | some k =>
    obtain ⟨h₁, h₂, h₃, h₄⟩ := h
    refine ⟨by omega, h₂, by rw [hq k h₁]; exact h₃, fun j h₅ h₆ => ?_⟩
    by_cases hj : j < mid
    · exact hp j h₅ hj
    · rw [hq j (by omega)]; exact h₄ j (by omega) h₆

theorem lowestUnset_spec (w : UInt64) : FirstWithout (testBit w) 0 64 (lowestUnset? w) := by
  rcases h : lowestUnset? w with _ | j
  · intro i _ hi
    simpa using List.find?_range_eq_none.1 h i (by omega)
  · obtain ⟨hj, hmem, hlow⟩ := List.find?_range_eq_some.1 h
    have hlt := List.mem_range.1 hmem
    exact ⟨Nat.zero_le j, by omega, by simpa using hj, fun i _ hi => by simpa using hlow i hi⟩

theorem firstUnsetFrom_spec (limit : Int) (i : Nat) (ws : List UInt64) :
    FirstWithout (hasFrom i ws) (i * 64) limit (firstUnsetFrom limit i ws) := by
  induction ws generalizing i with
  | nil =>
    rw [firstUnsetFrom]
    split
    · rename_i h
      exact ⟨Nat.le_refl _, h, hasFrom_nil i _, fun j h₁ h₂ => by omega⟩
    · intro j h₁ h₂; omega
  | cons w ws ih =>
    rw [firstUnsetFrom]
    split
    swap
    · intro j h₁ h₂; omega
    have hw := lowestUnset_spec w
    rcases hj : lowestUnset? w with _ | j
    · rw [hj] at hw
      -- all keys of the first word are set
      refine (ih (i + 1)).skip (by omega) (fun j h₁ h₂ => ?_) fun j h => hasFrom_rest w ws h
      rw [hasFrom_first w ws h₁ h₂]; exact hw _ (Nat.zero_le _) (by omega)
    · rw [hj] at hw
      obtain ⟨-, hlt, hbit, hlow⟩ := hw
      have hbelow : ∀ k, i * 64 ≤ k → k < i * 64 + j → hasFrom i (w :: ws) k = true := by
        intro k h₁ h₂
        rw [hasFrom_first w ws h₁ (by omega)]; exact hlow _ (Nat.zero_le _) (by omega)
      dsimp only
      split
      · rename_i h
        refine ⟨by omega, h, ?_, hbelow⟩
        rw [hasFrom_first w ws (by omega) (by omega), Nat.add_sub_cancel_left]; exact hbit
      · intro k h₁ h₂
        exact hbelow k h₁ (by omega)

/-- **The first unset key** is the least number outside the set. -/
theorem firstUnset_spec (s : DenseSet) (limit : Int) :
    FirstWithout s.has 0 limit (s.firstUnset limit) := by
  have h := firstUnsetFrom_spec limit 0 s.words
  rwa [hasFrom_zero, Nat.zero_mul] at h

/-- A set that misses one of the numbers below the limit leaves one free. -/
theorem firstUnset_isSome {s : DenseSet} {limit : Int} {k : Nat} (hk : (k : Int) < limit) (hs : k ∉ s) :
    ∃ c, s.firstUnset limit = some c ∧ (c : Int) < limit ∧ c ∉ s := by
  have h := firstUnset_spec s limit
  rcases hr : s.firstUnset limit with _ | c
  · rw [hr] at h
    exact absurd (h k (Nat.zero_le k) hk) hs
  · rw [hr] at h
    obtain ⟨-, hc, hn, -⟩ := h
    exact ⟨c, rfl, hc, by change ¬ s.has c = true; simp [hn]⟩

/-- A search has one answer. -/
theorem FirstWithout.unique {p : Nat → Bool} {lo : Nat} {limit : Int} {r r' : Option Nat}
    (h : FirstWithout p lo limit r) (h' : FirstWithout p lo limit r') : r = r' := by
  cases r with
  | none =>
    cases r' with
    | none => rfl
    | some k =>
      have := h k h'.1 h'.2.1
      rw [h'.2.2.1] at this; cases this
  | some j =>
    cases r' with
    | none =>
      have := h' j h.1 h.2.1
      rw [h.2.2.1] at this; cases this
    | some k =>
      -- the greater of the two would have been passed over
      rcases Nat.lt_trichotomy j k with hlt | rfl | hlt
      · have := h'.2.2.2 j h.1 hlt
        rw [h.2.2.1] at this; cases this
      · rfl
      · have := h.2.2.2 k h'.1 hlt
        rw [h'.2.2.1] at this; cases this

/-- The first unset key is what the search through membership finds. -/
theorem firstUnset_eq_iff {s : DenseSet} {limit : Int} {r : Option Nat} :
    s.firstUnset limit = r ↔ FirstWithout s.has 0 limit r := by
  constructor
  · rintro rfl; exact firstUnset_spec s limit
  · exact (firstUnset_spec s limit).unique

/-- What is found below a limit is found below a greater one. -/
theorem firstUnset_mono {s : DenseSet} {limit limit' : Int} {c : Nat} (hle : limit ≤ limit')
    (h : s.firstUnset limit = some c) : s.firstUnset limit' = some c := by
  obtain ⟨h₁, hlt, h₂, h₃⟩ := firstUnset_eq_iff.1 h
  exact firstUnset_eq_iff.2 ⟨h₁, Int.lt_of_lt_of_le hlt hle, h₂, h₃⟩

/-- The first unset key depends on membership only. -/
theorem firstUnset_congr {s s' : DenseSet} (h : ∀ k, k ∈ s ↔ k ∈ s') (limit : Int) :
    s.firstUnset limit = s'.firstUnset limit := by
  have hhas : s'.has = s.has := by
    funext k
    exact Bool.eq_iff_iff.2 (h k).symm
  rw [firstUnset_eq_iff, ← hhas]
  exact firstUnset_spec s' limit

/-! ## Integer keys -/

theorem contains_iff {s : DenseSet} {t : Int} : s.contains t = true ↔ ∃ k : Nat, t = k ∧ k ∈ s := by
  cases t with
  | ofNat k =>
    refine ⟨fun h => ⟨k, rfl, h⟩, ?_⟩
    rintro ⟨j, hj, h⟩
    obtain rfl : k = j := Int.ofNat.inj hj
    exact h
  | negSucc k =>
    refine ⟨fun h => (Bool.false_ne_true h).elim, ?_⟩
    rintro ⟨j, hj, -⟩
    exact absurd hj (by omega)

theorem not_contains_empty (t : Int) : ¬ (∅ : DenseSet).contains t = true := by
  rw [contains_iff]
  rintro ⟨k, -, h⟩
  exact not_mem_empty k h

theorem nonneg_of_contains {s : DenseSet} {t : Int} (h : s.contains t = true) : 0 ≤ t := by
  obtain ⟨k, rfl, -⟩ := contains_iff.1 h; omega

theorem contains_put {s : DenseSet} {t : Int} {k : Nat} :
    (s.put k).contains t = true ↔ t = k ∨ s.contains t = true := by
  simp only [contains_iff, mem_put]
  constructor
  · rintro ⟨j, rfl, rfl | h⟩
    · exact Or.inl rfl
    · exact Or.inr ⟨j, rfl, h⟩
  · rintro (rfl | ⟨j, rfl, h⟩)
    · exact ⟨k, rfl, Or.inl rfl⟩
    · exact ⟨j, rfl, Or.inr h⟩

theorem contains_erase {s : DenseSet} {t u : Int} :
    (s.erase u).contains t = true ↔ t ≠ u ∧ s.contains t = true := by
  cases u with
  | ofNat k =>
    change (s.drop k).contains t = true ↔ t ≠ (k : Int) ∧ s.contains t = true
    simp only [contains_iff, mem_drop]
    constructor
    · rintro ⟨j, rfl, hne, h⟩
      exact ⟨fun e => hne (by omega), j, rfl, h⟩
    · rintro ⟨hne, j, rfl, h⟩
      exact ⟨j, rfl, fun e => hne (by omega), h⟩
  | negSucc k =>
    change s.contains t = true ↔ t ≠ Int.negSucc k ∧ s.contains t = true
    refine ⟨fun h => ⟨?_, h⟩, And.right⟩
    have := nonneg_of_contains h
    rintro rfl; omega

theorem contains_foldl_erase {ks : List Int} {s : DenseSet} {t : Int} :
    (ks.foldl erase s).contains t = true ↔ t ∉ ks ∧ s.contains t = true := by
  induction ks generalizing s with
  | nil => simp
  | cons k ks ih => rw [List.foldl_cons, ih, contains_erase, List.mem_cons]; tauto

/-- Keys that are not negative are all inserted. -/
theorem insertAll_spec {ks : List Int} (s : DenseSet) (h : ∀ k ∈ ks, 0 ≤ k) :
    ∃ s', s.insertAll ks = (s', .ok ()) ∧
      ∀ t, s'.contains t = true ↔ t ∈ ks ∨ s.contains t = true := by
  induction ks generalizing s with
  | nil => exact ⟨s, rfl, by simp⟩
  | cons k ks ih =>
    obtain ⟨n, rfl⟩ := Int.eq_ofNat_of_zero_le (h k (by simp))
    obtain ⟨s', hs', hmem⟩ := ih (s.put n) fun j hj => h j (by simp [hj])
    refine ⟨s', hs', fun t => ?_⟩
    rw [hmem, contains_put, List.mem_cons]; tauto

theorem mem_keys {s : DenseSet} {t : Int} : t ∈ s.keys ↔ s.contains t = true := by
  rw [keys, List.mem_map, contains_iff]
  constructor
  · rintro ⟨k, hk, rfl⟩; exact ⟨k, rfl, mem_toList.1 hk⟩
  · rintro ⟨k, rfl, hk⟩; exact ⟨k, mem_toList.2 hk, rfl⟩

theorem pairwise_keys (s : DenseSet) : s.keys.Pairwise (· < ·) :=
  (pairwise_toList s).map _ fun _ _ h => Int.ofNat_lt.2 h

theorem nodup_keys (s : DenseSet) : s.keys.Nodup :=
  (pairwise_keys s).imp fun h => Int.ne_of_lt h

end DenseSet

end Straightline
