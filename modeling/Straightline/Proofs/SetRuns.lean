/-
  Dense sets as finite sets of integers.

  Several sets are kept under names and changed by calls, one after the other.  However
  many words each of them has, the calls make of them what they would make of finite sets.

  * `mem_union`, `mem_inter`, `mem_diff`, `mem_strip`, `not_mem_reset`: the operations that
    work word by word, by what they do to membership;
  * `represents_of_contains`: a dense set with the keys of a finite set lists and counts
    them, and is compared, as that set would be;
  * `firstUnset_eq_some_iff`, `firstUnset_eq_none_iff`: the first unset key is the least
    integer from zero up to the limit that is no key;
  * `refines_call`, `refines_after`: one call and a whole run keep the keys equal;
  * `represents_after`, `firstUnset_after`: so all this holds of every set that calls can make.
-/
import Mathlib
import Straightline.Proofs.DenseSet

namespace Straightline

namespace DenseSet

/-! ## Words -/

section
variable {i j : Nat} {xs ys ws : List UInt64} {w v : UInt64}

theorem testBit_or : testBit (w ||| v) j = (testBit w j || testBit v j) := by
  simp only [testBit, UInt64.toNat_or, Nat.testBit_or]

theorem testBit_and : testBit (w &&& v) j = (testBit w j && testBit v j) := by
  simp only [testBit, UInt64.toNat_and, Nat.testBit_and]

/-- Words with the same bits are equal. -/
theorem eq_of_testBit (h : ∀ j < 64, testBit w j = testBit v j) : w = v := by
  apply UInt64.toNat.inj
  apply Nat.eq_of_testBit_eq
  intro j
  by_cases hj : j < 64
  · exact h j hj
  · have hpow : 2 ^ 64 ≤ 2 ^ j := Nat.pow_le_pow_right (by norm_num) (by omega)
    rw [Nat.testBit_lt_two_pow (w.toNat_lt.trans_le hpow), Nat.testBit_lt_two_pow (v.toNat_lt.trans_le hpow)]

theorem getD_orWords : (orWords xs ys).getD i 0 = xs.getD i 0 ||| ys.getD i 0 := by
  induction xs generalizing ys i with
  | nil => simp [orWords]
  | cons x xs ih =>
    cases ys with
    | nil => simp [orWords]
    | cons y ys =>
      cases i with
      | zero => rfl
      | succ i => exact ih

theorem getD_andWords : (andWords xs ys).getD i 0 = xs.getD i 0 &&& ys.getD i 0 := by
  induction xs generalizing ys i with
  | nil => simp [andWords]
  | cons x xs ih =>
    cases ys with
    | nil =>
      cases i with
      | zero => simp [andWords]
      | succ i => exact ih
    | cons y ys =>
      cases i with
      | zero => rfl
      | succ i => exact ih

theorem getD_diffWords : (diffWords xs ys).getD i 0 = xs.getD i 0 &&& ~~~ys.getD i 0 := by
  induction xs generalizing ys i with
  | nil => simp [diffWords]
  | cons x xs ih =>
    cases ys with
    | nil => simp [diffWords]
    | cons y ys =>
      cases i with
      | zero => rfl
      | succ i => exact ih

theorem getD_stripWords : (stripWords ws).getD i 0 = ws.getD i 0 := by
  induction ws generalizing i with
  | nil => rfl
  | cons w ws ih =>
    rw [stripWords]
    cases hrest : stripWords ws with
    | nil =>
      rw [hrest] at ih
      cases i with
      | zero =>
        by_cases hw : w = 0
        · simp [hw]
        · simp [hw]
      | succ i =>
        rw [List.getD_cons_succ, ← ih]
        by_cases hw : w = 0
        · simp [hw]
        · simp [hw]
    | cons v vs =>
      rw [hrest] at ih
      cases i with
      | zero => rfl
      | succ i => exact ih

theorem all_zero_iff : ws.all (· == 0) = true ↔ ∀ i, ws.getD i 0 = 0 := by
  induction ws with
  | nil => simp
  | cons w ws ih =>
    rw [List.all_cons, Bool.and_eq_true, beq_iff_eq, ih]
    exact Nat.and_forall_add_one (p := fun i => (w :: ws).getD i 0 = 0)

/-- Word lists are the same up to zeros if they have the same words. -/
theorem sameWords_iff : sameWords xs ys = true ↔ ∀ i, xs.getD i 0 = ys.getD i 0 := by
  induction xs generalizing ys with
  | nil =>
    rw [sameWords, all_zero_iff]
    simp [eq_comm]
  | cons x xs ih =>
    cases ys with
    | nil =>
      show (x :: xs).all (· == 0) = true ↔ _
      rw [all_zero_iff]
      simp
    | cons y ys =>
      rw [sameWords, Bool.and_eq_true, beq_iff_eq, ih]
      exact Nat.and_forall_add_one (p := fun i => (x :: xs).getD i 0 = (y :: ys).getD i 0)

end

/-! ## Membership -/

section
variable {s x : DenseSet} {k : Nat}

theorem mem_iff : k ∈ s ↔ testBit (s.words.getD (k / 64) 0) (k % 64) = true := Iff.rfl

theorem mem_union : k ∈ s.union x ↔ k ∈ s ∨ k ∈ x := by
  by_cases hx : x.words = []
  · have hno : k ∉ x := by simp [mem_iff, hx, testBit_zero]
    rw [union, hx, List.isEmpty_nil, if_pos rfl, or_iff_left hno]
  · rw [union, if_neg (by simpa using hx)]
    show testBit ((orWords s.words x.words).getD (k / 64) 0) (k % 64) = true ↔ _
    rw [getD_orWords, testBit_or, Bool.or_eq_true, mem_iff, mem_iff]

theorem words_map (f : List UInt64 → List UInt64) (hf : f [] = []) :
    words ⟨s.storage.map f⟩ = f s.words := by
  cases hs : s.storage with
  | none => simp [words, hs, hf]
  | some ws => simp [words, hs]

theorem mem_inter : k ∈ s.inter x ↔ k ∈ s ∧ k ∈ x := by
  rw [mem_iff, inter, words_map (andWords · x.words) (by rw [andWords]), getD_andWords, testBit_and,
    Bool.and_eq_true, mem_iff, mem_iff]

theorem mem_diff : k ∈ s.diff x ↔ k ∈ s ∧ k ∉ x := by
  have hbit : k % 64 < 64 := Nat.mod_lt k (by norm_num)
  rw [mem_iff, diff, words_map (diffWords · x.words) (by rw [diffWords]), getD_diffWords, testBit_and,
    testBit_not _ hbit, Bool.and_eq_true, Bool.not_eq_true', ← Bool.not_eq_true, mem_iff, mem_iff]

theorem mem_strip : k ∈ s.strip ↔ k ∈ s := by
  rw [mem_iff, strip, words_map stripWords rfl, getD_stripWords, mem_iff]

theorem not_mem_reset : k ∉ s.reset := by
  rw [reset, mem_strip, mem_iff, words_map (·.map fun _ => 0) rfl]
  have hword : (s.words.map fun _ => (0 : UInt64)).getD (k / 64) 0 = 0 := by
    rw [List.getD_eq_getElem?_getD, List.getElem?_map]
    cases s.words[k / 64]? <;> rfl
  rw [hword, testBit_zero]
  exact Bool.false_ne_true

/-- Sets with the same keys have the same words, up to zeros at their ends. -/
theorem getD_words_eq (h : ∀ k, k ∈ s ↔ k ∈ x) (i : Nat) : s.words.getD i 0 = x.words.getD i 0 := by
  apply eq_of_testBit
  intro j hj
  have hkey := h (i * 64 + j)
  rw [mem_iff, mem_iff, show (i * 64 + j) / 64 = i by omega, show (i * 64 + j) % 64 = j by omega] at hkey
  exact Bool.eq_iff_iff.2 hkey

theorem same_iff : s.same x = true ↔ ∀ k, k ∈ s ↔ k ∈ x := by
  rw [same, sameWords_iff]
  constructor
  · intro h k
    rw [mem_iff, mem_iff, h]
  · exact getD_words_eq

theorem isEmpty_iff : s.isEmpty = true ↔ ∀ k, k ∉ s := by
  have hsame : s.same ∅ = s.isEmpty := by
    show sameWords s.words [] = _
    cases hs : s.words <;> simp [sameWords, isEmpty, hs]
  rw [← hsame, same_iff]
  exact forall_congr' fun k => iff_false_right (not_mem_empty k)

theorem size_eq_length : s.size = s.toList.length := by
  have hfrom : ∀ (ws : List UInt64) (i : Nat),
      ws.foldr (fun w n => (bitsOf w).length + n) 0 = (keysFrom i ws).length := by
    intro ws
    induction ws with
    | nil => intro i; rfl
    | cons w ws ih =>
      intro i
      rw [List.foldr_cons, keysFrom, List.length_append, List.length_map, ih (i + 1)]
  exact hfrom s.words 0

end

/-! ## Integer keys -/

section
variable {s x : DenseSet} {t : Int}

theorem contains_union : (s.union x).contains t = true ↔ s.contains t = true ∨ x.contains t = true := by
  simp only [contains_iff, mem_union, and_or_left, exists_or]

theorem contains_ofNat {k : Nat} : s.contains k = true ↔ k ∈ s := Iff.rfl

theorem contains_inter : (s.inter x).contains t = true ↔ s.contains t = true ∧ x.contains t = true := by
  cases t with
  | ofNat k => exact mem_inter
  | negSucc k => simp [contains]

theorem contains_diff : (s.diff x).contains t = true ↔ s.contains t = true ∧ ¬ x.contains t = true := by
  cases t with
  | ofNat k => exact mem_diff
  | negSucc k => simp [contains]

theorem contains_strip : s.strip.contains t = true ↔ s.contains t = true := by
  simp only [contains_iff, mem_strip]

theorem not_contains_reset : ¬ s.reset.contains t = true := by
  rw [contains_iff]
  rintro ⟨k, -, h⟩
  exact not_mem_reset h

/-- The first unset key is the least integer in the range that is no key. -/
theorem firstUnset_eq_some_iff {limit : Int} {k : Nat} : s.firstUnset limit = some k ↔
    IsLeast {j : Int | 0 ≤ j ∧ j < limit ∧ ¬ s.contains j = true} k := by
  rw [firstUnset_eq_iff]
  constructor
  · rintro ⟨-, hlt, hfree, hbelow⟩
    have hno : ¬ s.contains k = true := Bool.eq_false_iff.1 hfree
    refine ⟨⟨Int.natCast_nonneg k, hlt, hno⟩, ?_⟩
    rintro j ⟨hnonneg, -, hj⟩
    obtain ⟨n, rfl⟩ := Int.eq_ofNat_of_zero_le hnonneg
    by_contra hless
    exact hj (hbelow n (Nat.zero_le n) (by omega))
  · rintro ⟨⟨-, hlt, hno⟩, hleast⟩
    refine ⟨Nat.zero_le k, hlt, Bool.eq_false_iff.2 hno, fun n _ hless => ?_⟩
    by_contra hn
    have hle : (k : Int) ≤ n := hleast ⟨Int.natCast_nonneg n, by omega, hn⟩
    omega

/-- There is none iff all integers in the range are keys. -/
theorem firstUnset_eq_none_iff {limit : Int} :
    s.firstUnset limit = none ↔ ∀ j, 0 ≤ j → j < limit → s.contains j = true := by
  rw [firstUnset_eq_iff]
  constructor
  · intro hall j hnonneg hlt
    obtain ⟨n, rfl⟩ := Int.eq_ofNat_of_zero_le hnonneg
    exact hall n (Nat.zero_le n) hlt
  · intro hall n _ hlt
    exact hall n (Int.natCast_nonneg n) hlt

/-- The fault that inserting keys in order ends with: the first negative one is refused. -/
def refusal (ks : List Int) : Except Fault Unit :=
  match ks.find? (· < 0) with
  | some k => .error (.negativeKey k)
  | none => .ok ()

/-- Keys are inserted up to the first negative one. -/
theorem insertAll_upTo (s : DenseSet) (ks : List Int) :
    (s.insertAll ks).2 = refusal ks ∧ ∀ t, (s.insertAll ks).1.contains t = true ↔
      t ∈ ks.takeWhile (0 ≤ ·) ∨ s.contains t = true := by
  induction ks generalizing s with
  | nil => exact ⟨rfl, fun t => by simp [insertAll]⟩
  | cons k ks ih =>
    cases k with
    | ofNat n =>
      obtain ⟨hfault, hkeys⟩ := ih (s.put n)
      refine ⟨?_, fun t => ?_⟩
      · show ((s.put n).insertAll ks).2 = _
        rw [hfault, refusal, refusal, List.find?_cons_of_neg (by simp)]
      · show ((s.put n).insertAll ks).1.contains t = true ↔ _
        rw [hkeys, contains_put, List.takeWhile_cons_of_pos (by simp), List.mem_cons]
        exact or_left_comm.trans or_assoc.symm
    | negSucc n =>
      refine ⟨?_, fun t => ?_⟩
      · show Except.error (Fault.negativeKey (.negSucc n)) = _
        rw [refusal, List.find?_cons_of_pos (by simp)]
      · show s.contains t = true ↔ _
        rw [List.takeWhile_cons_of_neg (by simp)]
        simp

end

/-! ## Finite sets -/

section
variable {σ : Type} {step : σ → Nat → σ × Bool} {start : σ}

/-- What a callback with a state of its own holds after it was called with some keys. -/
def stateAfter (step : σ → Nat → σ × Bool) (start : σ) (ks : List Nat) : σ :=
  ks.foldl (fun a k => (step a k).1) start

/-- Called with the keys in order, the callback answers `true` each time. -/
def GoesOn (step : σ → Nat → σ × Bool) (start : σ) (ks : List Nat) : Prop :=
  ∀ pre k post, ks = pre ++ k :: post → (step (stateAfter step start pre) k).2 = true

/-- The callback ends with this state if it is called with the keys in order, up to and
    including the first at which it answers `false`. -/
def EndsWith (step : σ → Nat → σ × Bool) (start : σ) (ks : List Nat) (final : σ) : Prop :=
  (GoesOn step start ks ∧ final = stateAfter step start ks) ∨
    ∃ pre k post, ks = pre ++ k :: post ∧ GoesOn step start pre ∧
      (step (stateAfter step start pre) k).2 = false ∧ final = stateAfter step start (pre ++ [k])

theorem goesOn_nil : GoesOn step start [] := by
  intro pre k post h
  simp at h

theorem GoesOn.cons {k : Nat} {ks : List Nat} (hk : (step start k).2 = true)
    (h : GoesOn step (step start k).1 ks) : GoesOn step start (k :: ks) := by
  intro pre j post he
  cases pre with
  | nil =>
    obtain ⟨rfl, -⟩ := List.cons.inj he
    exact hk
  | cons p pre =>
    obtain ⟨rfl, htail⟩ := List.cons.inj he
    exact h pre j post htail

/-- **A fold over keys stops right behind the first `false`.** -/
theorem foldListUntil_endsWith (step : σ → Nat → σ × Bool) (start : σ) (ks : List Nat) :
    EndsWith step start ks (foldListUntil step start ks) := by
  induction ks generalizing start with
  | nil => exact Or.inl ⟨goesOn_nil, rfl⟩
  | cons k ks ih =>
    rw [foldListUntil]
    rcases hk : step start k with ⟨mid, _ | _⟩
    · exact Or.inr ⟨[], k, ks, rfl, goesOn_nil, congrArg Prod.snd hk, (congrArg Prod.fst hk).symm⟩
    · have hgo : (step start k).2 = true := congrArg Prod.snd hk
      have hmid : (step start k).1 = mid := congrArg Prod.fst hk
      have hnext := ih mid
      rw [← hmid] at hnext
      rcases hnext with ⟨hall, hfinal⟩ | ⟨pre, j, post, rfl, hpre, hstop, hfinal⟩
      · exact Or.inl ⟨hall.cons hgo, by rw [← hmid]; exact hfinal⟩
      · exact Or.inr ⟨k :: pre, j, post, rfl, hpre.cons hgo, hstop, by rw [← hmid]; exact hfinal⟩

end

/-- The dense set answers as the finite set would. -/
structure Represents (s : DenseSet) (S : Finset Int) : Prop where
  nonneg : ∀ k ∈ S, 0 ≤ k
  contains : ∀ k, s.contains k = true ↔ k ∈ S
  listed : ∃ ks : List Nat, ks.Pairwise (· < ·) ∧ (∀ k, k ∈ S ↔ ∃ n ∈ ks, k = (n : Int)) ∧
    s.keys = ks.map Int.ofNat ∧
    ∀ {σ : Type} (step : σ → Nat → σ × Bool) (start : σ), EndsWith step start ks (s.foldUntil step start)
  size : s.size = S.card
  isEmpty : s.isEmpty = true ↔ S = ∅

/-- **A dense set with the keys of a finite set represents it**, whatever its words. -/
theorem represents_of_contains {s : DenseSet} {S : Finset Int} (h : ∀ k, s.contains k = true ↔ k ∈ S) :
    s.Represents S where
  nonneg := fun k hk => nonneg_of_contains ((h k).2 hk)
  contains := h
  listed := by
    refine ⟨s.toList, pairwise_toList s, fun k => ?_, rfl, fun step start => foldListUntil_endsWith step start _⟩
    rw [← h, contains_iff]
    constructor
    · rintro ⟨n, rfl, hn⟩
      exact ⟨n, mem_toList.2 hn, rfl⟩
    · rintro ⟨n, hn, rfl⟩
      exact ⟨n, rfl, mem_toList.1 hn⟩
  size := by
    have hset : s.keys.toFinset = S := by
      ext k
      rw [List.mem_toFinset, mem_keys, h]
    rw [← hset, List.toFinset_card_of_nodup (nodup_keys s), keys, List.length_map, size_eq_length]
  isEmpty := by
    rw [isEmpty_iff, Finset.eq_empty_iff_forall_notMem]
    constructor
    · intro hno k hk
      obtain ⟨n, -, hn⟩ := contains_iff.1 ((h k).2 hk)
      exact hno n hn
    · intro hno k hk
      exact hno k ((h k).1 hk)

/-- Dense sets are the same if the finite sets are. -/
theorem same_iff_eq {s x : DenseSet} {S X : Finset Int} (hs : ∀ k, s.contains k = true ↔ k ∈ S)
    (hx : ∀ k, x.contains k = true ↔ k ∈ X) : s.same x = true ↔ S = X := by
  rw [same_iff]
  constructor
  · intro hsame
    ext t
    rw [← hs, ← hx, contains_iff, contains_iff]
    simp only [hsame]
  · rintro rfl k
    rw [← contains_ofNat, ← contains_ofNat, hs, hx]

end DenseSet

/-! ## Runs -/

/-- What is done to a set, perhaps with another one of those kept under names. -/
inductive SetAction (ι : Type) where
  | ofList (ks : List Int)
  | insert (k : Int)
  | insertAll (ks : List Int)
  | erase (k : Int)
  | union (x : ι)
  | inter (x : ι)
  | diff (x : ι)
  | copy (x : ι)
  | reset
  | strip

/-- An action on the set kept under a name. -/
structure SetCall (ι : Type) where
  receiver : ι
  action : SetAction ι

namespace SetAction

variable {ι : Type}

/-- What an action makes of a set, and how it ends. A set that cannot be made changes
    nothing; keys inserted before one that is refused stay. -/
def onDense (sets : ι → DenseSet) (s : DenseSet) : SetAction ι → DenseSet × Except Fault Unit
  | ofList ks =>
    match DenseSet.ofList ks with
    | .ok s' => (s', .ok ())
    | .error f => (s, .error f)
  | insert k =>
    match s.insert k with
    | .ok s' => (s', .ok ())
    | .error f => (s, .error f)
  | insertAll ks => s.insertAll ks
  | erase k => (s.erase k, .ok ())
  | union x => (s.union (sets x), .ok ())
  | inter x => (s.inter (sets x), .ok ())
  | diff x => (s.diff (sets x), .ok ())
  | copy x => (sets x, .ok ())
  | reset => (s.reset, .ok ())
  | strip => (s.strip, .ok ())

/-- What an action makes of a finite set, and how it ends. -/
def onFinite (sets : ι → Finset Int) (S : Finset Int) : SetAction ι → Finset Int × Except Fault Unit
  | ofList ks => (if ∀ k ∈ ks, 0 ≤ k then ks.toFinset else S, DenseSet.refusal ks)
  | insert k => if 0 ≤ k then (Insert.insert k S, .ok ()) else (S, .error (.negativeKey k))
  | insertAll ks => (S ∪ (ks.takeWhile (0 ≤ ·)).toFinset, DenseSet.refusal ks)
  | erase k => (S.erase k, .ok ())
  | union x => (S ∪ sets x, .ok ())
  | inter x => (S ∩ sets x, .ok ())
  | diff x => (S \ sets x, .ok ())
  | copy x => (sets x, .ok ())
  | reset => (∅, .ok ())
  | strip => (S, .ok ())

end SetAction

namespace SetCall

variable {ι : Type} [DecidableEq ι]

/-- One call on sets kept under names. -/
def onDense (sets : ι → DenseSet) (c : SetCall ι) : (ι → DenseSet) × Except Fault Unit :=
  let (s, result) := c.action.onDense sets (sets c.receiver)
  (Function.update sets c.receiver s, result)

/-- One call on finite sets kept under names. -/
def onFinite (sets : ι → Finset Int) (c : SetCall ι) : (ι → Finset Int) × Except Fault Unit :=
  let (S, result) := c.action.onFinite sets (sets c.receiver)
  (Function.update sets c.receiver S, result)

/-- The sets after some calls, all of them empty at first. A call that ends with a fault does
    not end the run. -/
def denseAfter (calls : List (SetCall ι)) : ι → DenseSet :=
  calls.foldl (fun sets c => (c.onDense sets).1) fun _ => ∅

/-- The finite sets after some calls. -/
def finiteAfter (calls : List (SetCall ι)) : ι → Finset Int :=
  calls.foldl (fun sets c => (c.onFinite sets).1) fun _ => ∅

end SetCall

/-- The sets kept under each name have the same keys. -/
def SameKeys {ι : Type} (sets : ι → DenseSet) (finite : ι → Finset Int) : Prop :=
  ∀ i k, (sets i).contains k = true ↔ k ∈ finite i

section
variable {ι : Type} {sets : ι → DenseSet} {finite : ι → Finset Int}

theorem DenseSet.ofList_eq (ks : List Int) :
    DenseSet.ofList ks = ((∅ : DenseSet).insertAll ks).2.map fun _ => ((∅ : DenseSet).insertAll ks).1 := by
  rw [DenseSet.ofList]
  rcases (∅ : DenseSet).insertAll ks with ⟨s, _ | _⟩ <;> rfl

/-- Keys that are all inserted are none of them negative. -/
theorem DenseSet.refusal_cases (ks : List Int) :
    (refusal ks = .ok () ∧ ∀ k ∈ ks, 0 ≤ k) ∨
      ∃ k, refusal ks = .error (.negativeKey k) ∧ ¬ ∀ k ∈ ks, 0 ≤ k := by
  rcases hfind : ks.find? (· < 0) with _ | k
  · left
    refine ⟨by rw [refusal, hfind], fun k hk => ?_⟩
    simpa using List.find?_eq_none.1 hfind k hk
  · right
    refine ⟨k, by rw [refusal, hfind], fun hall => ?_⟩
    have hneg : k < 0 := by simpa using List.find?_some hfind
    exact not_lt.2 (hall k (List.mem_of_find?_eq_some hfind)) hneg

/-- **An action does the same to keys as to the members of a finite set**, and ends alike. -/
theorem refines_action (h : SameKeys sets finite) (i : ι) (a : SetAction ι) :
    (a.onDense sets (sets i)).2 = (a.onFinite finite (finite i)).2 ∧
      ∀ k, (a.onDense sets (sets i)).1.contains k = true ↔ k ∈ (a.onFinite finite (finite i)).1 := by
  cases a with
  | ofList ks =>
    obtain ⟨hfault, hkeys⟩ := DenseSet.insertAll_upTo ∅ ks
    simp only [SetAction.onDense, SetAction.onFinite, DenseSet.ofList_eq, hfault]
    rcases DenseSet.refusal_cases ks with ⟨hok, hall⟩ | ⟨k, herror, hnot⟩
    · rw [hok, if_pos hall]
      refine ⟨rfl, fun k => ?_⟩
      show ((∅ : DenseSet).insertAll ks).1.contains k = true ↔ _
      rw [hkeys, List.takeWhile_eq_self_iff.2 (by simpa using hall), List.mem_toFinset]
      exact or_iff_left (DenseSet.not_contains_empty k)
    · rw [herror, if_neg hnot]
      exact ⟨rfl, h i⟩
  | insert k =>
    cases k with
    | ofNat n =>
      simp only [SetAction.onDense, SetAction.onFinite, DenseSet.insert]
      rw [if_pos (show 0 ≤ Int.ofNat n from Int.natCast_nonneg n)]
      refine ⟨rfl, fun t => ?_⟩
      rw [DenseSet.contains_put, h, Finset.mem_insert]
      rfl
    | negSucc n =>
      simp only [SetAction.onDense, SetAction.onFinite, DenseSet.insert]
      rw [if_neg (not_le.2 (Int.negSucc_lt_zero n))]
      exact ⟨rfl, h i⟩
  | insertAll ks =>
    obtain ⟨hfault, hkeys⟩ := DenseSet.insertAll_upTo (sets i) ks
    refine ⟨hfault, fun k => ?_⟩
    simp only [SetAction.onDense, SetAction.onFinite]
    rw [hkeys, h, Finset.mem_union, List.mem_toFinset, or_comm]
  | erase k =>
    refine ⟨rfl, fun t => ?_⟩
    simp only [SetAction.onDense, SetAction.onFinite]
    rw [DenseSet.contains_erase, h, Finset.mem_erase]
  | union x =>
    refine ⟨rfl, fun t => ?_⟩
    simp only [SetAction.onDense, SetAction.onFinite]
    rw [DenseSet.contains_union, h, h, Finset.mem_union]
  | inter x =>
    refine ⟨rfl, fun t => ?_⟩
    simp only [SetAction.onDense, SetAction.onFinite]
    rw [DenseSet.contains_inter, h, h, Finset.mem_inter]
  | diff x =>
    refine ⟨rfl, fun t => ?_⟩
    simp only [SetAction.onDense, SetAction.onFinite]
    rw [DenseSet.contains_diff, h, h, Finset.mem_sdiff]
  | copy x => exact ⟨rfl, h x⟩
  | reset =>
    refine ⟨rfl, fun t => ?_⟩
    exact iff_of_false DenseSet.not_contains_reset (Finset.notMem_empty t)
  | strip =>
    refine ⟨rfl, fun t => ?_⟩
    exact DenseSet.contains_strip.trans (h i t)

variable [DecidableEq ι]

/-- One call keeps the keys the same. -/
theorem refines_call (h : SameKeys sets finite) (c : SetCall ι) :
    SameKeys (c.onDense sets).1 (c.onFinite finite).1 := by
  intro i k
  simp only [SetCall.onDense, SetCall.onFinite]
  by_cases hi : i = c.receiver
  · subst hi
    rw [Function.update_self, Function.update_self]
    exact (refines_action h _ c.action).2 k
  · rw [Function.update_of_ne hi, Function.update_of_ne hi]
    exact h i k

/-- **A run keeps the keys the same.** -/
theorem refines_after (calls : List (SetCall ι)) :
    SameKeys (SetCall.denseAfter calls) (SetCall.finiteAfter calls) := by
  have hrun : ∀ (sets : ι → DenseSet) (finite : ι → Finset Int), SameKeys sets finite →
      SameKeys (calls.foldl (fun sets c => (c.onDense sets).1) sets)
        (calls.foldl (fun sets c => (c.onFinite sets).1) finite) := by
    induction calls with
    | nil =>
      intro sets finite h
      exact h
    | cons c calls ih =>
      intro sets finite h
      exact ih _ _ (refines_call h c)
  apply hrun
  intro i k
  exact iff_of_false (DenseSet.not_contains_empty k) (Finset.notMem_empty k)

/-- **Dense sets refine finite sets.** After any calls, each set represents the finite set that
    the same calls make, two of them are the same iff their finite sets are equal, and any
    further call ends as it does on finite sets. -/
theorem represents_after (calls : List (SetCall ι)) :
    (∀ i, (SetCall.denseAfter calls i).Represents (SetCall.finiteAfter calls i)) ∧
      (∀ i j, (SetCall.denseAfter calls i).same (SetCall.denseAfter calls j) = true ↔
        SetCall.finiteAfter calls i = SetCall.finiteAfter calls j) ∧
      ∀ c : SetCall ι, (c.onDense (SetCall.denseAfter calls)).2 = (c.onFinite (SetCall.finiteAfter calls)).2 := by
  have hkeys := refines_after calls
  refine ⟨fun i => ?_, fun i j => ?_, fun c => ?_⟩
  · exact DenseSet.represents_of_contains (hkeys i)
  · exact DenseSet.same_iff_eq (hkeys i) (hkeys j)
  · exact (refines_action hkeys c.receiver c.action).1

/-- **The first unset key is the bounded least non-member.** After any calls and for every limit,
    negative ones too, it is the least integer from zero up to the limit that is not in the finite
    set that the same calls make; there is none iff all of them are in it. -/
theorem firstUnset_after (calls : List (SetCall ι)) (i : ι) (limit : Int) :
    (∀ j, (SetCall.denseAfter calls i).contains j = true ↔ j ∈ SetCall.finiteAfter calls i) ∧
      (∀ k : Nat, (SetCall.denseAfter calls i).firstUnset limit = some k ↔
        IsLeast {j : Int | 0 ≤ j ∧ j < limit ∧ j ∉ SetCall.finiteAfter calls i} k) ∧
      ((SetCall.denseAfter calls i).firstUnset limit = none ↔
        ∀ j, 0 ≤ j → j < limit → j ∈ SetCall.finiteAfter calls i) := by
  have hkeys := refines_after calls i
  refine ⟨hkeys, fun k => ?_, ?_⟩
  · rw [DenseSet.firstUnset_eq_some_iff]
    simp only [hkeys]
  · rw [DenseSet.firstUnset_eq_none_iff]
    simp only [hkeys]

/-- A full word is skipped, and a limit inside the next word ends the search there. -/
example : DenseSet.firstUnset ⟨some [~~~0, 7]⟩ 68 = some 67 ∧ DenseSet.firstUnset ⟨some [~~~0, 7]⟩ 67 = none :=
  ⟨rfl, rfl⟩

end

end Straightline
