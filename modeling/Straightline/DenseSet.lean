/-
  Dense sets of small natural numbers.

  Keys are kept as bits of 64-bit words: key `k` is bit `k % 64` of word
  `k / 64`.  A set has no storage until a key is put into it, and once it has
  storage it keeps it, however empty it becomes; only the binary form tells the
  two apart.

  * `has`, `put`, `drop` work on natural keys; `contains`, `insert`, `erase` on
    integer ones, of which a negative one is never a member and cannot be
    inserted;
  * `union`, `inter`, `diff` work word by word;
  * `toList` lists the keys in ascending order, `foldUntil` folds over them
    until it is told to stop;
  * `firstUnset` is the least natural number below a limit that is not a key.
-/
import Straightline.Fault
import Straightline.Wire

namespace Straightline

/-- A set of natural numbers as bits of 64-bit words. -/
structure DenseSet where
  /-- The words in ascending order of keys, or `none` if nothing was stored yet. -/
  storage : Option (List UInt64)
  deriving DecidableEq

namespace DenseSet

/-! ## Words -/

/-- Is bit `j` of the word set? -/
def testBit (w : UInt64) (j : Nat) : Bool :=
  w.toNat.testBit j

/-- The word with bit `j` only. -/
def bit (j : Nat) : UInt64 :=
  1 <<< UInt64.ofNat j

/-- The set bits of a word, ascending. -/
def bitsOf (w : UInt64) : List Nat :=
  (List.range 64).filter (testBit w)

/-- The lowest bit of a word that is not set. -/
def lowestUnset? (w : UInt64) : Option Nat :=
  (List.range 64).find? fun j => !testBit w j

/-- Words filled up with zeros to at least `n` of them. -/
def grown (n : Nat) (ws : List UInt64) : List UInt64 :=
  ws ++ List.replicate (n - ws.length) 0

/-- Words combined by "or", the shorter list standing for zeros at its end. -/
def orWords : List UInt64 → List UInt64 → List UInt64
  | [], ys => ys
  | xs, [] => xs
  | x :: xs, y :: ys => (x ||| y) :: orWords xs ys

/-- Words combined by "and", as many as the first list has. -/
def andWords : List UInt64 → List UInt64 → List UInt64
  | [], _ => []
  | _ :: xs, [] => 0 :: andWords xs []
  | x :: xs, y :: ys => (x &&& y) :: andWords xs ys

/-- Words of the first list without the bits of the second. -/
def diffWords : List UInt64 → List UInt64 → List UInt64
  | [], _ => []
  | xs, [] => xs
  | x :: xs, y :: ys => (x &&& ~~~y) :: diffWords xs ys

/-- Do two word lists agree up to zeros at their ends? -/
def sameWords : List UInt64 → List UInt64 → Bool
  | [], ys => ys.all (· == 0)
  | xs, [] => xs.all (· == 0)
  | x :: xs, y :: ys => x == y && sameWords xs ys

/-- Words without the zeros at their end. -/
def stripWords : List UInt64 → List UInt64
  | [] => []
  | w :: ws =>
    match stripWords ws with
    | [] => if w = 0 then [] else [w]
    | rest => w :: rest

/-! ## Sets -/

/-- The empty set, without storage. -/
def empty : DenseSet := ⟨none⟩

instance : EmptyCollection DenseSet := ⟨empty⟩

instance : Inhabited DenseSet := ⟨empty⟩

/-- The words of a set. -/
def words (s : DenseSet) : List UInt64 :=
  s.storage.getD []

/-- Is `k` a key? -/
def has (s : DenseSet) (k : Nat) : Bool :=
  testBit (s.words.getD (k / 64) 0) (k % 64)

instance : Membership Nat DenseSet := ⟨fun s k => s.has k = true⟩

instance (k : Nat) (s : DenseSet) : Decidable (k ∈ s) :=
  inferInstanceAs (Decidable (s.has k = true))

/-- The set with the key `k` too. -/
def put (s : DenseSet) (k : Nat) : DenseSet :=
  ⟨some ((grown (k / 64 + 1) s.words).modify (k / 64) (· ||| bit (k % 64)))⟩

/-- The set without the key `k`. -/
def drop (s : DenseSet) (k : Nat) : DenseSet :=
  ⟨s.storage.map (·.modify (k / 64) (· &&& ~~~bit (k % 64)))⟩

/-- Is the integer a key? A negative one never is. -/
def contains (s : DenseSet) : Int → Bool
  | .ofNat k => s.has k
  | .negSucc _ => false

/-- The set with one more key, which must not be negative. -/
def insert (s : DenseSet) : Int → Except Fault DenseSet
  | .ofNat k => .ok (s.put k)
  | .negSucc k => .error (.negativeKey (.negSucc k))

/-- The set without a key. A negative one is not there to begin with. -/
def erase (s : DenseSet) : Int → DenseSet
  | .ofNat k => s.drop k
  | .negSucc _ => s

/-- Insert keys in order. A negative key ends it with a fault; the keys before
    it stay inserted. -/
def insertAll (s : DenseSet) : List Int → DenseSet × Except Fault Unit
  | [] => (s, .ok ())
  | k :: ks =>
    match s.insert k with
    | .ok s' => s'.insertAll ks
    | .error f => (s, .error f)

/-- The set of some keys, none of which may be negative. -/
def ofList (ks : List Int) : Except Fault DenseSet :=
  match empty.insertAll ks with
  | (s, .ok _) => .ok s
  | (_, .error f) => .error f

/-- The keys of either set. A set with no words adds nothing, not even storage. -/
def union (s x : DenseSet) : DenseSet :=
  if x.words.isEmpty then s else ⟨some (orWords s.words x.words)⟩

/-- The keys of both sets. -/
def inter (s x : DenseSet) : DenseSet :=
  ⟨s.storage.map (andWords · x.words)⟩

/-- The keys of the first set that are not in the second. -/
def diff (s x : DenseSet) : DenseSet :=
  ⟨s.storage.map (diffWords · x.words)⟩

/-- The number of keys. -/
def size (s : DenseSet) : Nat :=
  s.words.foldr (fun w n => (bitsOf w).length + n) 0

/-- Has the set no keys? -/
def isEmpty (s : DenseSet) : Bool :=
  s.words.all (· == 0)

/-- Have two sets the same keys? -/
def same (s x : DenseSet) : Bool :=
  sameWords s.words x.words

/-- The set without trailing zero words. -/
def strip (s : DenseSet) : DenseSet :=
  ⟨s.storage.map stripWords⟩

/-- The set emptied, its storage kept but stripped. -/
def reset (s : DenseSet) : DenseSet :=
  strip ⟨s.storage.map (·.map fun _ => 0)⟩

/-- The keys of words of which the first has index `i`, ascending. -/
def keysFrom : (i : Nat) → List UInt64 → List Nat
  | _, [] => []
  | i, w :: ws => (bitsOf w).map (i * 64 + ·) ++ keysFrom (i + 1) ws

/-- The keys in ascending order. -/
def toList (s : DenseSet) : List Nat :=
  keysFrom 0 s.words

/-- The keys in ascending order, as integers. -/
def keys (s : DenseSet) : List Int :=
  s.toList.map Int.ofNat

/-- Fold over a list up to and including the first element at which the step
    answers `false`. -/
def foldListUntil {σ α : Type} (step : σ → α → σ × Bool) : σ → List α → σ
  | acc, [] => acc
  | acc, x :: xs =>
    match step acc x with
    | (acc', true) => foldListUntil step acc' xs
    | (acc', false) => acc'

/-- Fold over the keys in ascending order, up to and including the first key at
    which the step answers `false`. -/
def foldUntil {σ : Type} (s : DenseSet) (step : σ → Nat → σ × Bool) (start : σ) : σ :=
  foldListUntil step start s.toList

/-- The least number below `limit` that is not a key of words of which the
    first has index `i`, if all smaller numbers are keys. -/
def firstUnsetFrom (limit : Int) : (i : Nat) → List UInt64 → Option Nat
  | i, [] => if (i * 64 : Nat) < limit then some (i * 64) else none
  | i, w :: ws =>
    if (i * 64 : Nat) < limit then
      match lowestUnset? w with
      | none => firstUnsetFrom limit (i + 1) ws
      | some j => if (i * 64 + j : Nat) < limit then some (i * 64 + j) else none
    else none

/-- The least natural number below `limit` that is not a key. -/
def firstUnset (s : DenseSet) (limit : Int) : Option Nat :=
  firstUnsetFrom limit 0 s.words

/-- The binary form: nothing for a set without storage, else the array of keys. -/
def wire (s : DenseSet) : Text :=
  match s.storage with
  | none => Wire.nil
  | some _ => Wire.ints s.toList

end DenseSet

end Straightline
