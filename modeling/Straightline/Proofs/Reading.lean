/-
  What the parts of a grammar read.

  `p.Reads c a c'` says that the parser `p`, started at `c`, reads `a` and ends at
  `c'`; `p.Rejects c` says that it fails without having moved.  Each way to put
  parsers together has a lemma that says what the whole reads in terms of what
  its parts read.

  * `reads_token`: a token is read as its span, and `slice_of_on` gives its text;
  * `reads_bind`, `reads_spaced`, `reads_context`, `reads_optional`,
    `reads_anyOf_cons`: sequences and choices;
  * `reads_many`: a repetition reads items up to the end of the text or to a point
    where none starts.
-/
import Straightline.Syntax.Parse
import Straightline.Proofs.Token

namespace Straightline

/-! ## Points of a text -/

namespace Cursor

/-- The point lies in the text. -/
structure On (t : Text) (c : Cursor) : Prop where
  le : c.offset ≤ t.length
  rest : c.rest = t.drop c.offset

variable {t : Text} {c : Cursor} {n : Nat}

theorem on_ofText (t : Text) : (ofText t).On t :=
  ⟨Nat.zero_le _, rfl⟩

theorem On.length_rest (h : c.On t) : c.offset + c.rest.length = t.length := by
  have := h.le
  rw [h.rest, List.length_drop]
  omega

theorem On.advance (h : c.On t) (hn : n ≤ c.rest.length) : (c.advance n).On t := by
  have := h.length_rest
  refine ⟨?_, ?_⟩
  · simp only [Cursor.advance]
    omega
  · simp only [Cursor.advance, h.rest, List.drop_drop]

theorem On.skip (h : c.On t) (s : Spaces) : (c.skip s).On t :=
  h.advance (s.count_le c.rest)

theorem On.skipBlank (h : c.On t) : c.skipBlank.On t :=
  h.advance (blankCount_le false c.rest)

@[simp] theorem length_advance (c : Cursor) (n : Nat) : (c.advance n).rest.length = c.rest.length - n :=
  List.length_drop

theorem length_skip_le (s : Spaces) (c : Cursor) : (c.skip s).rest.length ≤ c.rest.length := by
  simp [Cursor.skip]

theorem length_skipBlank_le (c : Cursor) : c.skipBlank.rest.length ≤ c.rest.length := by
  simp [Cursor.skipBlank]

/-- Moving over the front of what follows. -/
theorem rest_advance {x r : Text} (h : c.rest = x ++ r) : (c.advance x.length).rest = r := by
  simp [Cursor.advance, h]

theorem rest_skip {s : Spaces} {x r : Text} (h : c.rest = x ++ r) (hx : ∀ b ∈ x, s.contains b = true)
    (hr : ∀ b ∈ r.head?, s.contains b = false) : (c.skip s).rest = r := by
  rw [Cursor.skip, h, Spaces.count_append hx hr]
  exact rest_advance h

theorem rest_skipBlank {x r : Text} (h : c.rest = x ++ r) (hx : ∀ b ∈ x, Spaces.all.contains b = true)
    (hr : StartsFull r) : c.skipBlank.rest = r := by
  rw [Cursor.skipBlank, h, blankCount_append hx hr]
  exact rest_advance h

end Cursor

/-- The text of a span that starts at a point of the source. -/
theorem slice_of_on {src : Source} {c : Cursor} {n : Nat} (hc : c.On src.text) (hn : n ≤ c.rest.length) :
    src.slice ⟨c.offset, (c.offset + n : Nat)⟩ = .ok (c.rest.take n) := by
  have hlen := hc.length_rest
  have hin : (0 : Int) ≤ c.offset ∧ (c.offset : Int) ≤ (c.offset + n : Nat) ∧
      ((c.offset + n : Nat) : Int) ≤ src.text.length := by omega
  have hsize : (((c.offset + n : Nat) : Int) - (c.offset : Int)).toNat = n := by omega
  rw [Source.slice, if_pos hin, Int.toNat_natCast, hsize, hc.rest]

namespace Parser

variable {α β : Type} {p : Parser α} {c c' : Cursor} {a : α}

/-- The parser reads `a` from `c` to `c'`. -/
def Reads (p : Parser α) (c : Cursor) (a : α) (c' : Cursor) : Prop :=
  p c = ⟨c', .ok a⟩

/-- The parser fails from `c` on. -/
def Fails (p : Parser α) (c : Cursor) : Prop :=
  ∃ c' e, p c = ⟨c', .error e⟩

/-- The parser fails at `c` without having moved. -/
def Rejects (p : Parser α) (c : Cursor) : Prop :=
  ∃ c' e, p c = ⟨c', .error e⟩ ∧ c'.offset = c.offset

theorem Rejects.fails (h : p.Rejects c) : p.Fails c := by
  obtain ⟨c', e, h, -⟩ := h
  exact ⟨c', e, h⟩

theorem reads_or_fails (p : Parser α) (c : Cursor) : (∃ a c', p.Reads c a c') ∨ p.Fails c := by
  rcases h : p c with ⟨c', e | a⟩
  · exact .inr ⟨c', e, h⟩
  · exact .inl ⟨a, c', h⟩

theorem Reads.unique {b : α} {m : Cursor} (h : p.Reads c a c') (h' : p.Reads c b m) : a = b ∧ c' = m := by
  rw [Reads, h] at h'
  cases h'
  exact ⟨rfl, rfl⟩

theorem Fails.not_reads (h : p.Fails c) : ¬ p.Reads c a c' := by
  obtain ⟨stop, e, h⟩ := h
  simp [Reads, h]

/-! ## Sequences -/

theorem reads_pure {b : α} : (pure b : Parser α).Reads c a c' ↔ a = b ∧ c' = c := by
  simp [Reads, pure, succeed, eq_comm, and_comm]

theorem reads_bind {f : α → Parser β} {b : β} :
    (p >>= f).Reads c b c' ↔ ∃ a m, p.Reads c a m ∧ (f a).Reads m b c' := by
  rcases h : p c with ⟨m, e | a⟩
  · simp [Reads, bind, andThen, h]
  · simp [Reads, bind, andThen, h]

theorem reads_map {f : α → β} {b : β} : (f <$> p).Reads c b c' ↔ ∃ a, p.Reads c a c' ∧ b = f a := by
  change (p >>= fun a => pure (f a)).Reads c b c' ↔ _
  simp only [reads_bind, reads_pure]
  constructor
  · rintro ⟨a, m, hp, rfl, rfl⟩
    exact ⟨a, hp, rfl⟩
  · rintro ⟨a, hp, rfl⟩
    exact ⟨a, c', hp, rfl, rfl⟩

theorem reads_here {m : Cursor} : here.Reads c m c' ↔ m = c ∧ c' = c := by
  simp [Reads, here, eq_comm, and_comm]

theorem reads_within {f : Frame} : (p.within f).Reads c a c' ↔ p.Reads c a c' := by
  rcases h : p c with ⟨m, e | b⟩ <;> simp [Reads, within, h]

theorem reads_expecting {e : Expectation} : (p.expecting e).Reads c a c' ↔ p.Reads c a c' := by
  rcases h : p c with ⟨m, e | b⟩ <;> simp [Reads, expecting, h]

theorem reads_token {scan : Text → Token.Scan} {s : Span} :
    (token scan).Reads c s c' ↔
      ∃ n, scan c.rest = .ok n ∧ c' = c.advance n ∧ s = ⟨c.offset, (c.offset + n : Nat)⟩ := by
  rcases h : scan c.rest with ⟨n, e⟩ | n
  · simp [Reads, token, h]
  · simp [Reads, token, h, eq_comm]

theorem rejects_token {scan : Text → Token.Scan} {e : Expectation} (h : scan c.rest = .error (0, e)) :
    (token scan).Rejects c :=
  ⟨c.advance 0, .of e, by simp [token, h], rfl⟩

theorem reads_spaced {s : Spaces} {k : Kind} : (spaced s k p).Reads c a c' ↔ p.Reads (c.skip s) a c' := by
  rcases h : p (c.skip s) with ⟨m, e | b⟩ <;> simp [Reads, spaced, h]

theorem Rejects.spaced {s : Spaces} {k : Kind} (h : p.Rejects (c.skip s)) : (spaced s k p).Rejects c := by
  obtain ⟨m, e, hp, hm⟩ := h
  exact ⟨c, e.within (.inside k), by simp [Parser.spaced, hp, hm], rfl⟩

theorem reads_context {q : Parser β} :
    (context (some q) p none).Reads c a c' ↔ ∃ b m, q.Reads c b m ∧ p.Reads m a c' := by
  have hpre : ∀ m, (maybe .before (some q)).Reads c () m ↔ ∃ b, q.Reads c b m := by
    intro m
    change (q.within .before >>= fun _ => pure ()).Reads c () m ↔ _
    simp only [reads_bind, reads_within, reads_pure, true_and]
    constructor
    · rintro ⟨b, m', hq, rfl⟩
      exact ⟨b, hq⟩
    · rintro ⟨b, hq⟩
      exact ⟨b, m, hq, rfl⟩
  have hsplit : (context (some q) p none).Reads c a c' ↔
      ∃ m, (maybe .before (some q)).Reads c () m ∧ p.Reads m a c' := by
    have hpost : ∀ (m : Cursor) (b : α),
        (do maybe .after (none : Option (Parser β)); return b : Parser α) m = ⟨m, .ok b⟩ := fun _ _ => rfl
    rcases hq : maybe .before (some q) c with ⟨m, e | u⟩
    · simp [Reads, context, hq]
    · rcases hp : p m with ⟨m', e | b⟩ <;> simp [Reads, context, hq, hp, hpost]
  simp only [hsplit, hpre]
  constructor
  · rintro ⟨m, ⟨b, hq⟩, hp⟩
    exact ⟨b, m, hq, hp⟩
  · rintro ⟨b, m, hq, hp⟩
    exact ⟨m, ⟨b, hq⟩, hp⟩

theorem Rejects.context {q : Parser β} {post : Option (Parser β)} (h : q.Rejects c) :
    (context (some q) p post).Rejects c := by
  obtain ⟨m, e, hq, hm⟩ := h
  exact ⟨m, e.within .before,
    by simp [Parser.context, maybe, bind, andThen, within, hq], hm⟩

/-! ## Choices -/

theorem reads_optional {o : Option α} :
    p.optional.Reads c o c' ↔ (∃ a, o = some a ∧ p.Reads c a c') ∨ (o = none ∧ c' = c ∧ p.Rejects c) := by
  rcases h : p c with ⟨m, e | b⟩
  · by_cases hm : m.offset = c.offset
    · simp [Reads, optional, Rejects, h, hm, eq_comm, and_comm]
    · simp [Reads, optional, Rejects, h, hm]
  · simp [Reads, optional, Rejects, h, eq_comm, and_comm]

theorem reads_anyOf {ps : List (Kind × Parser α)} :
    (anyOf ps).Reads c a c' ↔ firstOf c ps = some ⟨c', .ok a⟩ := by
  rcases h : firstOf c ps with _ | ⟨m, e | b⟩ <;> simp [Reads, anyOf, h]

theorem reads_anyOf_cons {k : Kind} {ps : List (Kind × Parser α)} :
    (anyOf ((k, p) :: ps)).Reads c a c' ↔
      p.Reads c a c' ∨ (p.Fails c ∧ (anyOf ps).Reads c a c') := by
  rw [reads_anyOf, reads_anyOf, firstOf]
  rcases h : p c with ⟨m, e | b⟩
  · rcases hps : firstOf c ps with _ | ⟨m', e' | b'⟩ <;>
      by_cases hm : m.offset = c.offset <;> simp [Reads, Fails, h, hm]
  · simp [Reads, Fails, h]

theorem not_reads_anyOf_nil : ¬ (anyOf []).Reads c a c' := by
  simp [reads_anyOf, firstOf]

theorem firstOf_rejects {ps : List (Kind × Parser α)} (h : ∀ p ∈ ps, p.2.Rejects c) : firstOf c ps = none := by
  induction ps with
  | nil => rfl
  | cons q ps ih =>
    obtain ⟨⟨m, e, hq, hm⟩, hps⟩ := List.forall_mem_cons.1 h
    simp [firstOf, hq, hm, ih hps]

theorem rejects_anyOf {ps : List (Kind × Parser α)} (h : ∀ p ∈ ps, p.2.Rejects c) : (anyOf ps).Rejects c :=
  ⟨c, _, by rw [anyOf, firstOf_rejects h]; rfl, rfl⟩

theorem Rejects.map {f : α → β} (h : p.Rejects c) : (f <$> p).Rejects c := by
  obtain ⟨m, e, hp, hm⟩ := h
  refine ⟨m, e, ?_, hm⟩
  change andThen p (fun a => succeed (f a)) c = _
  simp [andThen, hp]

/-! ## Repetitions -/

/-- What can be read starts before it ends. -/
def Advances (p : Parser α) : Prop :=
  ∀ ⦃c a c'⦄, p.Reads c a c' → c'.rest.length < c.rest.length

theorem advances_token {scan : Text → Token.Scan} (hfits : Token.Fits scan) (hmoves : Token.Moves scan) :
    (token scan).Advances := by
  intro c s c' h
  obtain ⟨n, hn, rfl, -⟩ := reads_token.1 h
  have := hfits hn
  have := hmoves hn
  simp only [Cursor.length_advance]
  omega

theorem Advances.spaced {s : Spaces} {k : Kind} (hp : p.Advances) : (spaced s k p).Advances := by
  intro c a c' h
  exact Nat.lt_of_lt_of_le (hp (reads_spaced.1 h)) (c.length_skip_le s)

/-- Items read one after the other. -/
inductive Repeats (R : Cursor → α → Cursor → Prop) : Cursor → List α → Cursor → Prop where
  | nil (c : Cursor) : Repeats R c [] c
  | cons {c m c' : Cursor} {a : α} {as : List α} (head : R c a m) (tail : Repeats R m as c') :
      Repeats R c (a :: as) c'

theorem reads_manyFrom (hp : p.Advances) {count : Nat} {as : List α} :
    manyFrom p count c = ⟨c', .ok as⟩ ↔ Repeats p.Reads c as c' ∧ (c'.rest = [] ∨ p.Rejects c') := by
  induction hn : c.rest.length using Nat.strongRecOn generalizing c count as with
  | ind n ih =>
    -- Where nothing starts, nothing more is read.
    have hstop : c.rest = [] ∨ p.Rejects c → (⟨c, .ok []⟩ = (⟨c', .ok as⟩ : Outcome (List α)) ↔
        Repeats p.Reads c as c' ∧ (c'.rest = [] ∨ p.Rejects c')) := by
      intro hc
      constructor
      · rintro ⟨⟩
        exact ⟨.nil _, hc⟩
      · rintro ⟨hreads, -⟩
        cases hreads with
        | nil => rfl
        | cons head tail =>
          rcases hc with hc | hc
          · have := hp head
            simp [hc] at this
          · exact absurd head hc.fails.not_reads
    rw [manyFrom]
    by_cases hempty : c.rest = []
    · simp only [hempty, List.isEmpty_nil, if_true]
      exact hstop (.inl hempty)
    rw [if_neg (by simpa using hempty)]
    rcases h : p c with ⟨m, e | a⟩
    · by_cases hm : m.offset = c.offset
      · simp only [hm, if_true]
        exact hstop (.inr ⟨m, e, h, hm⟩)
      · simp only [hm, if_false]
        constructor
        · intro hfail
          cases hfail
        · rintro ⟨hreads, hend⟩
          cases hreads with
          | nil =>
            rcases hend with hend | ⟨m', e', h', hm'⟩
            · exact absurd hend hempty
            · rw [h] at h'
              cases h'
              exact absurd hm' hm
          | cons head tail => exact absurd head (Fails.not_reads ⟨m, e, h⟩)
    · have hlt : m.rest.length < c.rest.length := hp h
      have hmore : ∀ rest, manyFrom p (count + 1) m = ⟨c', .ok rest⟩ ↔
          Repeats p.Reads m rest c' ∧ (c'.rest = [] ∨ p.Rejects c') :=
        fun rest => ih _ (hn ▸ hlt) rfl
      simp only [hlt, if_true]
      constructor
      · intro hall
        rcases hrest : manyFrom p (count + 1) m with ⟨m', e | rest⟩
        · rw [hrest] at hall
          cases hall
        · rw [hrest] at hall
          cases hall
          obtain ⟨hreads, hend⟩ := (hmore rest).1 hrest
          exact ⟨.cons h hreads, hend⟩
      · rintro ⟨hreads, hend⟩
        cases hreads with
        | nil =>
          rcases hend with hend | hend
          · exact absurd hend hempty
          · exact absurd h hend.fails.not_reads
        | cons head tail =>
          obtain ⟨rfl, rfl⟩ := Reads.unique h head
          rw [(hmore _).2 ⟨tail, hend⟩]

/-- **A repetition reads items up to the end or to where none starts.** -/
theorem reads_many (hp : p.Advances) {as : List α} :
    (many p).Reads c as c' ↔ Repeats p.Reads c as c' ∧ (c'.rest = [] ∨ p.Rejects c') :=
  reads_manyFrom hp

end Parser

end Straightline
