/-
  Parsers stay in the text and come to an end.

  A parser only moves forward, and not beyond the end, whether it reads something or fails.
  Its loops need no bound of their own: each round that goes on has moved.

  * `Cursor.Reaches`: one point lies behind another in the same text;
  * `Parser.Bounded`: a parser ends at a point that its start reaches; each way to put
    parsers together keeps this (`Bounded.bind`, `Bounded.context`, `bounded_anyOf`,
    `Bounded.many`), so it holds of every grammar term (`Grammar.bounded`);
  * `Loops`: how a loop runs that nothing bounds.  Repetitions, the lines of a block and the
    blocks of a file are such loops (`Parser.unrolls_many`, `Program.unrolls_lines`,
    `Program.unrolls_blocks`);
  * `Grammar.parseAt_bounded`: a term that is started in the text ends in it.
-/
import Straightline.Proofs.Program

namespace Straightline

/-! ## Points further on -/

namespace Cursor

/-- The point `c'` lies in the same text as `c`, and not before it. -/
def Reaches (c c' : Cursor) : Prop :=
  ∃ n, n ≤ c.rest.length ∧ c' = c.advance n

variable {c c' m : Cursor} {t : Text} {n : Nat}

theorem reaches_advance (h : n ≤ c.rest.length) : c.Reaches (c.advance n) :=
  ⟨n, h, rfl⟩

theorem Reaches.refl (c : Cursor) : c.Reaches c :=
  ⟨0, Nat.zero_le _, rfl⟩

theorem Reaches.trans (h : c.Reaches m) (h' : m.Reaches c') : c.Reaches c' := by
  obtain ⟨n, hn, rfl⟩ := h
  obtain ⟨k, hk, rfl⟩ := h'
  rw [length_advance] at hk
  refine ⟨n + k, by omega, ?_⟩
  simp only [Cursor.advance, List.drop_drop, Nat.add_assoc]

theorem reaches_skip (s : Spaces) (c : Cursor) : c.Reaches (c.skip s) :=
  reaches_advance (s.count_le c.rest)

theorem reaches_skipBlank (c : Cursor) : c.Reaches c.skipBlank :=
  reaches_advance (blankCount_le false c.rest)

theorem Reaches.offset_le (h : c.Reaches c') : c.offset ≤ c'.offset := by
  obtain ⟨n, -, rfl⟩ := h
  exact Nat.le_add_right c.offset n

theorem Reaches.offset_lt (h : c.Reaches c') (hlt : c'.rest.length < c.rest.length) : c.offset < c'.offset := by
  obtain ⟨n, -, rfl⟩ := h
  rw [length_advance] at hlt
  exact Nat.lt_add_of_pos_right (by omega)

theorem Reaches.on (h : c.Reaches c') (hc : c.On t) : c'.On t := by
  obtain ⟨n, hn, rfl⟩ := h
  exact hc.advance hn

/-- The point has moved or it is the same. -/
theorem Reaches.length_lt (h : c.Reaches c') (hmoved : c'.offset ≠ c.offset) :
    c'.rest.length < c.rest.length := by
  obtain ⟨n, hn, rfl⟩ := h
  have hpos : n ≠ 0 := by
    rintro rfl
    exact hmoved rfl
  rw [length_advance]
  omega

theorem Reaches.not_length_lt (h : c.Reaches c') (hsame : c'.offset = c.offset) :
    ¬ c'.rest.length < c.rest.length := by
  obtain ⟨n, -, rfl⟩ := h
  have hzero : n = 0 := Nat.add_eq_left.1 hsame
  rw [length_advance, hzero]
  omega

theorem on_ofOffset (h : n ≤ t.length) : (ofOffset t n).On t :=
  ⟨h, rfl⟩

theorem On.eq_ofOffset (h : c.On t) : c = ofOffset t c.offset := by
  obtain ⟨o, s⟩ := c
  rw [ofOffset, ← h.rest]

end Cursor

/-! ## Tokens -/

namespace Token

variable {s : Text} {scan : Text → Scan}

/-- The number of bytes that a scanner went over, up to the fault if there is one. -/
def reach : Scan → Nat
  | .ok n => n
  | .error (n, _) => n

/-- The scanner looks for tokens and faults inside the text only. -/
def Bounded (scan : Text → Scan) : Prop :=
  ∀ s, reach (scan s) ≤ s.length

/-- The scanner finds faults at the front of the text only. -/
def FaultsInFront (scan : Text → Scan) : Prop :=
  ∀ ⦃s n e⦄, scan s = .error (n, e) → n = 0

theorem Fits.bounded (hfits : Fits scan) (hfaults : FaultsInFront scan) : Bounded scan := by
  intro s
  rcases h : scan s with ⟨n, e⟩ | n
  · rw [hfaults h]
    exact Nat.zero_le _
  · exact hfits h

theorem reach_identRest (length skip : Nat) (s : Text) :
    reach (identRest length skip s) ≤ length + s.length := by
  fun_induction identRest length skip s with
  | case1 length skip => exact Nat.le_add_right _ _
  | case2 length skip b s ih => simp only [List.length_cons]; omega
  | case3 length b s _ ih => simp only [List.length_cons]; omega
  | case4 length b s => exact Nat.le_add_right _ _
  | case5 length b s => exact Nat.le_add_right _ _
  | case6 length b s _ _ c n _ _ ih => simp only [List.length_cons]; omega
  | case7 length b s => exact Nat.le_add_right _ _

theorem bounded_ident : Bounded ident := by
  intro s
  rcases s with _ | ⟨b, s⟩
  · exact Nat.zero_le _
  · rw [ident]
    split
    · have h := reach_identRest 1 0 s
      rw [List.length_cons]
      omega
    · exact Nat.zero_le _

theorem faults_digits (length : Nat) : FaultsInFront (digits length) := by
  intro s n e h
  rcases s with _ | ⟨b, s⟩
  · cases h
    rfl
  · rw [digits] at h
    split at h
    · cases h
    · cases h
      rfl

theorem bounded_int : Bounded int := by
  refine Fits.bounded (fun _ _ h => (int_ok h).2) ?_
  intro s n e h
  rcases s with _ | ⟨b, s⟩
  · cases h
    rfl
  · rw [int] at h
    split at h
    · exact faults_digits 1 h
    · exact faults_digits 0 h

theorem reach_stringRest (length : Nat) (escaped : Bool) (s : Text) :
    reach (stringRest length escaped s) ≤ length + s.length := by
  fun_induction stringRest length escaped s with
  | case1 length => exact Nat.le_add_right _ _
  | case2 length b s ih => simp only [List.length_cons]; omega
  | case3 length s ih => simp only [List.length_cons]; omega
  | case4 length s => exact Nat.le_add_right _ _
  | case5 length s => simp only [reach, List.length_cons]; omega
  | case6 length b s _ _ _ ih => simp only [List.length_cons]; omega

theorem bounded_string : Bounded string := by
  intro s
  rcases s with _ | ⟨b, s⟩
  · exact Nat.zero_le _
  · rw [string]
    split
    · have h := reach_stringRest 1 false s
      rw [List.length_cons]
      omega
    · exact Nat.zero_le _

theorem bounded_const (w : Text) : Bounded (const w) := by
  refine (fits_const w).bounded ?_
  intro s n e h
  rw [const] at h
  split at h
  · cases h
  · cases h
    rfl

theorem bounded_keyword (w : Text) : Bounded (keyword w) := by
  refine (fits_keyword w).bounded ?_
  intro s n e h
  rw [keyword] at h
  split at h
  · cases h
  · cases h
    rfl

theorem bounded_eol : Bounded eol := by
  refine fits_eol.bounded ?_
  intro s n e h
  rw [eol] at h
  split at h
  · cases h
  · cases h
    rfl

end Token

/-! ## Parsers -/

namespace Parser

variable {α β : Type} {p : Parser α} {c : Cursor}

/-- The parser ends in the text and not before it started, whether it fails or not. -/
def Bounded (p : Parser α) : Prop :=
  ∀ c : Cursor, c.Reaches (p c).stop

theorem bounded_pure (a : α) : (pure a : Parser α).Bounded :=
  fun c => .refl c

theorem bounded_here : here.Bounded :=
  fun c => .refl c

theorem Bounded.bind {f : α → Parser β} (hp : p.Bounded) (hf : ∀ a, (f a).Bounded) :
    (p >>= f).Bounded := by
  intro c
  have hfirst := hp c
  show c.Reaches (andThen p f c).stop
  rw [andThen]
  rcases h : p c with ⟨m, e | a⟩
  · rw [h] at hfirst
    exact hfirst
  · rw [h] at hfirst
    exact hfirst.trans (hf a m)

theorem Bounded.map {f : α → β} (hp : p.Bounded) : (f <$> p).Bounded :=
  hp.bind fun a => bounded_pure (f a)

theorem Bounded.within (hp : p.Bounded) (f : Frame) : (p.within f).Bounded := by
  intro c
  have hend := hp c
  rw [Parser.within]
  rcases h : p c with ⟨m, e | a⟩
  · rw [h] at hend
    exact hend
  · rw [h] at hend
    exact hend

theorem Bounded.expecting (hp : p.Bounded) (e : Expectation) : (p.expecting e).Bounded := by
  intro c
  have hend := hp c
  rw [Parser.expecting]
  rcases h : p c with ⟨m, e' | a⟩
  · exact .refl c
  · rw [h] at hend
    exact hend

theorem bounded_token {scan : Text → Token.Scan} (hscan : Token.Bounded scan) : (token scan).Bounded := by
  intro c
  have hreach := hscan c.rest
  rw [token]
  rcases h : scan c.rest with ⟨n, e⟩ | n
  · rw [h] at hreach
    exact Cursor.reaches_advance hreach
  · rw [h] at hreach
    exact Cursor.reaches_advance hreach

/-- Where a failed part ends decides only whether the start or that end counts. -/
theorem reaches_ite {P : Prop} [Decidable P] {m : Cursor} (h : c.Reaches m) : c.Reaches (if P then c else m) := by
  split
  · exact .refl c
  · exact h

theorem Bounded.spaced (hp : p.Bounded) (s : Spaces) (k : Kind) : (spaced s k p).Bounded := by
  intro c
  have hend := (Cursor.reaches_skip s c).trans (hp (c.skip s))
  rw [Parser.spaced]
  rcases h : p (c.skip s) with ⟨m, e | a⟩
  · rw [h] at hend
    exact reaches_ite hend
  · rw [h] at hend
    exact hend

theorem bounded_maybe {o : Option (Parser α)} (ho : ∀ p ∈ o, p.Bounded) (f : Frame) : (maybe f o).Bounded := by
  rcases o with _ | p
  · exact fun c => .refl c
  · exact ((ho p rfl).within f).bind fun _ => bounded_pure ()

theorem Bounded.context {pre post : Option (Parser β)} (hpre : ∀ q ∈ pre, q.Bounded) (hp : p.Bounded)
    (hpost : ∀ q ∈ post, q.Bounded) : (context pre p post).Bounded := by
  intro c
  have hfirst := bounded_maybe hpre .before c
  rw [Parser.context]
  rcases hq : maybe .before pre c with ⟨m, e | u⟩
  · rw [hq] at hfirst
    exact hfirst
  · rw [hq] at hfirst
    have hend := hfirst.trans (hp m)
    rcases h : p m with ⟨m', e | a⟩
    · rw [h] at hend
      simp only [h]
      exact reaches_ite hend
    · rw [h] at hend
      simp only [h]
      exact hend.trans (((bounded_maybe hpost .after).bind fun _ => bounded_pure a) m')

theorem Bounded.optional (hp : p.Bounded) : p.optional.Bounded := by
  intro c
  have hend := hp c
  rw [Parser.optional]
  rcases h : p c with ⟨m, e | a⟩
  · rw [h] at hend
    simp only
    split
    · exact .refl c
    · exact hend
  · rw [h] at hend
    exact hend

section
variable {ps : List (Kind × Parser α)}

theorem bounded_allOfFrom (hps : ∀ p ∈ ps, p.2.Bounded) (index : Nat) : (allOfFrom index ps).Bounded := by
  induction ps generalizing index with
  | nil => exact bounded_pure []
  | cons q ps ih =>
    obtain ⟨hq, hps⟩ := List.forall_mem_cons.1 hps
    refine (hq.within _).bind fun a => ?_
    exact (ih hps (index + 1)).bind fun as => bounded_pure (a :: as)

theorem reaches_firstOf (hps : ∀ p ∈ ps, p.2.Bounded) : ∀ out ∈ firstOf c ps, c.Reaches out.stop := by
  induction ps with
  | nil => exact fun out h => nomatch h
  | cons q ps ih =>
    obtain ⟨hq, hps⟩ := List.forall_mem_cons.1 hps
    have hend := hq c
    have hrest := ih hps
    intro out hout
    rw [firstOf] at hout
    rcases h : q.2 c with ⟨m, e | a⟩
    · rw [h] at hend hout
      rcases hfirst : firstOf c ps with _ | ⟨m', e' | a⟩
      all_goals rw [hfirst] at hout hrest
      all_goals simp only at hout
      · split at hout
        · cases hout
        · cases hout
          exact hend
      · split at hout
        · exact hrest out hout
        · cases hout
          exact hend
      · exact hrest out hout
    · rw [h] at hend hout
      cases hout
      exact hend

theorem bounded_anyOf (hps : ∀ p ∈ ps, p.2.Bounded) : (anyOf ps).Bounded := by
  intro c
  have hfirst := reaches_firstOf (c := c) hps
  rw [anyOf]
  rcases h : firstOf c ps with _ | out
  · exact .refl c
  · exact hfirst out h

end

end Parser

/-! ## Loops -/

/-- What a round of a loop comes to. -/
inductive Round (α ω : Type) where
  /-- the end of the loop -/
  | done (out : Outcome ω)
  /-- an item, and the point at which the next round starts -/
  | next (a : α) (c : Cursor)

/-- Where a round ends. -/
def Round.stop {α ω : Type} : Round α ω → Cursor
  | done out => out.stop
  | next _ c => c

/-- The outcome with another result, if there is one. -/
def Outcome.map {α β : Type} (f : α → β) (out : Outcome α) : Outcome β :=
  ⟨out.stop, out.result.map f⟩

section
variable {α ω : Type} (round : Nat → Cursor → Round α ω) (push : α → ω → ω)

/-- How a loop runs that nothing bounds: after `count` rounds it stands at a point, and it ends
    with an outcome after `more` further ones. -/
inductive Loops : (more count : Nat) → Cursor → Outcome ω → Prop where
  | done {count : Nat} {c : Cursor} {out : Outcome ω} (h : round count c = .done out) : Loops 1 count c out
  | next {more count : Nat} {c m : Cursor} {a : α} {out : Outcome ω} (h : round count c = .next a m)
      (tail : Loops more (count + 1) m out) : Loops (more + 1) count c (out.map (push a))

/-- The loop ends with the outcome, after at most one round for each byte that is left and one
    for the end. -/
def Ends (c : Cursor) (out : Outcome ω) : Prop :=
  ∃ more, more ≤ c.rest.length + 1 ∧ Loops round push more 0 c out

/-- From each point the function `run` does what a round does, and then what it does from the
    point of the next round, which lies further on. -/
def Unrolls (run : Nat → Cursor → Outcome ω) : Prop :=
  ∀ count c, round count c = .done (run count c) ∨
    ∃ a m, round count c = .next a m ∧ m.rest.length < c.rest.length ∧
      run count c = (run (count + 1) m).map (push a)

variable {round push}

/-- A loop that moves in each round comes to its end. -/
theorem Unrolls.loops {run : Nat → Cursor → Outcome ω} (hrun : Unrolls round push run) (count : Nat) (c : Cursor) :
    ∃ more, more ≤ c.rest.length + 1 ∧ Loops round push more count c (run count c) := by
  induction hn : c.rest.length using Nat.strongRecOn generalizing c count with
  | ind n ih =>
    rcases hrun count c with hdone | ⟨a, m, hnext, hlt, heq⟩
    · exact ⟨1, by omega, .done hdone⟩
    · obtain ⟨more, hmore, htail⟩ := ih m.rest.length (hn ▸ hlt) (count + 1) m rfl
      rw [heq]
      exact ⟨more + 1, by omega, .next hnext htail⟩

theorem Unrolls.ends {run : Nat → Cursor → Outcome ω} (hrun : Unrolls round push run) (c : Cursor) :
    Ends round push c (run 0 c) :=
  hrun.loops 0 c

/-- A loop stays in the text if each of its rounds does. -/
theorem Loops.reaches {more count : Nat} {c : Cursor} {out : Outcome ω} (h : Loops round push more count c out)
    (hround : ∀ (count : Nat) (c : Cursor), c.Reaches (round count c).stop) : c.Reaches out.stop := by
  induction h with
  | @done count c out hdone =>
    have hend := hround count c
    rw [hdone] at hend
    exact hend
  | @next more count c m a out hnext _ ih =>
    have hend := hround count c
    rw [hnext] at hend
    exact hend.trans ih

theorem Unrolls.bounded {run : Nat → Cursor → Outcome ω} (hrun : Unrolls round push run)
    (hround : ∀ (count : Nat) (c : Cursor), c.Reaches (round count c).stop) (count : Nat) :
    Parser.Bounded (run count) := by
  intro c
  obtain ⟨more, -, hloops⟩ := hrun.loops count c
  exact hloops.reaches hround

end

namespace Parser

variable {α : Type} {p : Parser α}

/-- A round of a repetition: the text is at its end, or the part did not move, or it failed, or
    it is an item. -/
def itemRound (p : Parser α) (count : Nat) (c : Cursor) : Round α (List α) :=
  if c.rest.isEmpty then .done ⟨c, .ok []⟩
  else if (p c).stop.offset = c.offset then .done ⟨c, .ok []⟩
  else
    match (p c).result with
    | .error e => .done ⟨(p c).stop, .error (e.within (.item count))⟩
    | .ok a => .next a (p c).stop

theorem unrolls_many (hp : p.Bounded) : Unrolls (itemRound p) List.cons (manyFrom p) := by
  intro count c
  have hend := hp c
  rw [itemRound, manyFrom]
  by_cases hempty : c.rest.isEmpty = true
  · rw [if_pos hempty, if_pos hempty]
    exact .inl rfl
  rw [if_neg hempty, if_neg hempty]
  rcases h : p c with ⟨m, e | a⟩
  · rw [h] at hend
    left
    by_cases hm : m.offset = c.offset
    · simp only [hm, if_true]
    · simp only [hm, if_false]
  · rw [h] at hend
    by_cases hm : m.offset = c.offset
    · left
      have hstay := hend.not_length_lt hm
      simp only at hstay
      simp only [hm, hstay, if_true, if_false]
    · right
      have hlt := hend.length_lt hm
      simp only at hlt
      refine ⟨a, m, by simp only [hm, if_false], hlt, ?_⟩
      simp only [hlt, if_true]
      rcases manyFrom p (count + 1) m with ⟨m', e | as⟩
      · rfl
      · rfl

theorem Bounded.many (hp : p.Bounded) : (many p).Bounded := by
  refine (unrolls_many hp).bounded (fun count c => ?_) 0
  rw [itemRound]
  split
  · exact .refl c
  split
  · exact .refl c
  rcases (p c).result with e | a
  · exact hp c
  · exact hp c

end Parser

/-! ## Programs -/

namespace Program

open Straightline.Parser

theorem bounded_ident : ident.Bounded := bounded_token Token.bounded_ident

theorem bounded_int : int.Bounded := bounded_token Token.bounded_int

theorem bounded_string : string.Bounded := bounded_token Token.bounded_string

theorem bounded_const (t : Text) : (const t).Bounded := bounded_token (Token.bounded_const t)

theorem bounded_keyword (w : Text) : (keyword w).Bounded := bounded_token (Token.bounded_keyword w)

theorem bounded_eol : eol.Bounded := bounded_token Token.bounded_eol

theorem bounded_name : name.Bounded := bounded_ident.spaced .tab .ident

theorem bounded_arg : arg.Bounded := by
  refine bounded_anyOf ?_
  simp only [List.forall_mem_cons]
  exact ⟨bounded_ident.map, bounded_int.map, bounded_string.map, by simp⟩

theorem bounded_operator : operator.Bounded := by
  refine Bounded.context ?_ bounded_name (by simp)
  rintro _ ⟨⟩
  exact (bounded_const _).spaced .tab .const

theorem bounded_instr : instr.Bounded := by
  refine bounded_here.bind fun start => ?_
  refine (bounded_ident.expecting _).bind fun head => ?_
  refine (bounded_operator.optional.within _).bind fun op => ?_
  refine ((bounded_arg.spaced .tab .arg).many.within _).bind fun args => ?_
  refine bounded_here.bind fun stop => ?_
  rcases op with _ | op
  · exact bounded_pure _
  · exact bounded_pure _

theorem bounded_directive (w : Text) : (directive w).Bounded := by
  refine bounded_here.bind fun start => ?_
  refine (bounded_keyword w).bind fun _ => ?_
  refine (bounded_name.many.within _).bind fun temps => ?_
  exact bounded_here.bind fun stop => bounded_pure _

theorem bounded_stmt : stmt.Bounded := by
  refine bounded_anyOf ?_
  simp only [List.forall_mem_cons]
  exact ⟨(bounded_directive _).map, (bounded_directive _).map, bounded_instr.map, by simp⟩

theorem bounded_stmtLine : stmtLine.Bounded :=
  (bounded_stmt.within _).bind fun s => (bounded_eol.within _).bind fun _ => bounded_pure s

theorem bounded_header : header.Bounded := by
  refine ((bounded_keyword _).within _).bind fun _ => ?_
  refine (bounded_name.within _).bind fun name => ?_
  exact (bounded_eol.within _).bind fun _ => bounded_pure name

/-- A round of the lines of a block: the text is at its end, or another block opens, or the
    line fails, or it is a statement. -/
def lineRound (count : Nat) (c : Cursor) : Round Tree.Stmt (List Tree.Stmt × Nat) :=
  if c.skipBlank.rest.isEmpty then .done ⟨c.skipBlank, .ok ([], c.offset)⟩
  else if opensBlock c.skipBlank then .done ⟨c, .ok ([], c.offset)⟩
  else
    match stmtLine.within (.line count) c.skipBlank with
    | ⟨stop, .error e⟩ => .done ⟨stop, .error e⟩
    | ⟨stop, .ok s⟩ => .next s stop

/-- A line in front of others. -/
def pushLine (s : Tree.Stmt) (ls : List Tree.Stmt × Nat) : List Tree.Stmt × Nat :=
  (s :: ls.1, ls.2)

theorem unrolls_lines : Unrolls lineRound pushLine linesFrom := by
  intro count c
  rw [lineRound, linesFrom]
  by_cases hempty : c.skipBlank.rest.isEmpty = true
  · rw [if_pos hempty, if_pos hempty]
    exact .inl rfl
  rw [if_neg hempty, if_neg hempty]
  by_cases hblock : opensBlock c.skipBlank = true
  · rw [if_pos hblock, if_pos hblock]
    exact .inl rfl
  rw [if_neg hblock, if_neg hblock]
  rcases h : stmtLine.within (.line count) c.skipBlank with ⟨m, e | s⟩
  · exact .inl rfl
  · have hlt : m.rest.length < c.rest.length :=
      Nat.lt_of_lt_of_le (advances_stmtLine (reads_within.1 h)) c.length_skipBlank_le
    refine .inr ⟨s, m, rfl, hlt, ?_⟩
    simp only [hlt, if_true]
    rcases linesFrom (count + 1) m with ⟨m', e | ⟨ss, last⟩⟩
    · rfl
    · rfl

theorem bounded_lines (count : Nat) : Bounded (linesFrom count) := by
  refine unrolls_lines.bounded (fun count c => ?_) count
  have hblank := Cursor.reaches_skipBlank c
  have hline := hblank.trans (bounded_stmtLine.within (.line count) c.skipBlank)
  rw [lineRound]
  split
  · exact hblank
  split
  · exact .refl c
  rcases h : stmtLine.within (.line count) c.skipBlank with ⟨m, e | s⟩
  · rw [h] at hline
    exact hline
  · rw [h] at hline
    exact hline

theorem bounded_block : block.Bounded := by
  refine bounded_here.bind fun start => ?_
  refine bounded_header.bind fun name => ?_
  exact (bounded_lines 0).bind fun ls => bounded_pure _

/-- A round of the blocks of a file: the text is at its end, or the block fails, or it is one. -/
def blockRound (count : Nat) (c : Cursor) : Round Tree.Block (List Tree.Block) :=
  if c.rest.isEmpty then .done ⟨c, .ok []⟩
  else
    match block.within (.block count) c with
    | ⟨stop, .error e⟩ => .done ⟨stop, .error e⟩
    | ⟨stop, .ok b⟩ => .next b stop.skipBlank

theorem unrolls_blocks : Unrolls blockRound List.cons blocksFrom := by
  intro count c
  rw [blockRound, blocksFrom]
  by_cases hempty : c.rest.isEmpty = true
  · rw [if_pos hempty, if_pos hempty]
    exact .inl rfl
  rw [if_neg hempty, if_neg hempty]
  rcases h : block.within (.block count) c with ⟨m, e | b⟩
  · exact .inl rfl
  · have hlt : m.skipBlank.rest.length < c.rest.length :=
      Nat.lt_of_le_of_lt m.length_skipBlank_le (advances_block (reads_within.1 h))
    refine .inr ⟨b, m.skipBlank, rfl, hlt, ?_⟩
    simp only [hlt, if_true]
    rcases blocksFrom (count + 1) m.skipBlank with ⟨m', e | bs⟩
    · rfl
    · rfl

theorem bounded_blocks (count : Nat) : Bounded (blocksFrom count) := by
  refine unrolls_blocks.bounded (fun count c => ?_) count
  have hblock := bounded_block.within (.block count) c
  rw [blockRound]
  split
  · exact .refl c
  rcases h : block.within (.block count) c with ⟨m, e | b⟩
  · rw [h] at hblock
    exact hblock
  · rw [h] at hblock
    exact hblock.trans (Cursor.reaches_skipBlank m)

theorem bounded_file : file.Bounded := by
  intro c
  have hend := (Cursor.reaches_skipBlank c).trans (bounded_blocks 0 c.skipBlank)
  rw [file]
  rcases h : blocksFrom 0 c.skipBlank with ⟨m, e | bs⟩
  · rw [h] at hend
    exact hend
  · rw [h] at hend
    exact hend

end Program

/-! ## Grammar terms -/

namespace Grammar

open Straightline.Parser Straightline.Program

mutual

/-- **The parser of every term stays in the text.** -/
theorem bounded : (g : Grammar) → g.parser.Bounded
  | none => bounded_pure _
  | file => bounded_file.map
  | block => bounded_block.map
  | stmt => bounded_stmt.map
  | instr => bounded_instr.map
  | live => (bounded_directive _).map
  | out => (bounded_directive _).map
  | arg => bounded_arg.map
  | ident => bounded_ident.map
  | int => bounded_int.map
  | string => bounded_string.map
  | eol => bounded_eol.map
  | const t => (bounded_const t).map
  | keyword w => (bounded_keyword w).map
  | spaced skip g => (bounded g).spaced skip g.kind
  | context pre g post => Bounded.context (bounded_parserOf pre) (bounded g) (bounded_parserOf post)
  | allOf gs => Bounded.map (bounded_allOfFrom (bounded_parsersOf gs) 0)
  | anyOf gs => bounded_anyOf (bounded_parsersOf gs)
  | many g => (bounded g).many.map

theorem bounded_parserOf : (o : Option Grammar) → ∀ p ∈ parserOf o, p.Bounded
  | .none => by
    intro p hp
    cases hp
  | some g => by
    intro p hp
    cases hp
    exact bounded g

theorem bounded_parsersOf : (gs : List Grammar) → ∀ p ∈ parsersOf gs, p.2.Bounded
  | [] => by
    intro p hp
    cases hp
  | g :: gs => by
    intro p hp
    rcases List.mem_cons.1 hp with rfl | hp
    · exact bounded g
    · exact bounded_parsersOf gs p hp

end

/-- What a term reads at an offset is what its parser reads there. -/
theorem parseAt_eq_ok_iff {g : Grammar} {t : Text} {start : Nat} (hstart : start ≤ t.length) {stop : Int}
    {node : Tree.Node} : g.parseAt t start = .ok ⟨stop, .ok node⟩ ↔
      ∃ c', g.parser.Reads (.ofOffset t start) node c' ∧ stop = c'.offset := by
  have hparse : g.parseAt t start = .ok ⟨(g.parser (.ofOffset t start)).stop.offset,
      (g.parser (.ofOffset t start)).result⟩ := if_pos hstart
  rw [hparse]
  rcases h : g.parser (.ofOffset t start) with ⟨c', result⟩
  constructor
  · rintro ⟨⟩
    exact ⟨c', h, rfl⟩
  · rintro ⟨m, hread, rfl⟩
    rw [Reads, h] at hread
    cases hread
    rfl

/-- **A term that is started in the text ends in it**, with a node or a failure, and not before it
    started.  The loops below it (items of a repetition, lines of a block, blocks of a file) end
    by themselves from every point of the text. -/
theorem parseAt_bounded (g : Grammar) (t : Text) (start : Nat) (hstart : start ≤ t.length) :
    (∃ (i : Nat) (result : Except Failure Tree.Node), g.parseAt t start = .ok ⟨i, result⟩ ∧
      start ≤ i ∧ i ≤ t.length ∧ g.parser (.ofOffset t start) = ⟨.ofOffset t i, result⟩) ∧
    Ends (itemRound g.parser) List.cons (.ofOffset t start) (Parser.many g.parser (.ofOffset t start)) ∧
    Ends lineRound pushLine (.ofOffset t start) (linesFrom 0 (.ofOffset t start)) ∧
    Ends blockRound List.cons (.ofOffset t start) (blocksFrom 0 (.ofOffset t start)) := by
  refine ⟨?_, (unrolls_many g.bounded).ends _, unrolls_lines.ends _, unrolls_blocks.ends _⟩
  have hend := g.bounded (.ofOffset t start)
  have hon := hend.on (Cursor.on_ofOffset hstart)
  refine ⟨_, _, if_pos hstart, hend.offset_le, hon.le, ?_⟩
  rw [← hon.eq_ofOffset]

/-- Nothing at all any number of times, and a string that a backslash at the end of the text
    leaves open. -/
theorem parseAt_bounded_backslash :
    ∃ (i : Nat) (result : Except Failure Tree.Node),
      (many (allOf [many none, string])).parseAt [Quoted.quote, Quoted.backslash] (0 : Nat) = .ok ⟨i, result⟩ ∧
        i ≤ 2 := by
  obtain ⟨⟨i, result, hparse, -, hle, -⟩, -⟩ :=
    parseAt_bounded (many (allOf [many none, string])) [Quoted.quote, Quoted.backslash] 0 (Nat.zero_le _)
  exact ⟨i, result, hparse, hle⟩

end Grammar

end Straightline
