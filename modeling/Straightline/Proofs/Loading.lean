/-
  Loading a text.

  * `fillLiveOut_spec`: filling the live-out sets of a lowered block never fails;
  * `load_sound`: what is loaded from a text was written in it, block by block;
  * `lowerText_complete`, `load_complete`: a printed program of blocks that can be lowered
    is lowered and loaded.
-/
import Straightline.Pipeline
import Straightline.Proofs.Lowering
import Straightline.Proofs.Program

namespace Straightline

theorem mapM_eq_ok_iff {ε α β : Type} {f : α → Except ε β} {as : List α} {bs : List β} :
    as.mapM f = .ok bs ↔ List.Forall₂ (fun a b => f a = .ok b) as bs := by
  induction as generalizing bs with
  | nil =>
    rw [List.mapM_nil, List.forall₂_nil_left_iff]
    exact ⟨fun h => by cases h; rfl, fun h => by subst h; rfl⟩
  | cons a as ih =>
    rw [List.mapM_cons, List.forall₂_cons_left_iff]
    simp only [bind_eq_ok_iff, ih]
    constructor
    · rintro ⟨b, hb, bs', hbs, h⟩
      cases h
      exact ⟨b, bs', hb, hbs, rfl⟩
    · rintro ⟨b, bs', hb, hbs, rfl⟩
      exact ⟨b, hb, bs', hbs, rfl⟩

variable {b : LoweredBlock} {d : Draft} {name text : Text}

/-- What filling the live-out sets of a block does to its code: nothing, or it makes them
    exact for some temps live at the end. -/
structure Filled (b : LoweredBlock) (d : Draft) (code : List Instr) : Prop where
  bare : code.map Instr.bare = b.block.code.map Instr.bare
  live : code = b.block.code ∨
    ∃ exit, List.Forall₂ b.block.Names exit d.exit ∧ ExactLiveness exit code
  given : d.explicit = true → code = b.block.code

/-- **The live-out sets of a lowered block can be filled.** -/
theorem fillLiveOut_spec (hof : b.IsOf d) (hd : d.Fits) :
    ∃ code, fillLiveOut b = .ok { b with block := { b.block with code } } ∧ Filled b d code := by
  have hkeep : Filled b d b.block.code := ⟨rfl, .inl rfl, fun _ => rfl⟩
  rw [fillLiveOut]
  split
  · exact ⟨b.block.code, rfl, hkeep⟩
  rename_i hctl
  cases hexp : d.explicit with
  | true =>
    rw [hof.given hexp]
    exact ⟨b.block.code, rfl, hkeep⟩
  | false =>
    obtain ⟨exit, hlive, hexit⟩ := hof.backward hexp
    have htemps : ∀ t ∈ exit, b.block.hasTemp t = true := by
      intro t ht
      obtain ⟨x, -, hx⟩ := exists_of_forall₂_left hexit ht
      exact Block.hasTemp_iff.2 ⟨x, hx⟩
    obtain ⟨code, hfill, hbare, hexact⟩ := Block.computeLiveness_spec
      (Block.check_of_names hof.code hd) (Bool.eq_false_iff.2 hctl) htemps
    refine ⟨code, ?_, hbare, .inr ⟨exit, hexit, hexact⟩, by simp [hexp]⟩
    rw [hlive, Block.fillLiveness, hfill]

/-- The loaded block is what the draft says, its live-out sets filled. -/
def LoadedFrom (d : Draft) (b' : LoweredBlock) : Prop :=
  ∃ b code, b.IsOf d ∧ Filled b d code ∧ b' = { b with block := { b.block with code } }

theorem forall₂_fill {bs : List LoweredBlock} {ds : List Draft} (h : List.Forall₂ LoweredBlock.IsOf bs ds)
    (hds : ∀ d ∈ ds, d.Fits) :
    ∃ bs', bs.mapM fillLiveOut = .ok bs' ∧ List.Forall₂ LoadedFrom ds bs' := by
  induction h with
  | nil => exact ⟨[], rfl, .nil⟩
  | cons hof _ ih =>
    obtain ⟨hd, hds⟩ := List.forall_mem_cons.1 hds
    obtain ⟨code, hfill, hfilled⟩ := fillLiveOut_spec hof hd
    obtain ⟨bs', hbs', hloaded⟩ := ih hds
    refine ⟨_ :: bs', ?_, .cons ⟨_, code, hof, hfilled, rfl⟩ hloaded⟩
    exact mapM_eq_ok_iff.2 (.cons hfill (mapM_eq_ok_iff.1 hbs'))

theorem fits_of_drafts {ws : List Written.Block} {ds : List Draft}
    (h : List.Forall₂ Written.Block.Drafts ws ds) : ∀ d ∈ ds, d.Fits := by
  induction h with
  | nil => simp
  | cons hdraft _ ih => exact List.forall_mem_cons.2 ⟨hdraft.fits (Draft.fits_new _), ih⟩

/-- **What is loaded was written.** -/
theorem load_sound {bs : List LoweredBlock} (h : load name text = .ok bs) :
    ∃ ws ds, List.Forall₂ Written.Block.Drafts ws ds ∧ List.Forall₂ LoadedFrom ds bs ∧
      (ws.map (·.name)).Nodup ∧ ∀ w ∈ ws, w.Lexical := by
  simp only [load, lowerText, bind_eq_ok_iff, mapError_eq_ok_iff] at h
  obtain ⟨lowered, ⟨f, hf, hlower⟩, hfill⟩ := h
  obtain ⟨ws, hspell, hlex⟩ := Source.parse_spells hf
  obtain ⟨⟨ds, hdrafts, hofs⟩, hnodup⟩ := Lowering.blocks_sound hspell hlower
  obtain ⟨bs', hbs', hloaded⟩ := forall₂_fill hofs (fits_of_drafts hdrafts)
  obtain rfl : bs' = bs := Except.ok.inj (hbs'.symm.trans hfill)
  exact ⟨ws, ds, hdrafts, hloaded, hnodup, hlex⟩

/-- A printed program of blocks that can be lowered is. -/
theorem lowerText_complete {ws : List Written.Block} {ds : List Draft} (hws : ∀ w ∈ ws, w.Plain)
    (hdrafts : List.Forall₂ Written.Block.Drafts ws ds)
    (hnodup : (ws.map (·.name)).Nodup) (name : Text) :
    ∃ bs, lowerText name (Written.program ws) = .ok bs ∧ List.Forall₂ LoweredBlock.IsOf bs ds := by
  obtain ⟨f, hf, hspell⟩ := Source.parse_yields (.ofText name (Written.program ws)) hws rfl
  obtain ⟨bs, hlower, hofs⟩ := Lowering.blocks_complete hspell hdrafts hnodup
  refine ⟨bs, ?_, hofs⟩
  simp only [lowerText, bind_eq_ok_iff, mapError_eq_ok_iff]
  exact ⟨f, hf, hlower⟩

/-- **A printed program of blocks that can be lowered is loaded.** -/
theorem load_complete {ws : List Written.Block} {ds : List Draft} (hws : ∀ w ∈ ws, w.Plain)
    (hdrafts : List.Forall₂ Written.Block.Drafts ws ds)
    (hnodup : (ws.map (·.name)).Nodup) (name : Text) :
    ∃ bs, load name (Written.program ws) = .ok bs ∧ List.Forall₂ LoadedFrom ds bs := by
  obtain ⟨lowered, hlower, hofs⟩ := lowerText_complete hws hdrafts hnodup name
  obtain ⟨bs, hbs, hloaded⟩ := forall₂_fill hofs (fits_of_drafts hdrafts)
  exact ⟨bs, bind_eq_ok_iff.2 ⟨lowered, hlower, hbs⟩, hloaded⟩

end Straightline
