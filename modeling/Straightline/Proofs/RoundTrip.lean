/-
  A printed program reads back.

  Printing and reading again numbers the temps of a block anew, in the order in which
  they are met.  Nothing else changes.

  * `Block.ReadsLike`: two blocks that say the same on names, and whose temps correspond
    one to one;
  * `Block.SameEntries`: two blocks that are on the names of the same entries, which
    therefore read alike (`SameEntries.readsLike`);
  * `Written.exists_program`: texts of blocks that can be read make a program;
  * `exists_reloaded`: what is printed of a text is loaded again, with the same entries, so
    that it reads like the text (`load_printBlocks`).
-/
import Mathlib
import Straightline.CommandLine.Run
import Straightline.Proofs.Listing
import Straightline.Proofs.Renaming

namespace Straightline

/-! ## Reading alike -/

namespace Block

variable {b b' : Block} {t u : Temp} {x : Text} {i i' : Instr} {e : Entry}

/-- The names live after the instruction. -/
def liveNames (b : Block) (i : Instr) : Set Text :=
  {x | ∃ t, i.liveOut.contains t = true ∧ b.tempName t = x}

/-- The temps in the code of the block and its live-out sets. -/
def occurring (b : Block) : Set Temp :=
  {t | ∃ i ∈ b.code, i.Occurs t}

/-- The blocks say the same on names, and a renaming of temps takes one to the other. -/
structure ReadsLike (b b' : Block) : Prop where
  name : b'.name = b.name
  code : List.Forall₂ (fun i i' => i'.onNames b'.tempName = i.onNames b.tempName ∧
    b'.liveNames i' = b.liveNames i) b.code b'.code
  renumbering : ∃ ρ : Temp → Temp, Set.BijOn ρ b.occurring b'.occurring ∧
    (∀ t ∈ b.occurring, b'.tempName (ρ t) = b.tempName t) ∧ List.Forall₂ (Instr.Renamed ρ) b.code b'.code

theorem InstrNames.liveNames_eq (h : b.InstrNames i e) : b.liveNames i = {x | x ∈ e.live} := by
  obtain ⟨ts, hts, hlive⟩ := h.live
  ext x
  constructor
  · rintro ⟨t, ht, rfl⟩
    obtain ⟨x, hx, hname⟩ := exists_of_forall₂_left hts ((hlive t).1 ht)
    rwa [hname.tempName]
  · intro hx
    obtain ⟨t, ht, hname⟩ := exists_of_forall₂_right hts hx
    exact ⟨t, (hlive t).2 ht, hname.tempName⟩

/-! ## Numbering anew -/

theorem names_of_lookup? (h : b.lookup? x = some t) : b.Names t x := by
  rcases hk : b.names.idxOf? x with _ | k
  · simp [lookup?, hk] at h
  obtain rfl : (k : Temp) = t := by simpa [lookup?, hk] using h
  obtain ⟨hlt, hx, -⟩ := List.findIdx?_eq_some_iff_getElem.1 hk
  exact ⟨k, rfl, by rw [List.getElem?_eq_getElem hlt, beq_iff_eq.1 hx]⟩

theorem lookup?_of_names (hb : b.Indexed) (h : b.Names t x) : b.lookup? x = some t := by
  obtain ⟨u, hu⟩ : ∃ u, b.lookup? x = some u := by
    have hmem : x ∈ b.names := exists_names_iff.1 ⟨t, h⟩
    obtain ⟨k, hk⟩ := Option.isSome_iff_exists.1 (List.isSome_idxOf?.2 hmem)
    exact ⟨k, by simp [lookup?, hk]⟩
  rw [hu, hb.temp_unique (names_of_lookup? hu) h]

/-- The temp of the other block that has the same name. -/
def renumber (b b' : Block) (t : Temp) : Temp :=
  (b'.lookup? (b.tempName t)).getD t

theorem renumber_eq (hb : b'.Indexed) (h : b.Names t x) (h' : b'.Names u x) : b.renumber b' t = u := by
  rw [renumber, h.tempName, lookup?_of_names hb h', Option.getD_some]

theorem map_renumber (hb : b'.Indexed) {s s' : Option Temp} {o : Option Text} (h : Option.Rel b.Names s o)
    (h' : Option.Rel b'.Names s' o) : s' = s.map (b.renumber b') := by
  cases h with
  | none =>
    cases h' with
    | none => rfl
  | some h =>
    cases h' with
    | some h' => rw [Option.map_some, renumber_eq hb h h']

theorem InstrNames.renamed (hb : b'.Indexed) (h : b.InstrNames i e) (h' : b'.InstrNames i' e) :
    Instr.Renamed (b.renumber b') i i' := by
  obtain ⟨ts, hts, hlive⟩ := h.live
  obtain ⟨ts', hts', hlive'⟩ := h'.live
  constructor
  · have hfirst := map_renumber hb h.args.first h'.args.first
    have hsecond := map_renumber hb h.args.second h'.args.second
    have hthird := map_renumber hb h.args.third h'.args.third
    rw [Slots.mapSome, ← hfirst, ← hsecond, ← hthird]
  · intro t
    rw [hlive']
    constructor
    · intro ht
      obtain ⟨x, hx, hname'⟩ := exists_of_forall₂_left hts' ht
      obtain ⟨u, hu, hname⟩ := exists_of_forall₂_right hts hx
      exact ⟨u, (hlive u).2 hu, renumber_eq hb hname hname'⟩
    · rintro ⟨u, hu, rfl⟩
      obtain ⟨x, hx, hname⟩ := exists_of_forall₂_left hts ((hlive u).1 hu)
      obtain ⟨t, ht, hname'⟩ := exists_of_forall₂_right hts' hx
      rwa [renumber_eq hb hname hname']

/-- What stands in the code has a name, and so has what stands there in the other block. -/
theorem InstrNames.occurs (h : b.InstrNames i e) (h' : b'.InstrNames i' e) (ht : i.Occurs t) :
    ∃ x u, b.Names t x ∧ b'.Names u x := by
  have hslot : ∀ {s s' : Option Temp} {o : Option Text}, Option.Rel b.Names s o → Option.Rel b'.Names s' o →
      some t = s → ∃ x u, b.Names t x ∧ b'.Names u x := by
    intro s s' o hrel hrel' hs
    subst hs
    cases hrel with
    | some hname =>
      cases hrel' with
      | some hname' => exact ⟨_, _, hname, hname'⟩
  rcases ht with ht | ht
  · simp only [Slots.toList, List.mem_cons, List.not_mem_nil, or_false] at ht
    rcases ht with ht | ht | ht
    · exact hslot h.args.first h'.args.first ht
    · exact hslot h.args.second h'.args.second ht
    · exact hslot h.args.third h'.args.third ht
  · obtain ⟨ts, hts, hlive⟩ := h.live
    obtain ⟨ts', hts', -⟩ := h'.live
    obtain ⟨x, hx, hname⟩ := exists_of_forall₂_left hts ((hlive t).1 ht)
    obtain ⟨u, -, hname'⟩ := exists_of_forall₂_right hts' hx
    exact ⟨x, u, hname, hname'⟩

theorem image_occurring {ρ : Temp → Temp} (h : List.Forall₂ (Instr.Renamed ρ) b.code b'.code) :
    ρ '' b.occurring = b'.occurring := by
  ext t
  constructor
  · rintro ⟨u, ⟨i, hi, hu⟩, rfl⟩
    obtain ⟨i', hi', hren⟩ := exists_of_forall₂_left h hi
    exact ⟨i', hi', hren.occurs_iff.2 ⟨u, hu, rfl⟩⟩
  · rintro ⟨i', hi', ht⟩
    obtain ⟨i, hi, hren⟩ := exists_of_forall₂_right h hi'
    obtain ⟨u, hu, rfl⟩ := hren.occurs_iff.1 ht
    exact ⟨u, ⟨i, hi, hu⟩, rfl⟩

/-- The blocks have one name, and are on the names of the same entries. -/
structure SameEntries (b b' : Block) : Prop where
  name : b'.name = b.name
  left : b.Indexed
  right : b'.Indexed
  code : List.Forall₂ (fun i i' => ∃ e, b.InstrNames i e ∧ b'.InstrNames i' e) b.code b'.code

namespace SameEntries

variable (h : b.SameEntries b')
include h

theorem renamed : List.Forall₂ (Instr.Renamed (b.renumber b')) b.code b'.code := by
  refine h.code.imp ?_
  rintro i i' ⟨e, hi, hi'⟩
  exact hi.renamed h.right hi'

/-- Temps that correspond have one name. -/
theorem names (ht : t ∈ b.occurring) : ∃ x, b.Names t x ∧ b'.Names (b.renumber b' t) x := by
  obtain ⟨i, hi, ht⟩ := ht
  obtain ⟨i', -, e, hie, hie'⟩ := exists_of_forall₂_left h.code hi
  obtain ⟨x, u, hx, hx'⟩ := hie.occurs hie' ht
  exact ⟨x, hx, by rwa [renumber_eq h.right hx hx']⟩

/-- **No two temps get one number**: they would have one name in `b'`, and in `b` no two
    temps share a name. -/
theorem injOn_renumber : Set.InjOn (b.renumber b') b.occurring := by
  intro t ht u hu heq
  obtain ⟨x, hx, hx'⟩ := h.names ht
  obtain ⟨y, hy, hy'⟩ := h.names hu
  rw [heq] at hx'
  obtain rfl := hx'.name_unique hy'
  exact h.left.temp_unique hx hy

/-- **Blocks on the names of the same entries read alike.** -/
theorem readsLike : b.ReadsLike b' := by
  refine ⟨h.name, ?_, b.renumber b', ?_, ?_, h.renamed⟩
  · refine h.code.imp ?_
    rintro i i' ⟨e, hi, hi'⟩
    exact ⟨hi'.onNames_eq.trans hi.onNames_eq.symm, hi'.liveNames_eq.trans hi.liveNames_eq.symm⟩
  · rw [← image_occurring h.renamed]
    exact h.injOn_renumber.bijOn_image
  · intro t ht
    obtain ⟨x, hx, hx'⟩ := h.names ht
    rw [hx.tempName, hx'.tempName]

end SameEntries

end Block

/-! ## Programs -/

variable {name text : Text} {bs : List LoweredBlock}

theorem map_eq_map_of_forall₂ {α β γ : Type} {f : α → γ} {g : β → γ} {as : List α} {bs : List β}
    (h : List.Forall₂ (fun a b => f a = g b) as bs) : as.map f = bs.map g := by
  induction h with
  | nil => rfl
  | cons hfg _ ih => rw [List.map_cons, List.map_cons, hfg, ih]

theorem LoadedFrom.block_name {d : Draft} {b : LoweredBlock} (h : LoadedFrom d b) : b.block.name = d.name := by
  obtain ⟨b, code, hof, -, rfl⟩ := h
  exact hof.name

/-- The names of the blocks of a text are distinct. -/
theorem nodup_of_load (h : load name text = .ok bs) : (bs.map (·.block.name)).Nodup := by
  obtain ⟨ws, ds, hdrafts, hloaded, hnodup, -⟩ := load_sound h
  have hbs : ds.map (·.name) = bs.map (·.block.name) :=
    map_eq_map_of_forall₂ (hloaded.imp fun d b hb => hb.block_name.symm)
  have hds : ws.map (·.name) = ds.map (·.name) :=
    map_eq_map_of_forall₂ (hdrafts.imp fun w d hd => (Draft.Steps.name hd).symm)
  rwa [← hbs, ← hds]

/-- Every block of a text comes from a draft that can be printed. -/
theorem exists_draft_of_load (h : load name text = .ok bs) :
    ∀ b ∈ bs, ∃ d, LoadedFrom d b ∧ d.Lexical ∧ Token.IsIdent d.name := by
  obtain ⟨ws, ds, hdrafts, hloaded, -, hlex⟩ := load_sound h
  intro b hb
  obtain ⟨d, hd, hbd⟩ := exists_of_forall₂_right hloaded hb
  obtain ⟨w, hw, hwd⟩ := exists_of_forall₂_right hdrafts hd
  exact ⟨d, hbd, Draft.lexical_of_drafts hwd (hlex w hw), Draft.Steps.name hwd ▸ (hlex w hw).name⟩

/-- The listings of the blocks of a text can be read. -/
theorem exists_printouts (h : load name text = .ok bs) :
    ∃ ps : List (Written.Block × Draft), List.Forall₂ (fun b p => b.block.Printout p.1 p.2) bs ps := by
  have hall : ∀ b ∈ bs, ∃ p : Written.Block × Draft, b.block.Printout p.1 p.2 ∧ True := by
    intro b hb
    obtain ⟨d, hbd, hd, hname⟩ := exists_draft_of_load h b hb
    obtain ⟨w', d', hprintout⟩ := hbd.printout hd hname
    exact ⟨(w', d'), hprintout, trivial⟩
  obtain ⟨ps, hps, -⟩ := exists_forall₂ hall
  exact ⟨ps, hps⟩

/-- The text is that of a block that can be printed, and it reads as the draft. -/
def Draft.PrintedAs (d : Draft) (text : Text) : Prop :=
  ∃ w : Written.Block, w.text = text ∧ w.Plain ∧ w.Drafts d

/-- **Texts of blocks that can be read make a program** of these blocks. -/
theorem Written.exists_program {outs : List Text} {ds : List Draft} (h : List.Forall₂ Draft.PrintedAs ds outs) :
    ∃ ws : List Written.Block, [newline].intercalate outs = Written.program ws ∧ (∀ w ∈ ws, w.Plain) ∧
      List.Forall₂ Written.Block.Drafts ws ds ∧ ws.map (·.name) = ds.map (·.name) := by
  have hsplit : ∀ d ∈ ds, ∀ out, d.PrintedAs out →
      ∃ w : Written.Block, (w.Plain ∧ w.Drafts d) ∧ w.text = out := by
    rintro d - out ⟨w, htext, hw⟩
    exact ⟨w, hw, htext⟩
  obtain ⟨ws, hws, htexts⟩ := forall₂_through h hsplit
  have hdrafts : List.Forall₂ Written.Block.Drafts ws ds := (hws.imp fun _ _ hw => hw.2).flip
  refine ⟨ws, ?_, fun w hw => ?_, hdrafts, ?_⟩
  · rw [Written.program, map_eq_map_of_forall₂ (g := id) htexts, List.map_id]
  · obtain ⟨d, -, hplain, -⟩ := exists_of_forall₂_right hws hw
    exact hplain
  · exact map_eq_map_of_forall₂ (hdrafts.imp fun w d hd => (Draft.Steps.name hd).symm)

/-- **What is printed of a text is loaded again, with the same entries.** -/
theorem exists_reloaded (h : load name text = .ok bs) (name' : Text) :
    ∃ bs', load name' (CommandLine.printBlocks bs) = .ok bs' ∧
      List.Forall₂ (fun b b' => b.block.SameEntries b'.block) bs bs' := by
  obtain ⟨ps, hps⟩ := exists_printouts h
  have hprinted : List.Forall₂ Draft.PrintedAs (ps.map (·.2))
      (bs.map fun b => b.block.listing .empty true) := by
    rw [List.forall₂_map_left_iff, List.forall₂_map_right_iff]
    exact (hps.imp fun b p hp => ⟨p.1, hp.text.symm, hp.plain, hp.drafts⟩).flip
  obtain ⟨ws, htext, hplain, hdrafts, hnames⟩ := Written.exists_program hprinted
  have hsame : bs.map (·.block.name) = ps.map (·.2.name) :=
    map_eq_map_of_forall₂ (hps.imp fun b p hp => by rw [← hp.name]; exact (Draft.Steps.name hp.drafts).symm)
  have hnodup : (ws.map (·.name)).Nodup := by
    rw [hnames, List.map_map]
    exact hsame ▸ nodup_of_load h
  obtain ⟨bs', hload, hloaded⟩ := load_complete hplain hdrafts hnodup name'
  refine ⟨bs', by rw [CommandLine.printBlocks, htext, hload], ?_⟩
  rw [List.forall₂_map_left_iff] at hloaded
  refine (forall₂_join hps hloaded.flip).imp ?_
  rintro b b' ⟨p, hbp, hbp'⟩
  obtain ⟨hname, hindexed, hcode⟩ := LoadedFrom.of_printout hbp' hbp.given
  refine ⟨?_, hbp.indexed, hindexed, forall₂_join hbp.code hcode⟩
  rw [hname, Draft.Steps.name hbp.drafts, ← hbp.name]
  rfl

/-- **What is printed of a text is loaded again, and reads like it**, block by block. -/
theorem load_printBlocks (h : load name text = .ok bs) (name' : Text) :
    ∃ bs', load name' (CommandLine.printBlocks bs) = .ok bs' ∧
      List.Forall₂ (fun b b' => b.block.ReadsLike b'.block) bs bs' := by
  obtain ⟨bs', hload, hsame⟩ := exists_reloaded h name'
  exact ⟨bs', hload, hsame.imp fun b b' hb => hb.readsLike⟩

/-- Two blocks: one with a string, a call that gives nothing back and temps live at the end,
    one with a live set of its own. -/
def twoBlocks : Text :=
  utf8 "block a\n s = strconst \"\\x41\"\n call f\nout s\n" ++ utf8 "block b\n ret n\n live n live\n"

theorem load_printBlocks_twoBlocks : ∃ bs bs',
    load (utf8 "a.tac") twoBlocks = .ok bs ∧ bs.map (·.block.name) = [utf8 "a", utf8 "b"] ∧
      load (utf8 "b.tac") (CommandLine.printBlocks bs) = .ok bs' ∧
      List.Forall₂ (fun b b' => b.block.ReadsLike b'.block) bs bs' := by
  have hnames : (load (utf8 "a.tac") twoBlocks).toOption.map (List.map (·.block.name)) =
      some [utf8 "a", utf8 "b"] := by cbv
  rcases hload : load (utf8 "a.tac") twoBlocks with e | bs
  · rw [hload] at hnames
    cases hnames
  obtain ⟨bs', hload', hlike⟩ := load_printBlocks hload (utf8 "b.tac")
  rw [hload] at hnames
  exact ⟨bs, bs', rfl, Option.some.inj hnames, hload', hlike⟩

end Straightline
