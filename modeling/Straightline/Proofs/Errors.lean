/-
  What can go wrong with a text.

  Most errors that the stages may end with tell of trees, blocks or graphs that no text
  leads to.  `TextConfig.Refuses` lists what is left, and when.

  * `Lowering.blames_instr`, `Lowering.blames_block`: what was read from a text fails to be
    lowered only for a problem of the text, at a place in it;
  * `load_error`: a text that is not loaded is no program or has such a problem;
  * `Graph.build_eq`, `Block.tableListing_eq`: no precondition is broken on the way;
  * `allocateText_ok_or_refuses`: allocation of a text gives output or an error of the list.
-/
import Mathlib
import Straightline.Proofs.Allocation
import Straightline.Proofs.Loading

namespace Straightline

namespace Lowering

variable {α β : Type} {src : Source} {x : Tree.Instr} {w : Written.Instr} {op : Op} {s : Span} {y : Text}
  {as : List Tree.Arg} {ws : List Written.Arg}

/-- If it fails, then for a problem at a place of the text. -/
def Blames (r : Except LoweringCause α) : Prop :=
  ∀ e, r = .error e → ∃ p problem, e = .semantic p problem

theorem blames_ok (a : α) : Blames (.ok a) := nofun

theorem Blames.bind {r : Except LoweringCause α} {f : α → Except LoweringCause β} (hr : Blames r)
    (hf : ∀ a, r = .ok a → Blames (f a)) : Blames (r >>= f) := by
  cases r with
  | error e =>
    rintro e' ⟨⟩
    exact hr e rfl
  | ok a => exact hf a rfl

theorem blames_report {offset : Int} (h : 0 ≤ offset) (problem : SemanticProblem) :
    Blames (report src offset problem : Except LoweringCause α) := by
  obtain ⟨n, rfl⟩ := Int.eq_ofNat_of_zero_le h
  rintro e ⟨⟩
  exact ⟨_, _, rfl⟩

theorem start_nonneg (h : src.slice s = .ok y) : 0 ≤ s.start := by
  rw [Source.slice] at h
  split at h
  · rename_i hs
    exact hs.1
  · cases h

/-! ## Instructions -/

theorem blames_operand (hx : 0 ≤ x.span.start) (has : List.Forall₂ (Tree.Arg.Spells src) as ws) (slot : Nat)
    (role : Role) (later : List Role) (b : Block) : Blames (operand src x op slot role later b as) := by
  unfold operand
  split
  · exact blames_ok _
  cases has with
  | nil => exact blames_report hx _
  | cons ha _ =>
    cases ha with
    | ident hs =>
      simp only [temp_of_slice hs]
      exact blames_ok _
    | int hs => exact blames_report (start_nonneg hs) _
    | string hs => exact blames_report (start_nonneg hs) _

theorem blames_destination (hx : x.Spells src w) (b : Block) : Blames (destination src x op b) := by
  have hstart := hx.start
  obtain ⟨span, dst, spelling, args⟩ := x
  obtain ⟨dst', name, args'⟩ := w
  cases hx.dst with
  | none =>
    simp only [destination]
    split
    · exact blames_ok _
    · exact blames_report hstart _
  | some hs =>
    simp only [destination, temp_of_slice hs]
    exact blames_ok _

theorem slice_of_dst {d : Span} (hx : x.Spells src w) (hd : x.dst = some d) : ∃ y, src.slice d = .ok y := by
  have hdst := hx.dst
  rw [hd] at hdst
  generalize w.dst = o at hdst
  cases hdst with
  | some hs => exact ⟨_, hs⟩

theorem blames_firstSlot (hx : x.Spells src w) (b : Block) : Blames (firstSlot src x op b) := by
  unfold firstSlot
  by_cases hdef : op.roles.first.defines = true
  · simp only [hdef, if_true]
    exact (blames_destination hx b).bind fun _ _ => blames_ok _
  · simp only [hdef, if_false, Bool.false_eq_true]
    split
    · rename_i d hd
      obtain ⟨y, hs⟩ := slice_of_dst hx hd
      exact blames_report (start_nonneg hs) _
    · exact blames_operand hx.start hx.args _ _ _ b

theorem blames_extraValue {a : Tree.Arg} {v : Written.Arg} (ha : a.Spells src v) :
    Blames (extraValue src op a) := by
  cases ha with
  | ident hs =>
    cases hop : op.extra with
    | label =>
      simp only [extraValue, hop, textOf_of_slice hs]
      exact blames_ok _
    | nothing | immediate | string =>
      simp only [extraValue, hop]
      exact blames_report (start_nonneg hs) _
  | @int s y hs =>
    cases hop : op.extra with
    | immediate =>
      simp only [extraValue, hop, textOf_of_slice hs]
      refine (blames_ok y).bind fun _ h => ?_
      cases h
      split
      · exact blames_ok _
      · exact blames_report (start_nonneg hs) _
    | nothing | label | string =>
      simp only [extraValue, hop]
      exact blames_report (start_nonneg hs) _
  | @string s y hs =>
    cases hop : op.extra with
    | string =>
      simp only [extraValue, hop, textOf_of_slice hs]
      refine (blames_ok y).bind fun _ h => ?_
      cases h
      split
      · exact blames_ok _
      · exact blames_report (start_nonneg hs) _
    | nothing | label | immediate =>
      simp only [extraValue, hop]
      exact blames_report (start_nonneg hs) _

theorem blames_extra (hx : 0 ≤ x.span.start) (has : List.Forall₂ (Tree.Arg.Spells src) as ws) :
    Blames (extra src x op as) := by
  unfold extra
  split
  · exact blames_ok _
  cases has with
  | nil => exact blames_report hx _
  | cons ha _ => exact (blames_extraValue ha).bind fun _ _ => blames_ok _

theorem arg_start_nonneg {a : Tree.Arg} {v : Written.Arg} (ha : a.Spells src v) : 0 ≤ a.start := by
  cases ha with
  | ident hs => exact start_nonneg hs
  | int hs => exact start_nonneg hs
  | string hs => exact start_nonneg hs

theorem blames_instrOf (hx : x.Spells src w) (op : Op) (b : Block) : Blames (instrOf src x op b) := by
  obtain ⟨hdef₁, hdef₂⟩ := Instr.defines_only_first op
  unfold instrOf
  refine (blames_firstSlot hx b).bind ?_
  rintro ⟨t₀, b₀, as₀⟩ h₀
  obtain ⟨-, ws₀, -, -, -, hws₀, -⟩ := firstSlot_sound hx h₀
  refine (blames_operand hx.start hws₀ _ _ _ _).bind ?_
  rintro ⟨t₁, b₁, as₁⟩ h₁
  obtain ⟨-, ws₁, -, -, hws₁, -⟩ := operand_sound hws₀ hdef₁ h₁
  refine (blames_operand hx.start hws₁ _ _ _ _).bind ?_
  rintro ⟨t₂, b₂, as₂⟩ h₂
  obtain ⟨-, ws₂, -, -, hws₂, -⟩ := operand_sound hws₁ hdef₂ h₂
  refine (blames_extra hx.start hws₂).bind ?_
  rintro ⟨⟨imm, label⟩, as₃⟩ h₃
  obtain ⟨-, ws₃, -, -, hws₃⟩ := extra_sound hws₂ h₃
  cases hws₃ with
  | nil => exact blames_ok _
  | cons ha _ => exact blames_report (arg_start_nonneg ha) _

theorem blames_instr (hx : x.Spells src w) (b : Block) : Blames (instr src x b) := by
  unfold instr
  rw [textOf_of_slice hx.op]
  refine (blames_ok w.op).bind fun _ h => ?_
  cases h
  split
  · exact blames_instrOf hx _ b
  · exact blames_report (start_nonneg hx.op) _

/-! ## Blocks -/

theorem blames_stmt {t : Tree.Stmt} {v : Written.Stmt} (ht : t.Spells src v) (st : State) :
    Blames (stmt src st t) := by
  cases ht with
  | instr hx => exact (blames_instr hx st.block).bind fun _ _ => blames_ok _
  | live hx =>
    simp only [stmt, live]
    split
    · exact blames_report hx.start _
    split
    · exact blames_report hx.start _
    rw [temps_of_slices hx.temps]
    exact blames_ok _
  | out hx =>
    simp only [stmt, temps_of_slices hx.temps]
    exact blames_ok _

theorem blames_stmts {ts : List Tree.Stmt} {vs : List Written.Stmt}
    (hts : List.Forall₂ (Tree.Stmt.Spells src) ts vs) (st : State) : Blames (ts.foldlM (stmt src) st) := by
  induction hts generalizing st with
  | nil => exact blames_ok st
  | cons ht _ ih =>
    rw [List.foldlM_cons]
    exact (blames_stmt ht st).bind fun st' _ => ih st'

theorem blames_block {t : Tree.Block} {v : Written.Block} (ht : t.Spells src v) (name : Text) :
    Blames (block src name t) := by
  unfold block
  refine (blames_stmts ht.stmts _).bind fun st hfold => ?_
  obtain ⟨d, hsteps, hst⟩ := ((stmts_eq_ok_iff ht.stmts).1 hfold).refines (refines_new name)
  -- the block that was made passes the check
  rw [Block.check_of_names hst.code (hsteps.fits (Draft.fits_new name))]
  exact blames_ok _

/-- **What was read from a text fails to be lowered only for a problem of the text.** -/
theorem blocksFrom_error {seen : List (Text × Span)} {ts : List Tree.Block} {vs : List Written.Block}
    (hts : List.Forall₂ (Tree.Block.Spells src) ts vs)
    (hseen : ∀ z s, seen.lookup z = some s → 0 ≤ s.start) {e : LoweringError}
    (h : blocksFrom src seen ts = .error e) : ∃ name p problem, e = ⟨name, .semantic p problem⟩ := by
  induction hts generalizing seen with
  | nil => cases h
  | @cons t v ts vs ht _ ih =>
    rw [blocksFrom, textOf_of_slice ht.name] at h
    simp only [mapError_ok, bind, Except.bind] at h
    split at h
    · rename_i previous hprev
      -- the name was seen before: both places lie in the text
      obtain ⟨n, hn⟩ := Int.eq_ofNat_of_zero_le (hseen _ _ hprev)
      obtain ⟨m, hm⟩ := Int.eq_ofNat_of_zero_le (start_nonneg ht.name)
      rw [hn, hm] at h
      cases h
      exact ⟨_, _, _, rfl⟩
    · rcases hb : block src v.name t with cause | b
      · rw [hb] at h
        cases h
        obtain ⟨p, problem, rfl⟩ := blames_block ht v.name cause hb
        exact ⟨_, p, problem, rfl⟩
      · rw [hb] at h
        simp only [mapError_ok] at h
        rcases hbs : blocksFrom src ((v.name, t.name) :: seen) ts with e' | bs
        · rw [hbs] at h
          cases h
          refine ih (fun z s hz => ?_) hbs
          rw [List.lookup_cons] at hz
          split at hz
          · cases hz
            exact start_nonneg ht.name
          · exact hseen z s hz
        · rw [hbs] at h
          cases h

end Lowering

/-! ## Loading -/

variable {name text : Text} {b : LoweredBlock} {cfg : TextConfig}

/-- **A text that is not loaded** is no program, or a statement of it makes no sense. -/
theorem load_error {e : LoadError} (h : load name text = .error e) :
    (∃ p failure, (Source.ofText name text).parse = .error (.syntaxError p failure) ∧
      e = .parse (.syntaxError p failure)) ∨
    ∃ f block p problem, (Source.ofText name text).parse = .ok f ∧
      (Source.ofText name text).lower f = .error ⟨block, .semantic p problem⟩ ∧
      e = .lower ⟨block, .semantic p problem⟩ := by
  rw [load, lowerText] at h
  rcases hf : (Source.ofText name text).parse with err | f
  · rw [hf] at h
    cases h
    obtain ⟨p, failure, rfl⟩ := Source.syntaxError_of_parse hf
    exact .inl ⟨p, failure, rfl, rfl⟩
  · obtain ⟨ws, hspell, -⟩ := Source.parse_spells hf
    rw [hf] at h
    simp only [mapError_ok, bind, Except.bind] at h
    rcases hlower : (Source.ofText name text).lower f with err | lowered
    · rw [hlower] at h
      cases h
      obtain ⟨block, p, problem, rfl⟩ := Lowering.blocksFrom_error hspell (by simp) hlower
      exact .inr ⟨f, block, p, problem, rfl, hlower, rfl⟩
    · obtain ⟨⟨ds, hdrafts, hofs⟩, -⟩ := Lowering.blocks_sound hspell hlower
      obtain ⟨bs, hbs, -⟩ := forall₂_fill hofs (fits_of_drafts hdrafts)
      rw [hlower] at h
      simp only [mapError_ok, hbs] at h
      cases h

theorem check_of_loaded {d : Draft} (hb : LoadedFrom d b) (hd : d.Fits) : b.block.check = .ok () := by
  obtain ⟨b₀, code, hof, hfilled, rfl⟩ := hb
  exact (Block.check_congr hfilled.bare).trans (Block.check_of_names hof.code hd)

/-- The blocks of a text fit the op table. -/
theorem check_of_load {bs : List LoweredBlock} (h : load name text = .ok bs) :
    ∀ b ∈ bs, b.block.check = .ok () := by
  obtain ⟨ws, ds, hdrafts, hloaded, -⟩ := load_sound h
  intro b hb
  obtain ⟨d, hd, hbd⟩ := exists_of_forall₂_right hloaded hb
  exact check_of_loaded hbd (fits_of_drafts hdrafts d hd)

/-! ## Graphs -/

theorem foldlM_eq_ok {ε α β : Type} {f : β → α → Except ε β} {g : β → α → β} (P : β → Prop) {as : List α}
    (h : ∀ b, P b → ∀ a ∈ as, f b a = .ok (g b a) ∧ P (g b a)) {b : β} (hb : P b) :
    as.foldlM f b = .ok (as.foldl g b) := by
  induction as generalizing b with
  | nil => rfl
  | cons a as ih =>
    obtain ⟨hstep, hnext⟩ := h b hb a List.mem_cons_self
    rw [List.foldlM_cons, hstep]
    exact ih (fun b hb a ha => h b hb a (List.mem_cons_of_mem _ ha)) hnext

namespace Graph

variable {g : Graph} {fp : Option Temp} {code : List Instr} {a t : Temp}

/-- Add the operands of an instruction, or end with the fault of one that cannot be a node. -/
def addOperands (fp : Option Temp) (g : Graph) (i : Instr) : Except Fault Graph :=
  (i.operands.map (·.temp)).foldlM (fun g t => if some t = fp then .ok g else (g.addNode t).map (·.1)) g

/-- Add the edges of an instruction's definition, or end with the fault of an edge that has an
    end that is no node. -/
def addDefinition (fp : Option Temp) (g : Graph) (i : Instr) : Except Fault Graph :=
  match i.definition? with
  | none => .ok g
  | some d =>
    if some d = fp then .ok g
    else do
      let live := g.liveNodes fp d i
      let g' ← live.foldlM (fun g t => (g.addEdge d t).map (·.1)) g
      return { g' with pressure := max g'.pressure (live.length + 1) }

/-- The interference graph of instructions, or the first fault on the way to it. -/
def build (fp : Option Temp) (code : List Instr) : Except Fault Graph := do
  code.foldlM (addDefinition fp) (← code.foldlM (addOperands fp) empty)

theorem addNode_eq_withNode (h : 0 ≤ t) : (g.addNode t).map (·.1) = .ok (g.withNode t) := by
  unfold withNode addNode
  rw [if_neg (Int.not_lt.2 h)]
  split <;> rfl

theorem addEdge_eq_withEdge (ha : g.known a = true) (ht : g.known t = true) :
    (g.addEdge a t).map (·.1) = .ok (g.withEdge a t) := by
  unfold withEdge addEdge
  simp only [ha, ht, Bool.not_true, Bool.or_self, Bool.false_eq_true, if_false]
  split <;> rfl

theorem addOperands_eq {i : Instr} (hi : ∀ t ∈ i.temps, 0 ≤ t) :
    addOperands fp g i = .ok (g.withOperands fp i) := by
  refine foldlM_eq_ok (fun _ => True) (fun g _ t ht => ⟨?_, trivial⟩) trivial
  split
  · rfl
  · exact addNode_eq_withNode (hi t ht)

theorem addDefinition_eq {i : Instr} (hi : ∀ d, i.definition? = some d → some d ≠ fp → g.known d = true) :
    addDefinition fp g i = .ok (g.withDefinition fp i) := by
  unfold addDefinition withDefinition
  cases hd : i.definition? with
  | none => rfl
  | some d =>
    by_cases hfp : some d = fp
    · simp only [hfp, if_true]
    simp only [hfp, if_false]
    have hedges : (g.liveNodes fp d i).foldlM (fun g t => (g.addEdge d t).map (·.1)) g =
        .ok ((g.liveNodes fp d i).foldl (·.withEdge d ·) g) := by
      refine foldlM_eq_ok (fun h => h.temps = g.temps) (fun h hh t ht => ⟨?_, ?_⟩) rfl
      · have hknown : ∀ u, h.known u = true ↔ g.known u = true := fun u => by
          rw [known_iff_mem, known_iff_mem, hh]
        exact addEdge_eq_withEdge ((hknown d).2 (hi d hd hfp)) ((hknown t).2 (mem_liveNodes.1 ht).2.2.2)
      · rw [temps_withEdge, hh]
    rw [hedges]
    rfl

/-- **Building a graph runs into no fault**, if no temp is negative. -/
theorem build_eq (fp : Option Temp) (hcode : ∀ i ∈ code, ∀ t ∈ i.temps, 0 ≤ t) :
    build fp code = .ok (ofCode fp code) := by
  have hnodes : code.foldlM (addOperands fp) empty = .ok (code.foldl (withOperands fp) empty) :=
    foldlM_eq_ok (fun _ => True) (fun g _ i hi => ⟨addOperands_eq (hcode i hi), trivial⟩) trivial
  obtain ⟨-, hknown⟩ := bare_empty.withCode fp hcode
  rw [build, hnodes]
  refine foldlM_eq_ok (fun g => g.temps = (code.foldl (withOperands fp) empty).temps)
    (fun g hg i hi => ⟨?_, ?_⟩) rfl
  · refine addDefinition_eq fun d hd hfp => ?_
    rw [known_iff_mem, hg, ← known_iff_mem, hknown]
    exact .inr ⟨⟨i, hi, Instr.mem_temps_of_definition (Instr.mem_definitions.2 hd)⟩, hfp⟩
  · rw [temps_withDefinition, hg]

end Graph

/-! ## Listings -/

theorem forM_eq_ok {ε α : Type} {f : α → Except ε Unit} {as : List α} (h : ∀ a ∈ as, f a = .ok ()) :
    as.forM f = .ok () := by
  induction as with
  | nil => rfl
  | cons a as ih =>
    obtain ⟨ha, has⟩ := List.forall_mem_cons.1 h
    change (f a >>= fun _ => as.forM f) = _
    rw [ha]
    exact ih has

theorem Op.info_eq_ok {op : Op} (h : op.valid = true) : ∃ signature, op.info = .ok signature := by
  cases op with
  | unknown => cases h
  | _ => exact ⟨_, rfl⟩

/-- **Printing a block that fits the op table runs into no fault.** -/
theorem Block.tableListing_eq {b : Block} (hcheck : b.check = .ok ()) (asg : TempMap Register) (live : Bool) :
    b.tableListing asg live = .ok (b.listing asg live) := by
  rw [tableListing, forM_eq_ok fun i hi => ?_]
  · rfl
  · obtain ⟨signature, hinfo⟩ := Op.info_eq_ok (check_ok hcheck i hi).1
    rw [hinfo]
    rfl

/-! ## Allocation -/

/-- The errors that allocation of a text may end with. -/
inductive TextConfig.Refuses (cfg : TextConfig) (name text : Text) : AllocateTextError → Prop where
  /-- the text does not follow the grammar -/
  | syntaxError {p : Position} {failure : Failure}
      (h : (Source.ofText name text).parse = .error (.syntaxError p failure)) :
      Refuses cfg name text (.load (.parse (.syntaxError p failure)))
  /-- a statement makes no sense -/
  | semantic {f : Tree.File} {block : Option Text} {p : Position} {problem : SemanticProblem}
      (hf : (Source.ofText name text).parse = .ok f)
      (h : (Source.ofText name text).lower f = .error ⟨block, .semantic p problem⟩) :
      Refuses cfg name text (.load (.lower ⟨block, .semantic p problem⟩))
  /-- a block has control flow -/
  | control {bs : List LoweredBlock} {b : LoweredBlock} {u : UsageError} (h : load name text = .ok bs)
      (hb : b ∈ bs) (hctl : b.block.firstControl? = some u) :
      Refuses cfg name text (.allocate b.block.name (.build (.usage u)))
  /-- a block without control flow does not fit -/
  | spill {bs : List LoweredBlock} {b : LoweredBlock} {e : SpillRequired} (h : load name text = .ok bs)
      (hb : b ∈ bs) (hctl : b.block.hasControl = false)
      (halloc : (allocate (cfg.forBlock b.block) b.block).result = .error (.spill e)) :
      Refuses cfg name text (.allocate b.block.name (.spill e))

section
variable (hspill : ∀ spiller ∈ cfg.spiller, spiller.Memoryless)
include hspill

/-- A block among others comes to what it comes to alone. -/
theorem exists_allocateAfter {r : Except AllocationError Allocation}
    (h : (allocate (cfg.forBlock b.block) b.block).result = r) (requests : List SpillRequest) :
    ∃ next, allocateAfter (cfg.forBlock b.block) requests b.block = ⟨next, r⟩ := by
  have hresult : (allocateAfter (cfg.forBlock b.block) requests b.block).result = r :=
    (result_allocateAfter hspill requests).trans h
  exact ⟨_, by rw [← hresult]⟩

/-- What comes of some blocks does not depend on the requests made before. -/
theorem result_allocateBlocks (bs : List LoweredBlock) (requests requests' : List SpillRequest) :
    (allocateBlocks cfg requests bs).result = (allocateBlocks cfg requests' bs).result := by
  induction bs generalizing requests requests' with
  | nil => rfl
  | cons b bs ih =>
    obtain ⟨next, hnext⟩ := exists_allocateAfter hspill rfl requests
    obtain ⟨next', hnext'⟩ := exists_allocateAfter hspill rfl requests'
    rw [allocateBlocks, allocateBlocks, hnext, hnext']
    rcases (allocate (cfg.forBlock b.block) b.block).result with e | a
    · rfl
    · exact congrArg (Except.map _) (ih next next')

variable {requests : List SpillRequest} {bs : List LoweredBlock}

theorem allocateBlocks_cons_ok {a : Allocation}
    (h : (allocate (cfg.forBlock b.block) b.block).result = .ok a) :
    (allocateBlocks cfg requests (b :: bs)).result =
      (allocateBlocks cfg requests bs).result.map (cfg.render b.block a :: ·) := by
  obtain ⟨next, hnext⟩ := exists_allocateAfter hspill h requests
  rw [allocateBlocks, hnext]
  exact congrArg (Except.map _) (result_allocateBlocks hspill bs next requests)

theorem allocateBlocks_cons_error {e : AllocationError}
    (h : (allocate (cfg.forBlock b.block) b.block).result = .error e) :
    (allocateBlocks cfg requests (b :: bs)).result = .error (.allocate b.block.name e) := by
  obtain ⟨next, hnext⟩ := exists_allocateAfter hspill h requests
  rw [allocateBlocks, hnext]

/-- Blocks are allocated if each of them is. -/
theorem allocateBlocks_eq_ok_iff {outs : List Text} :
    (allocateBlocks cfg requests bs).result = .ok outs ↔ List.Forall₂ (fun b out => ∃ a,
      (allocate (cfg.forBlock b.block) b.block).result = .ok a ∧ out = cfg.render b.block a) bs outs := by
  induction bs generalizing outs with
  | nil =>
    rw [List.forall₂_nil_left_iff]
    exact ⟨fun h => by cases h; rfl, fun h => by subst h; rfl⟩
  | cons b bs ih =>
    rw [List.forall₂_cons_left_iff]
    rcases ha : (allocate (cfg.forBlock b.block) b.block).result with e | a
    · rw [allocateBlocks_cons_error hspill ha]
      simp
    · rw [allocateBlocks_cons_ok hspill ha]
      constructor
      · intro h
        rcases hrest : (allocateBlocks cfg requests bs).result with e | outs'
        · rw [hrest] at h
          cases h
        · rw [hrest] at h
          cases h
          exact ⟨_, outs', ⟨a, rfl, rfl⟩, ih.1 hrest, rfl⟩
      · rintro ⟨out, outs', ⟨a', ⟨⟩, rfl⟩, hrest, rfl⟩
        rw [ih.2 hrest]
        rfl

end

theorem result_allocateTextAfter (hspill : ∀ spiller ∈ cfg.spiller, spiller.Memoryless)
    (requests requests' : List SpillRequest) : (allocateTextAfter cfg requests name text).result =
      (allocateTextAfter cfg requests' name text).result := by
  rw [allocateTextAfter, allocateTextAfter]
  rcases load name text with e | bs
  · rfl
  · exact congrArg (Except.map _) (result_allocateBlocks hspill bs requests requests')

/-- A text is allocated if its blocks are. -/
theorem allocateTextAfter_eq_ok_iff {requests last : List SpillRequest} {bs : List LoweredBlock} {out : Text}
    (h : load name text = .ok bs) : allocateTextAfter cfg requests name text = ⟨last, .ok out⟩ ↔
    ∃ outs, allocateBlocks cfg requests bs = ⟨last, .ok outs⟩ ∧ out = [newline].intercalate outs := by
  rw [allocateTextAfter, h]
  rcases hrun : allocateBlocks cfg requests bs with ⟨last', e | outs⟩
  · simp [hrun, Except.map]
  · simp [hrun, Except.map, eq_comm]

theorem allocateText_eq_ok_iff {out : Text} : (allocateText cfg name text).result = .ok out ↔
    ∃ bs outs, load name text = .ok bs ∧ (allocateBlocks cfg [] bs).result = .ok outs ∧
      out = [newline].intercalate outs := by
  rw [allocateText, allocateTextAfter]
  rcases load name text with e | bs
  · simp
  · rcases hrun : (allocateBlocks cfg [] bs).result with e | outs
    · simp [hrun, Except.map]
    · simp [hrun, Except.map, eq_comm]

section
variable (hspill : cfg.spiller = none) (hregs : cfg.regs ≠ []) (hnodup : cfg.regs.Nodup)
include hspill hregs hnodup

/-- A block of a text is allocated, has control flow, or does not fit. -/
theorem allocate_cases (hcheck : b.block.check = .ok ()) :
    (∃ a, (allocate (cfg.forBlock b.block) b.block).result = .ok a) ∨
    (∃ u, b.block.firstControl? = some u ∧
      (allocate (cfg.forBlock b.block) b.block).result = .error (.build (.usage u))) ∨
    ∃ e, b.block.hasControl = false ∧
      (allocate (cfg.forBlock b.block) b.block).result = .error (.spill e) := by
  have hspill' : (cfg.forBlock b.block).spiller = none := hspill
  rcases hctl : b.block.firstControl? with _ | u
  · have hfree := Block.firstControl_eq_none.1 hctl
    exact (allocate_ok_or_spill hspill' hregs hfree hcheck hnodup).imp_right
      fun ⟨e, he⟩ => .inr ⟨e, hfree, he⟩
  · exact .inr (.inl ⟨u, rfl, allocate_of_control hspill' hregs hctl⟩)

/-- Blocks are allocated in order, and the first that is not ends it. -/
theorem allocateBlocks_cases {all bs : List LoweredBlock} (hload : load name text = .ok all) (hsub : bs ⊆ all) :
    (∃ outs, (allocateBlocks cfg [] bs).result = .ok outs) ∨
      ∃ e, (allocateBlocks cfg [] bs).result = .error e ∧ cfg.Refuses name text e := by
  have hnone := memoryless_of_none hspill
  induction bs with
  | nil => exact .inl ⟨[], rfl⟩
  | cons b bs ih =>
    obtain ⟨hb, hbs⟩ := List.cons_subset.1 hsub
    rcases allocate_cases hspill hregs hnodup (check_of_load hload b hb) with
      ⟨a, ha⟩ | ⟨u, hctl, hu⟩ | ⟨e, hctl, he⟩
    · rw [allocateBlocks_cons_ok hnone ha]
      rcases ih hbs with ⟨outs, houts⟩ | ⟨e, he, hrefuses⟩
      · exact .inl ⟨_, by rw [houts]; rfl⟩
      · exact .inr ⟨e, by rw [he]; rfl, hrefuses⟩
    · exact .inr ⟨_, allocateBlocks_cons_error hnone hu, .control hload hb hctl⟩
    · exact .inr ⟨_, allocateBlocks_cons_error hnone he, .spill hload hb hctl he⟩

/-- **Allocation of a text gives output or an error of the list**; neither building the graphs
    of its blocks nor printing them runs into a fault. -/
theorem allocateText_ok_or_refuses (name text : Text) :
    ((∃ out, (allocateText cfg name text).result = .ok out) ∨
      ∃ e, (allocateText cfg name text).result = .error e ∧ cfg.Refuses name text e) ∧
    ∀ bs, load name text = .ok bs → ∀ b ∈ bs,
      (∀ fp, Graph.build fp b.block.code = .ok (.ofCode fp b.block.code)) ∧
      ∀ asg live, b.block.tableListing asg live = .ok (b.block.listing asg live) := by
  constructor
  · rw [allocateText, allocateTextAfter]
    rcases hload : load name text with e | bs
    · refine .inr ⟨_, rfl, ?_⟩
      rcases load_error hload with ⟨p, failure, hparse, rfl⟩ | ⟨f, block, p, problem, hparse, hlower, rfl⟩
      · exact .syntaxError hparse
      · exact .semantic hparse hlower
    · rcases allocateBlocks_cases hspill hregs hnodup hload (List.Subset.refl bs) with
        ⟨outs, houts⟩ | ⟨e, he, hrefuses⟩
      · exact .inl ⟨_, by simp only [houts]; rfl⟩
      · exact .inr ⟨e, by simp only [he]; rfl, hrefuses⟩
  · intro bs hload b hb
    have hcheck := check_of_load hload b hb
    exact ⟨fun fp => Graph.build_eq fp (Block.nonneg_of_check hcheck), Block.tableListing_eq hcheck⟩

end

/-- One register. -/
def oneRegister : TextConfig := ⟨[utf8 "r0"], utf8 "fp", none, 0, true⟩

/-- A block that needs two. -/
def sumText : Text := utf8 "block sum\n\ta = imm4 1\n\tb = imm4 2\n\tc = add a b\nout c\n"

theorem allocateText_ok_or_refuses_sum :
    ∃ e, (allocateText oneRegister (utf8 "sum.tac") sumText).result = .error e ∧
      oneRegister.Refuses (utf8 "sum.tac") sumText e := by
  have hspill : oneRegister.spiller = none := rfl
  have hcases := (allocateText_ok_or_refuses hspill (by decide) (by decide) (utf8 "sum.tac") sumText).1
  refine hcases.resolve_left ?_
  rintro ⟨out, hout⟩
  have hfails : (allocateText oneRegister (utf8 "sum.tac") sumText).result.isOk = false := by cbv
  rw [hout] at hfails
  cases hfails

end Straightline
