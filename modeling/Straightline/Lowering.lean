/-
  Lowering: from syntax trees to blocks.

  Each instruction is held against the op table: the destination goes into the
  first slot, arguments into the slots that the op reads, and the operand that
  is no temp comes last.  Names are interned as they are met.

  * `Lowering.instr` lowers one instruction;
  * `Lowering.block` lowers a block, and `Source.lower` a file;
  * `LoweredBlock` is a block with the source of its live-out sets.
-/
import Straightline.Text.Numeral
import Straightline.Liveness
import Straightline.Syntax.Tree

namespace Straightline

/-- A block, and where its live-out sets come from: they are given if the text
    has a `live` directive in it. -/
structure LoweredBlock where
  block : Block
  liveness : LivenessSource
  deriving DecidableEq

/-- What is wrong with a statement. -/
inductive SemanticProblem where
  /-- an earlier block has the same name -/
  | redeclared (name : Text) (previous : Position)
  | unknownOp (name : Text)
  | destinationExpected (op : Op)
  | definesNothing (op : Op)
  | operandMissing (op : Op) (slot : Nat) (role : Role)
  | tempExpected (op : Op) (slot : Nat)
  | extraMissing (op : Op)
  | extraExpected (op : Op)
  | tooManyOperands (op : Op)
  | badImmediate (e : NumeralError)
  | badString
  | liveBeforeInstr
  | secondLive (index : Nat)

/-- What a semantic problem says. -/
def SemanticProblem.message : SemanticProblem → Text
  | redeclared name previous =>
    utf8 "block " ++ name ++ utf8 " redeclared, previous at " ++ previous.render
  | unknownOp name => utf8 "unknown op " ++ quoted name
  | destinationExpected op => utf8 s!"{op.name}: destination expected"
  | definesNothing op => utf8 s!"{op.name} defines nothing"
  | operandMissing op slot role => utf8 s!"{op.name}: operand {slot} ({role.name}) missing"
  | tempExpected op slot => utf8 s!"{op.name}: operand {slot}: temp expected"
  | extraMissing op => utf8 s!"{op.name}: {op.extra.name} operand missing"
  | extraExpected op => utf8 s!"{op.name}: {op.extra.name} expected"
  | tooManyOperands op => utf8 s!"{op.name}: too many operands"
  | badImmediate e => utf8 "bad immediate: " ++ e.message
  | badString => utf8 "bad string: invalid syntax"
  | liveBeforeInstr => utf8 "live before any instruction"
  | secondLive index => utf8 s!"second live set for instruction {index}"

/-- Why a tree could not be lowered. -/
inductive LoweringCause where
  | semantic (position : Position) (problem : SemanticProblem)
  /-- a node that is no statement -/
  | unsupported (node : Tree.Stray)
  /-- the lowered block does not fit the op table -/
  | malformed (e : BlockError)
  /-- a span of the tree does not lie in the text -/
  | fault (f : Fault)

/-- What a lowering cause says. -/
def LoweringCause.message : LoweringCause → Text
  | semantic p problem => p.render ++ utf8 ": " ++ problem.message
  | unsupported node => utf8 ("unsupported node: " ++ node.kindName)
  | malformed e => utf8 "check: " ++ e.message
  | fault f => f.message

/-- Why a tree could not be lowered, and in which block if in one. -/
structure LoweringError where
  block : Option Text
  cause : LoweringCause

/-- What a lowering error says. -/
def LoweringError.message (e : LoweringError) : Text :=
  match e.block with
  | some name => utf8 "block " ++ name ++ utf8 ": " ++ e.cause.message
  | none => e.cause.message

namespace Lowering

/-- The block under construction. -/
structure State where
  block : Block
  /-- Has the last instruction a live set of its own? -/
  lastHasLive : Bool
  /-- Has any instruction one? -/
  explicit : Bool
  /-- The temps live at the end, as written. -/
  exit : List Temp

variable (src : Source)

/-- Report a problem at an offset. -/
def report {α : Type} (offset : Int) (problem : SemanticProblem) : Except LoweringCause α :=
  match src.position offset with
  | .ok p => .error (.semantic p problem)
  | .error f => .error (.fault f)

/-- The text of a span. -/
def textOf (s : Span) : Except LoweringCause Text :=
  (src.slice s).mapError .fault

/-- The temp that a span names. -/
def temp (b : Block) (s : Span) : Except LoweringCause (Temp × Block) := do
  return b.intern (← textOf src s)

/-- The temps that some spans name, in order. -/
def temps (b : Block) : List Span → Except LoweringCause (List Temp × Block)
  | [] => .ok ([], b)
  | s :: ss => do
    let (t, b) ← temp src b s
    let (ts, b) ← temps b ss
    return (t :: ts, b)

/-! ## Instructions -/

/-- The first slot if the op defines it: the destination, which only an
    optional definition may lack. -/
def destination (x : Tree.Instr) (op : Op) (b : Block) :
    Except LoweringCause (Option Temp × Block) :=
  match x.dst with
  | some d => do
    let (t, b) ← temp src b d
    return (some t, b)
  | none => if op.roles.first.optional then .ok (none, b)
    else report src x.span.start (.destinationExpected op)

/-- The number of arguments that the op must have besides those in front of it:
    one for each slot that must be filled, and one that is no temp. -/
def needed (op : Op) (later : List Role) : Nat :=
  later.countP Role.required + if op.extra = .nothing then 0 else 1

/-- Fill one slot from the arguments. A slot that may be empty is filled only
    if there are more arguments than the op needs behind it. -/
def operand (x : Tree.Instr) (op : Op) (slot : Nat) (role : Role) (later : List Role)
    (b : Block) (args : List Tree.Arg) :
    Except LoweringCause (Option Temp × Block × List Tree.Arg) :=
  if role = .unused ∨ (role.optional ∧ args.length ≤ needed op later) then .ok (none, b, args)
  else
    match args with
    | [] => report src x.span.start (.operandMissing op slot role)
    | .ident s :: rest => do
      let (t, b) ← temp src b s
      return (some t, b, rest)
    | arg :: _ => report src arg.start (.tempExpected op slot)

/-- The operand that is no temp, as an integer and a text. -/
def extraValue (op : Op) (arg : Tree.Arg) : Except LoweringCause (Int × Text) :=
  match op.extra, arg with
  | .immediate, .int s => do
    match Numeral.read .prefixed (← textOf src s) with
    | .ok n => return (n, [])
    | .error e => report src s.start (.badImmediate e)
  | .label, .ident s => do
    return (0, ← textOf src s)
  | .string, .string s => do
    match unquoted? (← textOf src s) with
    | some t => return (0, t)
    | none => report src s.start .badString
  | _, _ => report src arg.start (.extraExpected op)

/-- The operand that is no temp, if the op has one, and the arguments left. -/
def extra (x : Tree.Instr) (op : Op) (args : List Tree.Arg) :
    Except LoweringCause ((Int × Text) × List Tree.Arg) :=
  if op.extra = .nothing then .ok ((0, []), args)
  else
    match args with
    | [] => report src x.span.start (.extraMissing op)
    | arg :: rest => do
      return (← extraValue src op arg, rest)

/-- The first slot and the arguments left: the destination if the op defines
    the slot, else an argument. -/
def firstSlot (x : Tree.Instr) (op : Op) (b : Block) :
    Except LoweringCause (Option Temp × Block × List Tree.Arg) :=
  let roles := op.roles
  if roles.first.defines then do
    let (t, b) ← destination src x op b
    return (t, b, x.args)
  else
    match x.dst with
    | some d => report src d.start (.definesNothing op)
    | none => operand src x op 0 roles.first [roles.second, roles.third] b x.args

/-- Lower an instruction of a known op. -/
def instrOf (x : Tree.Instr) (op : Op) (b : Block) : Except LoweringCause (Instr × Block) := do
  let roles := op.roles
  let (t₀, b, args) ← firstSlot src x op b
  let (t₁, b, args) ← operand src x op 1 roles.second [roles.third] b args
  let (t₂, b, args) ← operand src x op 2 roles.third [] b args
  let ((imm, label), args) ← extra src x op args
  match args with
  | [] => return (⟨op, ⟨t₀, t₁, t₂⟩, imm, label, ∅⟩, b)
  | arg :: _ => report src arg.start (.tooManyOperands op)

/-- Lower an instruction. -/
def instr (x : Tree.Instr) (b : Block) : Except LoweringCause (Instr × Block) := do
  let name ← textOf src x.op
  match Op.ofName? name with
  | some op => instrOf src x op b
  | none => report src x.op.start (.unknownOp name)

/-! ## Blocks -/

/-- Give the last instruction a live set. -/
def live (x : Tree.Directive) (st : State) : Except LoweringCause State := do
  let count := st.block.code.length
  if count = 0 then report src x.span.start .liveBeforeInstr
  else if st.lastHasLive then report src x.span.start (.secondLive (count - 1))
  else
    let (ts, b) ← temps src st.block x.temps
    let live := Block.liveSet ts
    return { st with
      block := b.modifyInstr (count - 1) fun i => { i with liveOut := live }
      lastHasLive := true
      explicit := true }

/-- Lower a statement. -/
def stmt (st : State) : Tree.Stmt → Except LoweringCause State
  | .instr x => do
    let (i, b) ← instr src x st.block
    return { st with block := b.push i, lastHasLive := false }
  | .live x => live src x st
  | .out x => do
    let (ts, b) ← temps src st.block x.temps
    return { st with block := b, exit := st.exit ++ ts }
  | .stray node => .error (.unsupported node)

/-- Lower a block with the given name. -/
def block (name : Text) (x : Tree.Block) : Except LoweringCause LoweredBlock := do
  let st ← x.stmts.foldlM (stmt src) ⟨.new name, false, false, []⟩
  st.block.check.mapError .malformed
  return ⟨st.block, if st.explicit then .given else .backward st.exit⟩

/-- Lower blocks, given the names of the blocks before them and where they
    stand. -/
def blocksFrom : (seen : List (Text × Span)) → List Tree.Block →
    Except LoweringError (List LoweredBlock)
  | _, [] => .ok []
  | seen, x :: xs => do
    let name ← (textOf src x.name).mapError (⟨none, ·⟩)
    match seen.lookup name with
    | some previous =>
      let place ← ((src.position previous.start).mapError .fault).mapError (⟨none, ·⟩)
      (report src x.name.start (.redeclared name place)).mapError (⟨none, ·⟩)
    | none =>
      let b ← (block src name x).mapError (⟨some name, ·⟩)
      let bs ← blocksFrom ((name, x.name) :: seen) xs
      return b :: bs

end Lowering

/-- Lower a file that was read from a source. -/
def Source.lower (src : Source) (f : Tree.File) : Except LoweringError (List LoweredBlock) :=
  Lowering.blocksFrom src [] f.blocks

end Straightline
