import BytecodeAssembler.Encoding
import BytecodeAssembler.SourceMap

/-! # The state of an assembler

The code and positions written so far, the labels with the jumps that wait for them, and what is
known of the open block: whether its end was written, and its last instruction.
-/
namespace BytecodeAssembler

/-- Whether dead loads are retracted, and whether source positions are kept. -/
structure Options where
  elideDeadLoads : Bool
  positions : PositionMode
  deriving DecidableEq

instance : Inhabited Options := ⟨⟨true, .record⟩⟩

/-- A forward jump in the code whose distance is not known yet. -/
structure JumpSite where
  start : Nat
  operandOffset : Nat
  width : Width
  scale : Scale
  deriving DecidableEq

/-- A label is bound once, and the jumps written before that wait for it in order. -/
inductive Label
  | pending (sites : Array JumpSite)
  | bound (offset : Nat)
  deriving DecidableEq

/-- The last instruction of the open block. It has a position if it was written with one or took
one over from a load it replaced. -/
structure LastInstruction where
  opcode : Opcode
  offset : Nat
  hasPosition : Bool
  deriving DecidableEq

structure Bytecode where
  code : Array UInt8
  positions : PositionTable
  deriving DecidableEq, Inhabited

structure Assembler where
  table : OpcodeTable
  options : Options
  code : Array UInt8
  log : PositionLog
  labels : Array Label
  unboundJumps : Nat
  blockClosed : Bool
  last : Option LastInstruction

/-- A step of assembly. A step that fails leaves the state as it was when it failed. -/
abbrev Assembly := EStateM AssemblyError Assembler

namespace Assembler

def new (t : OpcodeTable) (options : Options) : Assembler where
  table := t
  options := options
  code := #[]
  log := .empty options.positions
  labels := #[]
  unboundJumps := 0
  blockClosed := false
  last := none

def offset (a : Assembler) : Nat := a.code.size

/-- A block begins here: the code behind it is reachable, and no load in front of it is dead, for a
jump may come in between. -/
def startBlock (a : Assembler) : Assembler := { a with blockClosed := false, last := none }

def addLabel (a : Assembler) : Assembler := { a with labels := a.labels.push (.pending #[]) }

def isBound (a : Assembler) (label : Nat) : Bool :=
  match a.labels[label]? with
  | some (.bound _) => true
  | _ => false

/-- The assembled code, once no jump waits for its label. -/
def finish (a : Assembler) : Except AssemblyError Bytecode :=
  if a.unboundJumps = 0 then .ok ⟨a.code, a.log.table⟩ else .error (.unboundJumps a.unboundJumps)

end Assembler

namespace Assembly

def ofInstruction {α : Type} : Except InstructionError α → Assembly α
  | .ok x => pure x
  | .error e => throw (.instruction e)

theorem run_ofInstruction {α : Type} (x : Except InstructionError α) (a : Assembler) :
    (ofInstruction x).run a = match x with
      | .ok v => .ok v a
      | .error e => .error (.instruction e) a := by
  cases x <;> rfl

end Assembly
end BytecodeAssembler
