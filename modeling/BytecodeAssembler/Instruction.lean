import BytecodeAssembler.OpcodeTable

/-! # Instructions

An instruction is an opcode with an operand scale, at most five raw operands and, where known, the
source position it was compiled from.
-/
namespace BytecodeAssembler

/-- Where in the source an instruction comes from. A statement is a place to break at. -/
inductive SourceInfo
  | absent
  | expression (position : Int32)
  | statement (position : Int32)
  deriving DecidableEq, Inhabited

namespace SourceInfo

def position? : SourceInfo → Option Int32
  | .absent => none
  | .expression p | .statement p => some p

def isPresent (s : SourceInfo) : Bool := s.position?.isSome

def isStatement : SourceInfo → Bool
  | .statement _ => true
  | _ => false

end SourceInfo

structure Instruction where
  opcode : Opcode
  scale : Scale
  operands : List UInt32
  source : SourceInfo
  length_operands : operands.length ≤ maxOperands
  deriving DecidableEq

namespace Instruction

def ofOperands (o : Opcode) (s : Scale) (vs : List UInt32) : Except InstructionError Instruction :=
  if h : vs.length ≤ maxOperands then .ok ⟨o, s, vs, .absent, h⟩
  else .error (.tooManyOperands o vs.length maxOperands)

/-- The narrowest scale that holds every scalable operand. -/
def narrowestScale (ks : List OperandKind) (vs : List UInt32) : Scale :=
  .widest (ks.zipWith OperandKind.scaleFor vs)

def ofTable (t : OpcodeTable) (o : Opcode) (vs : List UInt32) :
    Except InstructionError Instruction := do
  let d ← t.lookup o
  if d.operands.length ≠ vs.length then
    throw (.operandCount o d.operands.length vs.length)
  ofOperands o (narrowestScale d.operands vs) vs

def withSource (i : Instruction) (s : SourceInfo) : Instruction := { i with source := s }

def operand? (i : Instruction) (index : Nat) : Option UInt32 := i.operands[index]?

def setOperand (i : Instruction) (index : Nat) (v : UInt32) : Except InstructionError Instruction :=
  if index < i.operands.length then
    .ok { i with
      operands := i.operands.set index v
      length_operands := by simpa using i.length_operands }
  else .error (.operandCount i.opcode (index + 1) i.operands.length)

end Instruction
end BytecodeAssembler
