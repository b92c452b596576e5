import BytecodeAssembler.BigEndian
import BytecodeAssembler.Instruction

/-! # Encoding of instructions

An instruction is written as its scale prefix, if it has one, its opcode byte, and its operands in
order, each big-endian at the width its kind has at the instruction's scale.
-/
namespace BytecodeAssembler.Instruction

def header (o : Opcode) (s : Scale) : List UInt8 :=
  s.prefixOpcode?.toList.map Opcode.toByte ++ [o.toByte]

def encodeOperand (i : Instruction) (index : Nat) (k : OperandKind) (v : UInt32) :
    Except InstructionError (List UInt8) :=
  let w := k.width i.scale
  if w = .none then .error (.unsizedOperand i.opcode index)
  else if k.fits v w then .ok (BigEndian.encode w.bytes v.toNat)
  else .error (.operandOutOfRange i.opcode index v i.scale)

def encodeOperands (i : Instruction) : Nat → List OperandKind → List UInt32 →
    Except InstructionError (List UInt8)
  | index, k :: ks, v :: vs => do
    let bytes ← i.encodeOperand index k v
    let rest ← encodeOperands i (index + 1) ks vs
    return bytes ++ rest
  | _, _, _ => .ok []

def encode (t : OpcodeTable) (i : Instruction) : Except InstructionError (List UInt8) := do
  let d ← t.lookup i.opcode
  if i.operands.length ≠ d.operands.length then
    throw (.operandCount i.opcode d.operands.length i.operands.length)
  let operands ← i.encodeOperands 0 d.operands i.operands
  return header i.opcode i.scale ++ operands

theorem length_header (o : Opcode) (s : Scale) :
    (header o s).length = s.prefixOpcode?.toList.length + 1 := by
  simp [header]

end BytecodeAssembler.Instruction
