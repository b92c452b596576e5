import BytecodeAssembler.Operand
import BytecodeAssembler.Opcode

/-! # Faults of tables and instructions

What can be wrong with an opcode table or with one instruction, and the one place where each fault
gets its wording.
-/
namespace BytecodeAssembler

/-- What is wrong with the declaration of a scale prefix. -/
inductive PrefixDefect
  | withOperands (opcode : Opcode)
  | undeclared (opcode : Opcode)
  | other (text : String)
  deriving DecidableEq

def PrefixDefect.message : PrefixDefect → String
  | .withOperands o => o.name ++ " declares operands"
  | .undeclared o => o.name ++ " is not declared"
  | .other text => text

inductive InstructionError
  | invalidOpcode (byte : UInt8)
  | unknownOpcode (opcode : Opcode)
  | duplicateOpcode (opcode : Opcode)
  | unsizedOperand (opcode : Opcode) (index : Nat)
  | tooManyOperands (opcode : Opcode) (count max : Nat)
  | operandCount (opcode : Opcode) (expected actual : Nat)
  | operandOutOfRange (opcode : Opcode) (index : Nat) (value : UInt32) (scale : Scale)
  | malformedPrefix (defect : PrefixDefect)
  deriving DecidableEq

/-- Lower-case hexadecimal with at least `width` digits. -/
def hexDigits (width n : Nat) : String :=
  let digits := Nat.toDigits 16 n
  String.ofList (List.replicate (width - digits.length) '0' ++ digits)

namespace InstructionError

def message : InstructionError → String
  | .invalidOpcode byte => s!"Invalid opcode: 0x{hexDigits 2 byte.toNat}"
  | .unknownOpcode o => s!"Opcode {o.name} is not described by the opcode table"
  | .duplicateOpcode o => s!"Opcode {o.name} declared twice"
  | .unsizedOperand o index => s!"Operand {index} of {o.name} has no size"
  | .tooManyOperands o count max => s!"{o.name} has {count} operands (max {max})"
  | .operandCount o expected actual => s!"{o.name} expects {expected} operands, got {actual}"
  | .operandOutOfRange o index value scale =>
    s!"Operand {index} of {o.name} (0x{hexDigits 1 value.toNat}) does not fit at scale {scale.name}"
  | .malformedPrefix defect => s!"Malformed scale prefix: {defect.message}"

end InstructionError
end BytecodeAssembler
