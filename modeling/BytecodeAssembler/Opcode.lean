/-! # Opcodes

The instruction set of an accumulator machine: one byte per opcode, and the classes of opcodes
the assembler tells apart. `ofByte?_toByte` says that the byte of an opcode identifies it.
-/
namespace BytecodeAssembler

inductive Opcode
  | wide | extraWide | debugger | nop | ldaZero | ldaSmi | ldaUndefined | ldaNull | ldaTheHole
  | ldaTrue | ldaFalse | ldaConstant | ldaCurrentContextSlot | ldar | star | mov | ldaGlobal
  | staGlobal | add | sub | mul | testEqual | testLessThan | logicalNot | typeOf | callProperty
  | callRuntime | jump | jumpConstant | jumpIfTrue | jumpIfFalse | jumpLoop | ret | throw | rethrow
  | abort | suspendGenerator | resumeGenerator | illegal
  deriving DecidableEq, Inhabited

namespace Opcode

def all : List Opcode :=
  [.wide, .extraWide, .debugger, .nop, .ldaZero, .ldaSmi, .ldaUndefined, .ldaNull, .ldaTheHole,
   .ldaTrue, .ldaFalse, .ldaConstant, .ldaCurrentContextSlot, .ldar, .star, .mov, .ldaGlobal,
   .staGlobal, .add, .sub, .mul, .testEqual, .testLessThan, .logicalNot, .typeOf, .callProperty,
   .callRuntime, .jump, .jumpConstant, .jumpIfTrue, .jumpIfFalse, .jumpLoop, .ret, .throw, .rethrow,
   .abort, .suspendGenerator, .resumeGenerator, .illegal]

def toByte : Opcode → UInt8
  | .wide => 0 | .extraWide => 1 | .debugger => 2 | .nop => 3 | .ldaZero => 16 | .ldaSmi => 17
  | .ldaUndefined => 18 | .ldaNull => 19 | .ldaTheHole => 20 | .ldaTrue => 21 | .ldaFalse => 22
  | .ldaConstant => 23 | .ldaCurrentContextSlot => 24 | .ldar => 25 | .star => 32 | .mov => 33
  | .ldaGlobal => 34 | .staGlobal => 35 | .add => 48 | .sub => 49 | .mul => 50 | .testEqual => 56
  | .testLessThan => 57 | .logicalNot => 58 | .typeOf => 59 | .callProperty => 64
  | .callRuntime => 65 | .jump => 80 | .jumpConstant => 81 | .jumpIfTrue => 82 | .jumpIfFalse => 83
  | .jumpLoop => 84 | .ret => 96 | .throw => 97 | .rethrow => 98 | .abort => 99
  | .suspendGenerator => 112 | .resumeGenerator => 113 | .illegal => 255

def name : Opcode → String
  | .wide => "Wide" | .extraWide => "ExtraWide" | .debugger => "Debugger" | .nop => "Nop"
  | .ldaZero => "LdaZero" | .ldaSmi => "LdaSmi" | .ldaUndefined => "LdaUndefined"
  | .ldaNull => "LdaNull" | .ldaTheHole => "LdaTheHole" | .ldaTrue => "LdaTrue"
  | .ldaFalse => "LdaFalse" | .ldaConstant => "LdaConstant"
  | .ldaCurrentContextSlot => "LdaCurrentContextSlot" | .ldar => "Ldar" | .star => "Star"
  | .mov => "Mov" | .ldaGlobal => "LdaGlobal" | .staGlobal => "StaGlobal" | .add => "Add"
  | .sub => "Sub" | .mul => "Mul" | .testEqual => "TestEqual" | .testLessThan => "TestLessThan"
  | .logicalNot => "LogicalNot" | .typeOf => "TypeOf" | .callProperty => "CallProperty"
  | .callRuntime => "CallRuntime" | .jump => "Jump" | .jumpConstant => "JumpConstant"
  | .jumpIfTrue => "JumpIfTrue" | .jumpIfFalse => "JumpIfFalse" | .jumpLoop => "JumpLoop"
  | .ret => "Return" | .throw => "Throw" | .rethrow => "ReThrow" | .abort => "Abort"
  | .suspendGenerator => "SuspendGenerator" | .resumeGenerator => "ResumeGenerator"
  | .illegal => "Illegal"

def ofByte? (b : UInt8) : Option Opcode := all.find? (·.toByte == b)

theorem ofByte?_toByte (o : Opcode) : ofByte? o.toByte = some o := by cases o <;> rfl

/-- Control never falls through to the instruction behind it. -/
def isTerminator : Opcode → Bool
  | .ret | .throw | .rethrow | .abort | .jump | .jumpConstant | .suspendGenerator => true
  | _ => false

/-- Sets the accumulator and has no other effect. -/
def isPureLoad : Opcode → Bool
  | .ldaZero | .ldaSmi | .ldaUndefined | .ldaNull | .ldaTheHole | .ldaTrue | .ldaFalse
  | .ldaConstant | .ldaCurrentContextSlot | .ldar => true
  | _ => false

/-- Carries a forward distance that is filled in when its label is bound. -/
def isForwardJump : Opcode → Bool
  | .jump | .jumpIfTrue | .jumpIfFalse => true
  | _ => false

/-- Announces the operand scale of the instruction behind it. -/
def isScalePrefix : Opcode → Bool
  | .wide | .extraWide => true
  | _ => false

end Opcode
end BytecodeAssembler
