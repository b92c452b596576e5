import BytecodeAssembler.InstructionError

/-! # Opcode tables

A table declares for each of its opcodes what it does with the accumulator and which operands it
takes. `defect?` finds the first thing wrong with a list of declarations, and a table is a list
without a defect; `ofDescriptors` builds one or reports the defect.
-/
namespace BytecodeAssembler

def Scale.prefixOpcode? : Scale → Option Opcode
  | .single => none
  | .double => some .wide
  | .quad => some .extraWide

def maxOperands : Nat := 5

structure Descriptor where
  opcode : Opcode
  use : AccumulatorUse
  operands : List OperandKind
  deriving DecidableEq

namespace Descriptor

def widths (d : Descriptor) (s : Scale) : List Width := d.operands.map (·.width s)

/-- An operand that takes no byte at some scale. -/
def unsized (k : OperandKind) : Bool := Scale.all.any fun s => k.width s == .none

/-- The first thing wrong with a declaration that follows declarations of the opcodes `seen`. -/
def defect? (seen : List Opcode) (d : Descriptor) : Option InstructionError :=
  if d.opcode ∈ seen then some (.duplicateOpcode d.opcode)
  else if maxOperands < d.operands.length then
    some (.tooManyOperands d.opcode d.operands.length maxOperands)
  else if d.opcode.isScalePrefix && !d.operands.isEmpty then
    some (.malformedPrefix (.withOperands d.opcode))
  else (d.operands.findIdx? unsized).map (.unsizedOperand d.opcode)

end Descriptor

namespace OpcodeTable

def declarationDefect? (seen : List Opcode) : List Descriptor → Option InstructionError
  | [] => none
  | d :: ds => (d.defect? seen).or (declarationDefect? (d.opcode :: seen) ds)

def scalePrefixes : List Opcode := Scale.all.filterMap Scale.prefixOpcode?

def missingPrefix? (ds : List Descriptor) : Option InstructionError :=
  (scalePrefixes.find? fun o => !ds.any (·.opcode == o)).map fun o =>
    .malformedPrefix (.undeclared o)

def defect? (ds : List Descriptor) : Option InstructionError :=
  (declarationDefect? [] ds).or (missingPrefix? ds)

end OpcodeTable

structure OpcodeTable where
  descriptors : List Descriptor
  wellFormed : OpcodeTable.defect? descriptors = none

namespace OpcodeTable

def ofDescriptors (ds : List Descriptor) : Except InstructionError OpcodeTable :=
  match h : defect? ds with
  | some e => .error e
  | none => .ok ⟨ds, h⟩

def find? (t : OpcodeTable) (o : Opcode) : Option Descriptor :=
  t.descriptors.find? (·.opcode == o)

def contains (t : OpcodeTable) (o : Opcode) : Bool := (t.find? o).isSome

def lookup (t : OpcodeTable) (o : Opcode) : Except InstructionError Descriptor :=
  match t.find? o with
  | some d => .ok d
  | none => .error (.unknownOpcode o)

def operandKinds (t : OpcodeTable) (o : Opcode) : Except InstructionError (List OperandKind) :=
  (t.lookup o).map (·.operands)

def operandCount (t : OpcodeTable) (o : Opcode) : Except InstructionError Nat :=
  (t.lookup o).map (·.operands.length)

def operandWidths (t : OpcodeTable) (o : Opcode) (s : Scale) :
    Except InstructionError (List Width) :=
  (t.lookup o).map (·.widths s)

def accumulatorUse (t : OpcodeTable) (o : Opcode) : Except InstructionError AccumulatorUse :=
  (t.lookup o).map (·.use)

/-- The bytes one instruction takes: its prefix if the scale has one, its opcode, its operands. -/
def instructionSize (t : OpcodeTable) (o : Opcode) (s : Scale) : Except InstructionError Nat :=
  (t.operandWidths o s).map fun ws => s.prefixOpcode?.toList.length + 1 + Width.total ws

theorem opcode_of_find? {t : OpcodeTable} {o : Opcode} {d : Descriptor} (h : t.find? o = some d) :
    d.opcode = o := by
  simpa using List.find?_some h

theorem lookup_eq_ok_iff {t : OpcodeTable} {o : Opcode} {d : Descriptor} :
    t.lookup o = .ok d ↔ t.find? o = some d := by
  unfold lookup; split <;> simp_all

end OpcodeTable
end BytecodeAssembler
