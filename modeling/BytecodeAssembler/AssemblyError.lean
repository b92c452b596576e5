import BytecodeAssembler.InstructionError

/-! # Faults of assembly

What can go wrong while code is assembled or registers are tracked, with the wording of each fault.
-/
namespace BytecodeAssembler

/-- Why an opcode and a label do not make a jump. -/
inductive JumpDefect
  | notForward (opcode : Opcode)
  | notLoop (opcode : Opcode)
  | targetBound (opcode : Opcode) (label : Nat)
  | headerUnbound (label : Nat)
  | other (text : String)
  deriving DecidableEq

def JumpDefect.message : JumpDefect → String
  | .notForward o => s!"{o.name} is not a forward jump"
  | .notLoop o => s!"{o.name} is not a loop jump"
  | .targetBound o label => s!"{o.name} targets label {label} which is already bound"
  | .headerUnbound label => s!"loop header label {label} is not bound"
  | .other text => text

/-- How the rings of a register pool are damaged. Nodes are named by slot. -/
inductive RingDefect
  | deadLink (slot : Nat)
  | notLinkedBack (slot : Nat)
  | mixedClasses (slot next : Nat)
  | neverCloses (slot : Nat)
  | broken (slot : Nat)
  | splitClass (id : UInt32)
  | other (text : String)
  deriving DecidableEq

def handleText (slot : Nat) : String := s!"InfoId({slot})"

def RingDefect.message : RingDefect → String
  | .deadLink n => s!"{handleText n} links to a freed slot"
  | .notLinkedBack n => s!"{handleText n} is not linked back"
  | .mixedClasses n next => s!"{handleText n} and {handleText next} share a ring but not a class"
  | .neverCloses n => s!"ring through {handleText n} never closes"
  | .broken n => s!"ring through {handleText n} is broken"
  | .splitClass id => s!"class EquivalenceId({id.toNat}) spans more than one ring"
  | .other text => text

/-- A request that a sound client never makes. -/
inductive InternalFault
  | alreadyTracked (register : Register)
  | other (text : String)
  deriving DecidableEq

def InternalFault.message : InternalFault → String
  | .alreadyTracked r => s!"register r{r.index.toNat} is already tracked"
  | .other text => text

inductive AssemblyError
  | instruction (cause : InstructionError)
  | positionOrder (offset last : UInt32)
  | labelAlreadyBound (label : Nat)
  | unknownLabel (label : Nat)
  | invalidJump (defect : JumpDefect)
  | jumpOutOfRange (distance : Nat) (scale : Scale)
  | negativeDistance
  | unboundJumps (count : Nat)
  | corruptRing (defect : RingDefect)
  | internal (fault : InternalFault)
  deriving DecidableEq

namespace AssemblyError

def message : AssemblyError → String
  | .instruction cause => cause.message
  | .positionOrder offset last =>
    s!"Source position at offset {offset.toNat} recorded after offset {last.toNat}"
  | .labelAlreadyBound label => s!"Label {label} is already bound"
  | .unknownLabel label => s!"Unknown label {label}"
  | .invalidJump defect => s!"Invalid jump: {defect.message}"
  | .jumpOutOfRange distance scale =>
    s!"Jump distance {distance} does not fit at scale {scale.name}"
  | .negativeDistance => "attempt to subtract with overflow"
  | .unboundJumps count => s!"{count} jumps were never bound"
  | .corruptRing defect => s!"Corrupt equivalence ring: {defect.message}"
  | .internal fault => s!"Internal error: {fault.message}"

end AssemblyError
end BytecodeAssembler
