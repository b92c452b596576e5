import BytecodeAssembler.Assembler.State

/-! # Writing instructions

Behind the end of a block nothing is written until the next block begins. A pure load is retracted
when the next instruction of its block overwrites the accumulator unread, unless each of the two has
a source position of its own.
-/
namespace BytecodeAssembler

namespace Assembler

/-- The last instruction, if writing `next` makes it dead and no position is lost with it. -/
def deadLoad? (a : Assembler) (next : Opcode) (hasPosition : Bool) :
    Except InstructionError (Option LastInstruction) :=
  match a.last with
  | none => .ok none
  | some l =>
    if l.opcode.isPureLoad then
      (a.table.accumulatorUse next).map fun use =>
        if use == .write && !(l.hasPosition && hasPosition) then some l else none
    else .ok none

def retract (a : Assembler) (dead : Option LastInstruction) : Assembler :=
  match dead with
  | none => a
  | some l => { a with code := a.code.shrink l.offset }

/-- From here on the instruction about to be written is the last one of its block. -/
def advance (a : Assembler) (next : Opcode) (hasPosition : Bool) : Assembler :=
  { a with last := some ⟨next, a.code.size, hasPosition⟩ }

def closeAfter (a : Assembler) (o : Opcode) : Assembler :=
  if o.isTerminator then { a with blockClosed := true } else a

end Assembler

namespace Assembly

/-- Retracts the load that `next` makes dead; `next` takes over its position. -/
def elide (next : Opcode) (hasPosition : Bool) : Assembly Unit := do
  if (← get).options.elideDeadLoads then
    let dead ← ofInstruction ((← get).deadLoad? next hasPosition)
    modify fun a => (a.retract dead).advance next (hasPosition || dead.any (·.hasPosition))

theorem run_elide (next : Opcode) (hasPosition : Bool) (a : Assembler) :
    (elide next hasPosition).run a =
      if a.options.elideDeadLoads then
        match a.deadLoad? next hasPosition with
        | .error e => .error (.instruction e) a
        | .ok dead =>
          .ok () ((a.retract dead).advance next (hasPosition || dead.any (·.hasPosition)))
      else .ok () a := by
  simp only [elide, EStateM.run_bind, EStateM.run_get]
  split
  · cases h : a.deadLoad? next hasPosition <;> simp [EStateM.run_bind, run_ofInstruction, h]
  · rfl

def record (source : SourceInfo) : Assembly Unit :=
  match source.position? with
  | none => pure ()
  | some p => do
    let offset := UInt32.ofNat (← get).code.size
    match (← get).log.later? offset with
    | some last => throw (.positionOrder offset last)
    | none => modify fun a => { a with log := a.log.push offset ⟨p, source.isStatement⟩ }

def commit (i : Instruction) (bytes : List UInt8) : Assembly Unit := do
  modify (·.closeAfter i.opcode)
  elide i.opcode i.source.isPresent
  record i.source
  modify fun a => { a with code := a.code ++ bytes }

/-- Writes an instruction, or drops it if the block has ended. -/
def write (i : Instruction) : Assembly Unit := do
  if (← get).blockClosed then return ()
  let bytes ← ofInstruction (i.encode (← get).table)
  commit i bytes

theorem run_write (i : Instruction) (a : Assembler) :
    (write i).run a =
      if a.blockClosed then .ok () a
      else match i.encode a.table with
        | .error e => .error (.instruction e) a
        | .ok bytes => (commit i bytes).run a := by
  simp only [write, EStateM.run_bind, EStateM.run_get]
  split
  · rfl
  · cases h : i.encode a.table <;> simp [EStateM.run_bind, run_ofInstruction, h]

end Assembly
end BytecodeAssembler
