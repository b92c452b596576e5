import BytecodeAssembler.Assembler.Emission

/-! # Labels and jumps

A forward jump is written with distance zero and noted at its label. Binding the label writes the
distance, measured from the first byte of the jump, into each jump that waits for it. A loop jump
goes back to a bound label, so its distance is known when it is written.
-/
namespace BytecodeAssembler

/-- Whether a distance fits an operand of this width. -/
def Width.holdsDistance (w : Width) (distance : Nat) : Bool :=
  decide (distance < UInt32.size) && OperandKind.uimm.fits (.ofNat distance) w

namespace Assembler

/-- Why the opcode does not make a forward jump to the label. -/
def jumpFault? (a : Assembler) (o : Opcode) (label : Nat) : Option AssemblyError :=
  if o.isForwardJump then
    match a.labels[label]? with
    | none => some (.unknownLabel label)
    | some (.bound _) => some (.invalidJump (.targetBound o label))
    | some (.pending _) => none
  else some (.invalidJump (.notForward o))

def loopTarget (a : Assembler) (o : Opcode) (header : Nat) : Except AssemblyError Nat :=
  if o = .jumpLoop then
    match a.labels[header]? with
    | none => .error (.unknownLabel header)
    | some (.pending _) => .error (.invalidJump (.headerUnbound header))
    | some (.bound target) => .ok target
  else .error (.invalidJump (.notLoop o))

def await (a : Assembler) (label : Nat) (site : JumpSite) : Assembler :=
  { a with
    labels := a.labels.modify label fun
      | .pending sites => .pending (sites.push site)
      | .bound offset => .bound offset
    unboundJumps := a.unboundJumps + 1 }

def overwrite (code : Array UInt8) : Nat → List UInt8 → Array UInt8
  | _, [] => code
  | offset, b :: bs => overwrite (code.setIfInBounds offset b) (offset + 1) bs

@[simp] theorem size_overwrite (code : Array UInt8) (offset : Nat) (bytes : List UInt8) :
    (overwrite code offset bytes).size = code.size := by
  induction bytes generalizing code offset with
  | nil => rfl
  | cons b bs ih => simp [overwrite, ih]

/-- Writes the distance of a jump into its operand. -/
def patch (a : Assembler) (site : JumpSite) (distance : Nat) : Assembler :=
  { a with
    code := overwrite a.code site.operandOffset (BigEndian.encode site.width.bytes distance) }

end Assembler

namespace Assembly

/-- The jump that ends the code written so far. -/
def siteOf (i : Instruction) (size : Nat) : Assembly JumpSite := do
  let a ← get
  let widths ← ofInstruction (a.table.operandWidths i.opcode i.scale)
  let start := a.code.size - size
  return ⟨start, start + i.scale.prefixOpcode?.toList.length + 1, widths.headD .none, i.scale⟩

/-- Writes a forward jump to a label that is not bound yet. -/
def writeJump (i : Instruction) (label : Nat) : Assembly Unit := do
  match (← get).jumpFault? i.opcode label with
  | some e => throw e
  | none =>
    if (← get).blockClosed then return ()
    let jump ← ofInstruction (i.setOperand 0 0)
    let bytes ← ofInstruction (jump.encode (← get).table)
    commit jump bytes
    let site ← siteOf i bytes.length
    modify (·.await label site)

/-- Fills in the distance from a jump to `target`, if its operand is wide enough. -/
def resolve (target : Nat) (site : JumpSite) : Assembly Unit := do
  let distance := target - site.start
  if site.width.holdsDistance distance then modify (·.patch site distance)
  else throw (.jumpOutOfRange distance site.scale)

/-- Binds a label to the end of the code. The first jump that cannot reach it is reported; the
label stays bound, and the jumps in front of that one stay resolved. -/
def bindLabel (label : Nat) : Assembly Unit := do
  match (← get).labels[label]? with
  | none => throw (.unknownLabel label)
  | some (.bound _) => throw (.labelAlreadyBound label)
  | some (.pending sites) =>
    let target := (← get).code.size
    modify fun a => { a with labels := a.labels.setIfInBounds label (.bound target) }
    sites.toList.forM (resolve target)
    modify fun a => { a with unboundJumps := a.unboundJumps - sites.size }
    modify (·.startBlock)

def writeLoop (i : Instruction) (header : Nat) : Assembly Unit := do
  match (← get).loopTarget i.opcode header with
  | .error e => throw e
  | .ok target =>
    if (← get).blockClosed then return ()
    -- a label that was bound out of reach of a jump may be left behind the end of the code
    if (← get).code.size < target then throw .negativeDistance
    let distance := (← get).code.size - target
    let widths ← ofInstruction ((← get).table.operandWidths i.opcode i.scale)
    if widths.head?.any (·.holdsDistance distance) then
      write (← ofInstruction (i.setOperand 0 (.ofNat distance)))
    else throw (.jumpOutOfRange distance i.scale)

end Assembly
end BytecodeAssembler
