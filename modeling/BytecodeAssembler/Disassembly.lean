import BytecodeAssembler.Encoding

/-! # Disassembly

The code is read from left to right: an optional scale prefix, an opcode byte, and each operand at
the width the table gives it, signed kinds extended to 32 bits.
-/
namespace BytecodeAssembler

structure Disassembled where
  opcode : Opcode
  scale : Scale
  operands : List UInt32
  deriving DecidableEq

namespace Disassembled

def readOperand (k : OperandKind) (bytes : List UInt8) : UInt32 :=
  if k.isSigned then .ofInt (Int.bmod (BigEndian.value bytes) (BigEndian.capacity bytes.length))
  else .ofNat (BigEndian.value bytes)

def readOperands (s : Scale) : List OperandKind → List UInt8 → Option (List UInt32 × List UInt8)
  | [], bytes => some ([], bytes)
  | k :: ks, bytes =>
    let n := (k.width s).bytes
    if bytes.length < n then none
    else (readOperands s ks (bytes.drop n)).map fun (vs, rest) =>
      (readOperand k (bytes.take n) :: vs, rest)

def scaleOfPrefix? : Opcode → Option Scale
  | .wide => some .double
  | .extraWide => some .quad
  | _ => none

def readOpcode : List UInt8 → Option (Opcode × List UInt8)
  | [] => none
  | b :: bytes => (Opcode.ofByte? b).map (·, bytes)

/-- The opcode and the scale that a prefix in front of it announces. -/
def readHeader (bytes : List UInt8) : Option (Opcode × Scale × List UInt8) := do
  let (o, rest) ← readOpcode bytes
  match scaleOfPrefix? o with
  | none => return (o, .single, rest)
  | some s => (readOpcode rest).map fun (o, rest) => (o, s, rest)

def readNext (t : OpcodeTable) (bytes : List UInt8) : Option (Disassembled × List UInt8) := do
  let (o, s, bytes) ← readHeader bytes
  let d ← t.find? o
  let (vs, rest) ← readOperands s d.operands bytes
  return (⟨o, s, vs⟩, rest)

theorem length_of_readOpcode {bytes rest : List UInt8} {o : Opcode}
    (h : readOpcode bytes = some (o, rest)) : rest.length < bytes.length := by
  cases bytes with
  | nil => cases h
  | cons b bytes =>
    obtain ⟨_, _, he⟩ := Option.map_eq_some_iff.mp h
    cases he
    simp

theorem length_of_readHeader {bytes rest : List UInt8} {o : Opcode} {s : Scale}
    (h : readHeader bytes = some (o, s, rest)) : rest.length < bytes.length := by
  simp only [readHeader, bind, Option.bind_eq_some_iff, Prod.exists] at h
  obtain ⟨p, mid, hp, h⟩ := h
  have hlt := length_of_readOpcode hp
  cases hs : scaleOfPrefix? p with
  | none =>
    simp only [hs, pure, Option.some.injEq, Prod.mk.injEq] at h
    exact h.2.2 ▸ hlt
  | some s' =>
    simp only [hs, Option.map_eq_some_iff, Prod.exists, Prod.mk.injEq] at h
    obtain ⟨_, _, ho, -, -, rfl⟩ := h
    exact Nat.lt_trans (length_of_readOpcode ho) hlt

theorem length_of_readOperands {s : Scale} {ks : List OperandKind} {bytes rest : List UInt8}
    {vs : List UInt32} (h : readOperands s ks bytes = some (vs, rest)) :
    rest.length ≤ bytes.length := by
  induction ks generalizing bytes vs with
  | nil => grind [readOperands]
  | cons k ks ih =>
    simp only [readOperands] at h
    split at h
    · cases h
    · obtain ⟨⟨us, r⟩, hr, he⟩ := Option.map_eq_some_iff.mp h
      cases he
      simpa using Nat.le_trans (ih hr) (by simp)

theorem length_of_readNext {t : OpcodeTable} {bytes rest : List UInt8} {i : Disassembled}
    (h : readNext t bytes = some (i, rest)) : rest.length < bytes.length := by
  simp only [readNext, bind, Option.bind_eq_some_iff, Prod.exists] at h
  obtain ⟨o, s, body, hh, d, -, vs, r, hr, he⟩ := h
  cases he
  exact Nat.lt_of_le_of_lt (length_of_readOperands hr) (length_of_readHeader hh)

/-- The instructions that the bytes spell, or none if they end inside one or name no opcode. -/
def readAll (t : OpcodeTable) (bytes : List UInt8) : Option (List Disassembled) :=
  if bytes.isEmpty then some []
  else match h : readNext t bytes with
    | none => none
    | some (i, rest) =>
      have := length_of_readNext h
      (readAll t rest).map (i :: ·)
termination_by bytes.length

end Disassembled
end BytecodeAssembler
