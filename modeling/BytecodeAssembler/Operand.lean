/-! # Operands

A raw operand is a 32-bit word. Its kind says how many bytes it takes at an operand scale and
whether it reads as a two's complement integer. `OperandKind.fits_width_iff` says that the scale
chosen for a scalable operand is the narrowest that holds it.
-/
namespace BytecodeAssembler

structure Register where
  index : UInt16
  deriving DecidableEq, Inhabited

namespace Register

def toOperand (r : Register) : UInt32 := r.index.toUInt32

instance : LE Register := ⟨fun a b => a.index ≤ b.index⟩
instance : LT Register := ⟨fun a b => a.index < b.index⟩
instance (a b : Register) : Decidable (a ≤ b) := inferInstanceAs (Decidable (a.index ≤ b.index))
instance (a b : Register) : Decidable (a < b) := inferInstanceAs (Decidable (a.index < b.index))

theorem le_iff_toNat_le {a b : Register} : a ≤ b ↔ a.index.toNat ≤ b.index.toNat :=
  UInt16.le_iff_toNat_le

theorem lt_iff_toNat_lt {a b : Register} : a < b ↔ a.index.toNat < b.index.toNat :=
  UInt16.lt_iff_toNat_lt

theorem not_lt {a b : Register} : ¬a < b ↔ b ≤ a := UInt16.not_lt

theorem lt_of_le_of_ne {a b : Register} (h : a ≤ b) (hne : a ≠ b) : a < b :=
  UInt16.lt_of_le_of_ne h fun hindex => hne (congrArg mk hindex)

end Register

/-- What an instruction does with the accumulator. -/
inductive AccumulatorUse
  | none | read | write | readWrite
  deriving DecidableEq, Inhabited

namespace AccumulatorUse

def all : List AccumulatorUse := [.none, .read, .write, .readWrite]

def reads : AccumulatorUse → Bool
  | .read | .readWrite => true
  | _ => false

def writes : AccumulatorUse → Bool
  | .write | .readWrite => true
  | _ => false

def name : AccumulatorUse → String
  | .none => "None" | .read => "Read" | .write => "Write" | .readWrite => "ReadWrite"

end AccumulatorUse

/-- The factor by which scalable operands are widened; all but `single` need a scale prefix. -/
inductive Scale
  | single | double | quad
  deriving DecidableEq, Inhabited

namespace Scale

def all : List Scale := [.single, .double, .quad]

def multiplier : Scale → Nat
  | .single => 1 | .double => 2 | .quad => 4

def name : Scale → String
  | .single => "Single" | .double => "Double" | .quad => "Quad"

def forUnsigned (v : UInt32) : Scale :=
  if v.toNat < 256 then .single else if v.toNat < 65536 then .double else .quad

def forSigned (v : Int32) : Scale :=
  if -128 ≤ v.toInt ∧ v.toInt < 128 then .single
  else if -32768 ≤ v.toInt ∧ v.toInt < 32768 then .double
  else .quad

def wider (a b : Scale) : Scale := if a.multiplier < b.multiplier then b else a

/-- The narrowest scale that is at least as wide as each in the list. -/
def widest (scales : List Scale) : Scale := scales.foldl wider .single

end Scale

/-- The bytes one operand takes in the code. -/
inductive Width
  | none | byte | short | quad
  deriving DecidableEq, Inhabited

namespace Width

def all : List Width := [.none, .byte, .short, .quad]

def bytes : Width → Nat
  | .none => 0 | .byte => 1 | .short => 2 | .quad => 4

def name : Width → String
  | .none => "None" | .byte => "Byte" | .short => "Short" | .quad => "Quad"

def total : List Width → Nat
  | [] => 0
  | w :: ws => w.bytes + total ws

end Width

inductive OperandKind
  | none | flag8 | runtimeId | reg | regOut | regList | regCount | idx | uimm | imm
  deriving DecidableEq, Inhabited

namespace OperandKind

def all : List OperandKind :=
  [.none, .flag8, .runtimeId, .reg, .regOut, .regList, .regCount, .idx, .uimm, .imm]

def name : OperandKind → String
  | .none => "None" | .flag8 => "Flag8" | .runtimeId => "RuntimeId" | .reg => "Reg"
  | .regOut => "RegOut" | .regList => "RegList" | .regCount => "RegCount" | .idx => "Idx"
  | .uimm => "UImm" | .imm => "Imm"

def isScalable : OperandKind → Bool
  | .none | .flag8 | .runtimeId => false
  | _ => true

def isSigned : OperandKind → Bool
  | .imm => true
  | _ => false

def width : OperandKind → Scale → Width
  | .none, _ => .none
  | .flag8, _ => .byte
  | .runtimeId, _ => .short
  | _, .single => .byte
  | _, .double => .short
  | _, .quad => .quad

/-- The narrowest scale at which the operand fits; kinds of fixed width ask for none. -/
def scaleFor (k : OperandKind) (v : UInt32) : Scale :=
  if !k.isScalable then .single
  else if k.isSigned then .forSigned v.toInt32
  else .forUnsigned v

/-- The operand's value, as its kind reads it, lies in the range of the width. -/
def fits (k : OperandKind) (v : UInt32) : Width → Bool
  | .none => false
  | .quad => true
  | .byte =>
    if k.isSigned then decide (-128 ≤ v.toInt32.toInt ∧ v.toInt32.toInt < 128)
    else decide (v.toNat < 256)
  | .short =>
    if k.isSigned then decide (-32768 ≤ v.toInt32.toInt ∧ v.toInt32.toInt < 32768)
    else decide (v.toNat < 65536)

theorem width_ne_none {k : OperandKind} (h : k ≠ .none) (s : Scale) : k.width s ≠ .none := by
  cases k <;> cases s <;> simp_all [width]

/-- A scalable operand fits at the scale chosen for it and at every wider one. -/
theorem fits_width_iff {k : OperandKind} {v : UInt32} {s : Scale} (h : k.isScalable) :
    k.fits v (k.width s) ↔ (k.scaleFor v).multiplier ≤ s.multiplier := by
  cases k <;> simp only [isScalable, Bool.false_eq_true] at h <;> cases s <;>
    simp only [scaleFor, isScalable, isSigned, Scale.forUnsigned, Scale.forSigned, width, fits] <;>
    grind [Scale.multiplier]

end OperandKind
end BytecodeAssembler
