import BytecodeAssembler.Disassembly
import BytecodeAssembler.Proofs.Encoding
import Mathlib.Data.List.Basic
import Mathlib.Order.Nat

/-! # Disassembly undoes encoding

What fits an operand is read back from its bytes, so an instruction that is not a scale prefix is
read back from its encoding, whatever stands behind it (`readNext_encode`). Other bytes in the place
of its first operand change that operand alone (`readNext_patched`). Bytes that consist of such pieces
are read piece by piece (`readAll_flatMap`).
-/
namespace BytecodeAssembler

theorem toInt_toInt32 (v : UInt32) : v.toInt32.toInt = Int.bmod v.toNat 4294967296 := by
  show v.toBitVec.toInt = _
  rw [BitVec.toInt_eq_toNat_bmod]
  rfl

theorem ofInt_eq {v : UInt32} {x : Int} (h : x % 4294967296 = v.toNat) : UInt32.ofInt x = v := by
  have hx : UInt32.ofInt x = UInt32.ofNat (x % 4294967296).toNat := rfl
  rw [hx, h]
  simp

namespace Disassembled
variable {t : OpcodeTable} {i : Instruction} {bytes : List UInt8}

theorem readOperand_encode {k : OperandKind} {v : UInt32} {w : Width} (h : k.fits v w) :
    readOperand k (BigEndian.encode w.bytes v.toNat) = v := by
  have hv := v.toNat_lt
  unfold readOperand
  rw [BigEndian.value_encode, BigEndian.length_encode]
  by_cases hs : k.isSigned
  · rw [if_pos hs]
    apply ofInt_eq
    -- the low bytes, read as two's complement, are the integer that was in their range
    have hint := toInt_toInt32 v
    cases w with
    | none => cases h
    | quad =>
      simp only [Width.bytes, BigEndian.capacity]
      rw [Int.bmod_def]
      omega
    | byte | short =>
      simp only [OperandKind.fits, hs, hint, if_true, decide_eq_true_eq] at h
      simp only [Width.bytes, BigEndian.capacity]
      rw [Int.bmod_def] at h ⊢
      omega
  · rw [if_neg hs]
    have hlt : v.toNat < BigEndian.capacity w.bytes := by
      cases w with
      | none => cases h
      | quad => exact hv
      | byte | short => simpa [OperandKind.fits, hs, Width.bytes, BigEndian.capacity] using h
    rw [Nat.mod_eq_of_lt hlt]
    exact UInt32.ofNat_toNat

theorem readOperands_cons {s : Scale} {k : OperandKind} {ks : List OperandKind}
    {first rest tail : List UInt8} {vs : List UInt32} (hfirst : first.length = (k.width s).bytes)
    (hrest : readOperands s ks (rest ++ tail) = some (vs, tail)) :
    readOperands s (k :: ks) (first ++ rest ++ tail) = some (readOperand k first :: vs, tail) := by
  rw [List.append_assoc, readOperands, if_neg (by simp [hfirst]), ← hfirst, List.drop_left' rfl,
    List.take_left' rfl, hrest]
  rfl

theorem readOperands_encodeOperands {index : Nat} {ks : List OperandKind} {vs : List UInt32}
    (hlen : vs.length = ks.length) (h : i.encodeOperands index ks vs = .ok bytes)
    (tail : List UInt8) : readOperands i.scale ks (bytes ++ tail) = some (vs, tail) := by
  induction ks generalizing index vs bytes with
  | nil =>
    obtain rfl := List.eq_nil_of_length_eq_zero hlen
    cases h
    rfl
  | cons k ks ih =>
    cases vs with
    | nil => cases hlen
    | cons v vs =>
      obtain ⟨first, hfirst, h⟩ := bind_eq_ok.mp h
      obtain ⟨rest, hrest, h⟩ := bind_eq_ok.mp h
      cases h
      have hfits := Instruction.fits_of_encodeOperand hfirst
      obtain rfl := Instruction.encodeOperand_eq_ok hfirst
      have hlength := BigEndian.length_encode (k.width i.scale).bytes v.toNat
      have hread := readOperands_cons hlength (ih (by simpa using hlen) hrest)
      rwa [readOperand_encode hfits] at hread

theorem readOpcode_cons (o : Opcode) (tail : List UInt8) :
    readOpcode (o.toByte :: tail) = some (o, tail) := by
  simp [readOpcode, Opcode.ofByte?_toByte]

theorem readHeader_header {o : Opcode} (ho : o.isScalePrefix = false) (s : Scale)
    (tail : List UInt8) :
    readHeader (Instruction.header o s ++ tail) = some (o, s, tail) := by
  have hplain : scaleOfPrefix? o = none := by
    cases o <;> simp_all [scaleOfPrefix?, Opcode.isScalePrefix]
  cases s with
  | single => simp [readHeader, Instruction.header, Scale.prefixOpcode?, readOpcode_cons, hplain]
  | double | quad =>
    simp [readHeader, Instruction.header, Scale.prefixOpcode?, readOpcode_cons, scaleOfPrefix?]

theorem readNext_header {o : Opcode} {s : Scale} {d : Descriptor} {body tail : List UInt8}
    {vs : List UInt32} (ho : o.isScalePrefix = false) (hd : t.lookup o = .ok d)
    (hread : readOperands s d.operands (body ++ tail) = some (vs, tail)) :
    readNext t (Instruction.header o s ++ body ++ tail) = some (⟨o, s, vs⟩, tail) := by
  simp [readNext, List.append_assoc, readHeader_header ho, OpcodeTable.lookup_eq_ok_iff.mp hd,
    hread]

/-- An instruction is read back from its encoding. -/
theorem readNext_encode (ho : i.opcode.isScalePrefix = false) (h : i.encode t = .ok bytes)
    (tail : List UInt8) :
    readNext t (bytes ++ tail) = some (⟨i.opcode, i.scale, i.operands⟩, tail) := by
  obtain ⟨d, operands, hd, hlen, hoperands, rfl⟩ := Instruction.encode_eq_ok h
  exact readNext_header ho hd (readOperands_encodeOperands hlen hoperands tail)

/-- With other bytes as its first operand, an instruction is read back up to that operand. -/
theorem readNext_patched {v : UInt32} {vs : List UInt32} {w : Width} {ws : List Width}
    {first : List UInt8} (ho : i.opcode.isScalePrefix = false) (h : i.encode t = .ok bytes)
    (hv : i.operands = v :: vs) (hw : t.operandWidths i.opcode i.scale = .ok (w :: ws))
    (hfirst : first.length = w.bytes) :
    ∃ u, ∀ tail, readNext t (bytes.take (Instruction.header i.opcode i.scale).length ++
        (first ++ bytes.drop ((Instruction.header i.opcode i.scale).length + w.bytes)) ++ tail) =
      some (⟨i.opcode, i.scale, u :: vs⟩, tail) := by
  obtain ⟨d, operands, hd, hlen, hoperands, rfl⟩ := Instruction.encode_eq_ok h
  obtain ⟨d', hd', hwidths⟩ := OpcodeTable.operandWidths_eq_ok_iff.mp hw
  obtain rfl : d' = d := by rw [hd] at hd'; cases hd'; rfl
  rw [hv] at hlen hoperands
  cases hk : d'.operands with
  | nil => simp [hk] at hlen
  | cons k ks =>
    rw [hk] at hoperands hlen
    obtain ⟨old, hold, hoperands⟩ := bind_eq_ok.mp hoperands
    obtain ⟨rest, hrest, hoperands⟩ := bind_eq_ok.mp hoperands
    cases hoperands
    obtain rfl := Instruction.encodeOperand_eq_ok hold
    obtain ⟨rfl, -⟩ : k.width i.scale = w ∧ _ := by
      simpa [Descriptor.widths, hk] using hwidths
    refine ⟨readOperand k first, fun tail => ?_⟩
    rw [List.take_left' rfl, ← List.drop_drop, List.drop_left' rfl,
      List.drop_left' (BigEndian.length_encode ..)]
    apply readNext_header ho hd
    rw [hk]
    exact readOperands_cons hfirst (readOperands_encodeOperands (by simpa using hlen) hrest tail)

theorem readAll_append {d : Disassembled} (h : ∀ tail, readNext t (bytes ++ tail) = some (d, tail))
    (tail : List UInt8) : readAll t (bytes ++ tail) = (readAll t tail).map (d :: ·) := by
  have hne : bytes ++ tail ≠ [] := by
    intro hnil
    have hlt := length_of_readNext (h tail)
    simp [hnil] at hlt
  rw [readAll, if_neg (by simpa using hne)]
  split
  next hnone => simp [h] at hnone
  next d' rest hsome =>
    rw [h] at hsome
    cases hsome
    rfl

/-- Bytes made of pieces that read as instructions read as these instructions. -/
theorem readAll_flatMap {α : Type} {P : Disassembled → α → Prop} {image : α → List UInt8}
    {xs : List α}
    (h : ∀ x ∈ xs, ∃ d, P d x ∧ ∀ tail, readNext t (image x ++ tail) = some (d, tail)) :
    ∃ ds, readAll t (xs.flatMap image) = some ds ∧ List.Forall₂ P ds xs := by
  induction xs with
  | nil => exact ⟨[], by simp [readAll], .nil⟩
  | cons x xs ih =>
    obtain ⟨d, hd, hread⟩ := h x List.mem_cons_self
    obtain ⟨ds, hds, hall⟩ := ih fun y hy => h y (List.mem_cons_of_mem _ hy)
    refine ⟨d :: ds, ?_, .cons hd hall⟩
    rw [List.flatMap_cons, readAll_append hread, hds]
    rfl

end Disassembled
end BytecodeAssembler
