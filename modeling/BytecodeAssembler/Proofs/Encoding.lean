import BytecodeAssembler.Encoding

/-! # The layout of an encoded instruction

The bytes of an instruction are its header, its first operand and the rest, and their number is the
size that the table declares. Replacing the first operand changes nothing else of an instruction.
-/
namespace BytecodeAssembler

theorem bind_eq_ok {ε α β : Type} {x : Except ε α} {f : α → Except ε β} {b : β} :
    (x >>= f) = .ok b ↔ ∃ a, x = .ok a ∧ f a = .ok b := by
  cases x with
  | error e => simp [bind, Except.bind]
  | ok a => simp [bind, Except.bind]

theorem bind_eq_error {ε α β : Type} {x : Except ε α} {f : α → Except ε β} {e : ε} :
    (x >>= f) = .error e ↔ x = .error e ∨ ∃ a, x = .ok a ∧ f a = .error e := by
  cases x with
  | error e => simp [bind, Except.bind]
  | ok a => simp [bind, Except.bind]

theorem map_eq_ok {ε α β : Type} {x : Except ε α} {f : α → β} {b : β} :
    x.map f = .ok b ↔ ∃ a, x = .ok a ∧ f a = b := by
  cases x with
  | error e => simp [Except.map]
  | ok a => simp [Except.map]

theorem map_eq_error {ε α β : Type} {x : Except ε α} {f : α → β} {e : ε} :
    x.map f = .error e ↔ x = .error e := by
  cases x with
  | error e => simp [Except.map]
  | ok a => simp [Except.map]

namespace OpcodeTable
variable {t : OpcodeTable} {o : Opcode} {s : Scale}

theorem operandWidths_eq_ok_iff {ws : List Width} :
    t.operandWidths o s = .ok ws ↔ ∃ d, t.lookup o = .ok d ∧ d.widths s = ws := map_eq_ok

/-- The width of the first operand, none if there is no operand. -/
def firstWidth (t : OpcodeTable) (o : Opcode) (s : Scale) : Width :=
  match t.operandWidths o s with
  | .ok (w :: _) => w
  | _ => .none

theorem firstWidth_eq {w : Width} {ws : List Width} (h : t.operandWidths o s = .ok (w :: ws)) :
    t.firstWidth o s = w := by
  simp [firstWidth, h]

theorem accumulatorUse_eq_ok_iff {u : AccumulatorUse} :
    t.accumulatorUse o = .ok u ↔ ∃ d, t.lookup o = .ok d ∧ d.use = u := map_eq_ok

theorem instructionSize_of_lookup {d : Descriptor} (h : t.lookup o = .ok d) :
    t.instructionSize o s =
      .ok (s.prefixOpcode?.toList.length + 1 + Width.total (d.widths s)) := by
  simp [instructionSize, operandWidths, h, Except.map]

end OpcodeTable

namespace Instruction

/-- An instruction without a position. Operands beyond the fifth are left out. -/
def bare (o : Opcode) (s : Scale) (vs : List UInt32) : Instruction :=
  ⟨o, s, vs.take maxOperands, .absent, List.length_take_le ..⟩

variable {t : OpcodeTable} {i j : Instruction} {bytes : List UInt8}

theorem encodeOperand_eq_ok {index : Nat} {k : OperandKind} {v : UInt32}
    (h : i.encodeOperand index k v = .ok bytes) :
    bytes = BigEndian.encode (k.width i.scale).bytes v.toNat := by
  simp only [encodeOperand] at h
  split at h
  · cases h
  · split at h
    · cases h
      rfl
    · cases h

theorem fits_of_encodeOperand {index : Nat} {k : OperandKind} {v : UInt32}
    (h : i.encodeOperand index k v = .ok bytes) : k.fits v (k.width i.scale) := by
  simp only [encodeOperand] at h
  split at h
  · cases h
  · split at h
    next hfits => exact hfits
    next => cases h

theorem length_encodeOperands {index : Nat} {ks : List OperandKind} {vs : List UInt32}
    (hlen : vs.length = ks.length) (h : i.encodeOperands index ks vs = .ok bytes) :
    bytes.length = Width.total (ks.map (·.width i.scale)) := by
  induction ks generalizing index vs bytes with
  | nil =>
    cases h
    rfl
  | cons k ks ih =>
    cases vs with
    | nil => cases hlen
    | cons v vs =>
      obtain ⟨first, hfirst, h⟩ := bind_eq_ok.mp h
      obtain ⟨rest, hrest, h⟩ := bind_eq_ok.mp h
      cases h
      have hrest := ih (by simpa using hlen) hrest
      simp [encodeOperand_eq_ok hfirst, hrest, Width.total]

theorem encode_eq_ok (h : i.encode t = .ok bytes) :
    ∃ d operands, t.lookup i.opcode = .ok d ∧ i.operands.length = d.operands.length ∧
      i.encodeOperands 0 d.operands i.operands = .ok operands ∧
      bytes = header i.opcode i.scale ++ operands := by
  obtain ⟨d, hd, h⟩ := bind_eq_ok.mp h
  by_cases hlen : i.operands.length = d.operands.length
  · simp only [hlen, ne_eq, not_true_eq_false, ↓reduceIte] at h
    obtain ⟨operands, ho, h⟩ := bind_eq_ok.mp h
    cases h
    exact ⟨d, operands, hd, hlen, ho, rfl⟩
  · simp only [ne_eq, hlen, not_false_eq_true, ↓reduceIte] at h
    cases h

/-- The table's size of an instruction is the number of its bytes. -/
theorem instructionSize_of_encode (h : i.encode t = .ok bytes) :
    t.instructionSize i.opcode i.scale = .ok bytes.length := by
  obtain ⟨d, operands, hd, hlen, ho, rfl⟩ := encode_eq_ok h
  rw [OpcodeTable.instructionSize_of_lookup hd, List.length_append, length_header,
    length_encodeOperands hlen ho]
  rfl

theorem encode_ne_nil (h : i.encode t = .ok bytes) : bytes ≠ [] := by
  obtain ⟨_, _, _, _, _, rfl⟩ := encode_eq_ok h
  simp [header]

theorem header_add_firstWidth_le (h : i.encode t = .ok bytes) :
    (header i.opcode i.scale).length + (t.firstWidth i.opcode i.scale).bytes ≤ bytes.length := by
  obtain ⟨d, operands, hd, hlen, ho, rfl⟩ := encode_eq_ok h
  have hwidths : t.operandWidths i.opcode i.scale = .ok (d.widths i.scale) :=
    OpcodeTable.operandWidths_eq_ok_iff.mpr ⟨d, hd, rfl⟩
  have hoperands := length_encodeOperands hlen ho
  rw [List.length_append]
  cases hk : d.operands with
  | nil =>
    simp [OpcodeTable.firstWidth, hwidths, Descriptor.widths, hk, Width.bytes]
  | cons k ks =>
    have hfirst : t.firstWidth i.opcode i.scale = k.width i.scale :=
      OpcodeTable.firstWidth_eq (by rw [hwidths, Descriptor.widths, hk, List.map_cons])
    rw [hk, List.map_cons, Width.total] at hoperands
    rw [hfirst]
    omega

theorem encode_first {v : UInt32} {vs : List UInt32} (hv : i.operands = v :: vs)
    (h : i.encode t = .ok bytes) :
    ∃ w ws rest, t.operandWidths i.opcode i.scale = .ok (w :: ws) ∧
      bytes = header i.opcode i.scale ++ (BigEndian.encode w.bytes v.toNat ++ rest) := by
  obtain ⟨d, operands, hd, hlen, ho, rfl⟩ := encode_eq_ok h
  rw [hv] at hlen ho
  cases hk : d.operands with
  | nil => simp [hk] at hlen
  | cons k ks =>
    rw [hk] at ho
    obtain ⟨first, hfirst, ho⟩ := bind_eq_ok.mp ho
    obtain ⟨rest, -, ho⟩ := bind_eq_ok.mp ho
    cases ho
    refine ⟨k.width i.scale, ks.map (·.width i.scale), rest, ?_, ?_⟩
    · exact OpcodeTable.operandWidths_eq_ok_iff.mpr ⟨d, hd, by simp [Descriptor.widths, hk]⟩
    · rw [encodeOperand_eq_ok hfirst]

theorem take_drop_encode {v : UInt32} {vs : List UInt32} {w : Width} {ws : List Width}
    (h : i.encode t = .ok bytes) (hv : i.operands = v :: vs)
    (hw : t.operandWidths i.opcode i.scale = .ok (w :: ws)) :
    (bytes.drop (header i.opcode i.scale).length).take w.bytes =
      BigEndian.encode w.bytes v.toNat := by
  obtain ⟨w', ws', rest, hw', rfl⟩ := encode_first hv h
  rw [hw] at hw'
  cases hw'
  rw [List.drop_left' rfl]
  exact List.take_left' (BigEndian.length_encode ..)

theorem setOperand_zero {v : UInt32} (h : i.setOperand 0 v = .ok j) :
    j.opcode = i.opcode ∧ j.scale = i.scale ∧ j.source = i.source ∧
      j.operands = v :: i.operands.tail := by
  unfold setOperand at h
  split at h
  · cases h
    refine ⟨rfl, rfl, rfl, ?_⟩
    show i.operands.set 0 v = v :: i.operands.tail
    cases ho : i.operands with
    | nil => simp_all
    | cons u us => rfl
  · cases h

/-- The instruction with its first operand replaced, and its bytes. -/
def encodeWith (t : OpcodeTable) (i : Instruction) (v : UInt32) :
    Except InstructionError (Instruction × List UInt8) := do
  let j ← i.setOperand 0 v
  let bytes ← j.encode t
  return (j, bytes)

theorem encodeWith_eq_ok {v : UInt32} (h : i.encodeWith t v = .ok (j, bytes)) :
    i.setOperand 0 v = .ok j ∧ j.encode t = .ok bytes := by
  obtain ⟨j', hj, h⟩ := bind_eq_ok.mp h
  obtain ⟨bytes', hb, h⟩ := bind_eq_ok.mp h
  cases h
  exact ⟨hj, hb⟩

theorem operandWidths_of_encodeWith {v : UInt32} (h : i.encodeWith t v = .ok (j, bytes)) :
    ∃ w ws, t.operandWidths j.opcode j.scale = .ok (w :: ws) := by
  obtain ⟨hj, hb⟩ := encodeWith_eq_ok h
  obtain ⟨-, -, -, hoperands⟩ := setOperand_zero hj
  obtain ⟨w, ws, _, hw, -⟩ := encode_first hoperands hb
  exact ⟨w, ws, hw⟩

theorem encodeWith_eq_error {v : UInt32} {e : InstructionError}
    (h : i.encodeWith t v = .error e) :
    i.setOperand 0 v = .error e ∨ ∃ j, i.setOperand 0 v = .ok j ∧ j.encode t = .error e := by
  rcases bind_eq_error.mp h with hj | ⟨j, hj, h⟩
  · exact .inl hj
  · rcases bind_eq_error.mp h with hb | ⟨bytes, -, h⟩
    · exact .inr ⟨j, hj, hb⟩
    · cases h

theorem length_setOperand {index : Nat} {v : UInt32} (h : i.setOperand index v = .ok j) :
    j.operands.length = i.operands.length := by
  unfold setOperand at h
  split at h
  · cases h
    exact List.length_set ..
  · cases h

end Instruction
end BytecodeAssembler
