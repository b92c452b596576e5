import BytecodeAssembler.Proofs.Encoding
import BytecodeAssembler.Proofs.OpcodeTable

/-! # The ranges of operands

Whether an instruction can be encoded is decided operand by operand, and the first one out of range
is reported. An operand whose kind is scalable is in range exactly at the scales at least as wide as
the one chosen for it; the other kinds have one range at all scales. So the scale chosen for a whole
instruction is the narrowest at which no scalable operand is out of range.
-/
namespace BytecodeAssembler
variable {ks : List OperandKind} {vs : List UInt32} {k : OperandKind} {u v : UInt32} {s : Scale}
  {bad bad' : OperandKind → UInt32 → Prop} {index : Nat}

namespace Scale

theorem multiplier_wider_le_iff {a b : Scale} :
    (wider a b).multiplier ≤ s.multiplier ↔
      a.multiplier ≤ s.multiplier ∧ b.multiplier ≤ s.multiplier := by
  unfold wider
  split
  next hlt => exact ⟨fun hb => ⟨Nat.le_trans (Nat.le_of_lt hlt) hb, hb⟩, And.right⟩
  next hlt => exact ⟨fun ha => ⟨ha, Nat.le_trans (Nat.not_lt.mp hlt) ha⟩, And.left⟩

theorem multiplier_foldl_le_iff {scales : List Scale} {a : Scale} :
    (scales.foldl wider a).multiplier ≤ s.multiplier ↔
      a.multiplier ≤ s.multiplier ∧ ∀ b ∈ scales, b.multiplier ≤ s.multiplier := by
  induction scales generalizing a with
  | nil => simp
  | cons b scales ih =>
    rw [List.foldl_cons, ih, multiplier_wider_le_iff, List.forall_mem_cons, and_assoc]

theorem one_le_multiplier (s : Scale) : single.multiplier ≤ s.multiplier := by
  cases s <;> decide

/-- The widest scale of a list is its least upper bound. -/
theorem multiplier_widest_le_iff {scales : List Scale} :
    (widest scales).multiplier ≤ s.multiplier ↔ ∀ b ∈ scales, b.multiplier ≤ s.multiplier := by
  rw [widest, multiplier_foldl_le_iff, and_iff_right (one_le_multiplier s)]

end Scale

namespace OperandKind

theorem scaleFor_of_not_isScalable (h : k.isScalable = false) (v : UInt32) :
    k.scaleFor v = .single := by
  simp [scaleFor, h]

/-- The operand is beyond the one range of its kind, whatever the scale. -/
def TooLarge (k : OperandKind) (v : UInt32) : Prop :=
  k = .flag8 ∧ 255 < v.toNat ∨ k = .runtimeId ∧ 65535 < v.toNat

def Misfits (s : Scale) (k : OperandKind) (v : UInt32) : Prop := k.fits v (k.width s) = false

theorem misfits_of_isScalable (h : k.isScalable) :
    k.Misfits s v ↔ s.multiplier < (k.scaleFor v).multiplier := by
  rw [Misfits, Bool.eq_false_iff, ne_eq, fits_width_iff h, Nat.not_le]

theorem not_tooLarge_of_isScalable (h : k.isScalable) : ¬k.TooLarge v := by
  rintro (⟨rfl, -⟩ | ⟨rfl, -⟩) <;> simp [isScalable] at h

theorem misfits_iff_tooLarge (hk : k ≠ .none) (h : k.isScalable = false) :
    k.Misfits s v ↔ k.TooLarge v := by
  cases k <;> simp [isScalable, Misfits, TooLarge, fits, width, isSigned] at h hk ⊢ <;> omega

end OperandKind

/-- Operand `index`, of value `v`, is the first one that is bad for its kind. -/
inductive FirstBad (bad : OperandKind → UInt32 → Prop) :
    List OperandKind → List UInt32 → Nat → UInt32 → Prop
  | here {k : OperandKind} {v : UInt32} {ks : List OperandKind} {vs : List UInt32} (h : bad k v) :
    FirstBad bad (k :: ks) (v :: vs) 0 v
  | later {k : OperandKind} {v u : UInt32} {ks : List OperandKind} {vs : List UInt32} {index : Nat}
    (h : ¬bad k v) (hrest : FirstBad bad ks vs index u) :
    FirstBad bad (k :: ks) (v :: vs) (index + 1) u

namespace FirstBad

theorem congr (h : FirstBad bad ks vs index v)
    (hbad : ∀ e ∈ ks.zip vs, bad e.1 e.2 ↔ bad' e.1 e.2) : FirstBad bad' ks vs index v := by
  induction h with
  | here h => exact .here ((hbad _ List.mem_cons_self).mp h)
  | later h _ ih =>
    refine .later (mt (hbad _ List.mem_cons_self).mpr h) (ih fun e he => ?_)
    exact hbad e (List.mem_cons_of_mem _ he)

theorem congr_iff (hbad : ∀ e ∈ ks.zip vs, bad e.1 e.2 ↔ bad' e.1 e.2) :
    FirstBad bad ks vs index v ↔ FirstBad bad' ks vs index v :=
  ⟨fun h => h.congr hbad, fun h => h.congr fun e he => (hbad e he).symm⟩

theorem exists_mem (h : FirstBad bad ks vs index v) : ∃ k, (k, v) ∈ ks.zip vs ∧ bad k v := by
  induction h with
  | @here k v ks vs h => exact ⟨k, List.mem_cons_self, h⟩
  | later _ _ ih =>
    obtain ⟨k, hk, hbad⟩ := ih
    exact ⟨k, List.mem_cons_of_mem _ hk, hbad⟩

end FirstBad

theorem exists_firstBad_iff :
    (∃ index v, FirstBad bad ks vs index v) ↔ ∃ e ∈ ks.zip vs, bad e.1 e.2 := by
  constructor
  · rintro ⟨index, v, h⟩
    obtain ⟨k, hk, hbad⟩ := h.exists_mem
    exact ⟨(k, v), hk, hbad⟩
  · rintro ⟨e, he, hbad⟩
    induction ks generalizing vs with
    | nil => simp at he
    | cons k ks ih =>
      cases vs with
      | nil => simp at he
      | cons v vs =>
        by_cases hfirst : bad k v
        · exact ⟨0, v, .here hfirst⟩
        · rcases List.mem_cons.mp he with rfl | he
          · exact absurd hbad hfirst
          · obtain ⟨index, u, h⟩ := ih he
            exact ⟨index + 1, u, .later hfirst h⟩

namespace Instruction
variable {t : OpcodeTable} {o : Opcode} {d : Descriptor} {i : Instruction} {e : InstructionError}

theorem encodeOperands_cons_of_misfits (hk : k ≠ .none) (h : k.Misfits i.scale v) (base : Nat) :
    i.encodeOperands base (k :: ks) (v :: vs) =
      .error (.operandOutOfRange i.opcode base v i.scale) := by
  have hfirst : i.encodeOperand base k v = .error (.operandOutOfRange i.opcode base v i.scale) := by
    simp [encodeOperand, OperandKind.width_ne_none hk, show k.fits v (k.width i.scale) = false from h]
  rw [encodeOperands, hfirst]
  rfl

theorem encodeOperands_cons_of_fits (hk : k ≠ .none) (h : k.fits v (k.width i.scale)) (base : Nat) :
    i.encodeOperands base (k :: ks) (v :: vs) = (i.encodeOperands (base + 1) ks vs).map
      (BigEndian.encode (k.width i.scale).bytes v.toNat ++ ·) := by
  have hfirst : i.encodeOperand base k v =
      .ok (BigEndian.encode (k.width i.scale).bytes v.toNat) := by
    simp [encodeOperand, OperandKind.width_ne_none hk, h]
  rw [encodeOperands, hfirst]
  rfl

/-- Operands fail to be encoded at the first one out of range. -/
theorem encodeOperands_eq_error_iff (hks : ∀ k ∈ ks, k ≠ .none) {base : Nat} :
    i.encodeOperands base ks vs = .error e ↔ ∃ index v,
      FirstBad (OperandKind.Misfits i.scale) ks vs index v ∧
        e = .operandOutOfRange i.opcode (base + index) v i.scale := by
  induction ks generalizing vs base with
  | nil =>
    constructor
    · intro h
      cases h
    · rintro ⟨index, v, h, -⟩
      cases h
  | cons k ks ih =>
    obtain ⟨hk, hks⟩ := List.forall_mem_cons.mp hks
    cases vs with
    | nil =>
      constructor
      · intro h
        cases h
      · rintro ⟨index, v, h, -⟩
        cases h
    | cons v vs =>
      cases hfits : k.fits v (k.width i.scale) with
      | false =>
        rw [encodeOperands_cons_of_misfits hk hfits, Except.error.injEq]
        constructor
        · rintro rfl
          exact ⟨0, v, .here hfits, rfl⟩
        · rintro ⟨index, u, hfirst, rfl⟩
          cases hfirst with
          | here => rfl
          | later hnot => exact absurd hfits hnot
      | true =>
        have hnot : ¬k.Misfits i.scale v := fun h => Bool.false_ne_true (h.symm.trans hfits)
        rw [encodeOperands_cons_of_fits hk hfits, map_eq_error, ih hks]
        constructor
        · rintro ⟨index, u, hfirst, rfl⟩
          exact ⟨index + 1, u, .later hnot hfirst, by rw [Nat.add_assoc, Nat.add_comm 1]⟩
        · rintro ⟨index, u, hfirst, rfl⟩
          cases hfirst with
          | here hbad => exact absurd hbad hnot
          | @later _ _ _ _ _ index _ hrest =>
            exact ⟨index, u, hrest, by rw [Nat.add_assoc, Nat.add_comm 1]⟩

/-- An instruction of a table with as many operands as declared is refused exactly for the first
operand that is out of range at its scale. -/
theorem encode_eq_error_iff (hd : t.lookup i.opcode = .ok d)
    (hlen : i.operands.length = d.operands.length) :
    i.encode t = .error e ↔ ∃ index v,
      FirstBad (OperandKind.Misfits i.scale) d.operands i.operands index v ∧
        e = .operandOutOfRange i.opcode index v i.scale := by
  have hencode : i.encode t =
      (i.encodeOperands 0 d.operands i.operands).map (header i.opcode i.scale ++ ·) := by
    simp only [encode, hd, bind, Except.bind, hlen, ne_eq, not_true_eq_false, ↓reduceIte]
    rfl
  rw [hencode, map_eq_error, encodeOperands_eq_error_iff (OpcodeTable.sized_of_lookup hd).2]
  simp only [Nat.zero_add]

theorem multiplier_narrowestScale_le_iff :
    (narrowestScale ks vs).multiplier ≤ s.multiplier ↔
      ∀ e ∈ ks.zip vs, (e.1.scaleFor e.2).multiplier ≤ s.multiplier := by
  rw [narrowestScale, Scale.multiplier_widest_le_iff, ← List.map_uncurry_zip_eq_zipWith,
    List.forall_mem_map]
  rfl

/-- At the scale chosen for an instruction, only operands of fixed width are out of range. -/
theorem misfits_narrowestScale_iff {x : OperandKind × UInt32} (hx : x ∈ ks.zip vs)
    (hsized : x.1 ≠ .none) : x.1.Misfits (narrowestScale ks vs) x.2 ↔ x.1.TooLarge x.2 := by
  cases hscale : x.1.isScalable with
  | false => exact OperandKind.misfits_iff_tooLarge hsized hscale
  | true =>
    have hle := multiplier_narrowestScale_le_iff.mp (Nat.le_refl _) x hx
    rw [OperandKind.misfits_of_isScalable hscale]
    exact iff_of_false (Nat.not_lt.mpr hle) (OperandKind.not_tooLarge_of_isScalable hscale)

/-- At any narrower scale some operand is out of range. -/
theorem exists_misfits_of_narrower (h : s.multiplier < (narrowestScale ks vs).multiplier) :
    ∃ x ∈ ks.zip vs, x.1.Misfits s x.2 := by
  rw [← Nat.not_le, multiplier_narrowestScale_le_iff] at h
  simp only [Classical.not_forall, Nat.not_le] at h
  obtain ⟨x, hx, hlt⟩ := h
  refine ⟨x, hx, ?_⟩
  cases hscale : x.1.isScalable with
  | true => exact (OperandKind.misfits_of_isScalable hscale).mpr hlt
  | false =>
    -- a kind of fixed width asks for the single scale, and none is narrower
    rw [OperandKind.scaleFor_of_not_isScalable hscale] at hlt
    exact absurd (Scale.one_le_multiplier s) (Nat.not_le.mpr hlt)

theorem exists_ofOperands (hlen : vs.length ≤ maxOperands) (o : Opcode) (s : Scale) :
    ∃ i, ofOperands o s vs = .ok i ∧ i.opcode = o ∧ i.scale = s ∧ i.operands = vs :=
  ⟨⟨o, s, vs, .absent, hlen⟩, dif_pos hlen, rfl, rfl, rfl⟩

theorem ofTable_eq (hd : t.lookup o = .ok d) (hlen : vs.length = d.operands.length) :
    ofTable t o vs = ofOperands o (narrowestScale d.operands vs) vs := by
  simp only [ofTable, hd, bind, Except.bind, hlen, ne_eq, not_true_eq_false, ↓reduceIte]

end Instruction
end BytecodeAssembler
