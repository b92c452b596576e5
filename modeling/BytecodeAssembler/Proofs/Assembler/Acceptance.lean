import BytecodeAssembler.Proofs.Assembler.Atomicity
import BytecodeAssembler.Proofs.OperandRanges

/-! # Which instructions are accepted

The scale of an instruction is chosen when it is made, and its operands are checked at that scale when
it is written. The two agree: at the scale chosen no scalable operand is refused, and at any narrower
one some operand is. What can still be refused is an operand of fixed width, which no scale widens.
-/
namespace BytecodeAssembler.Assembler
variable {a : Assembler} {i : Instruction} {d : Descriptor} {e : AssemblyError}

/-- In an open block an instruction with as many operands as declared is refused exactly for the first
operand that is out of range at its scale. -/
theorem step_write_refused_iff (ha : a.Consistent) (hsize : a.code.size < UInt32.size)
    (hopen : a.blockClosed = false) (hd : a.table.lookup i.opcode = .ok d)
    (hlen : i.operands.length = d.operands.length) :
    (a.step (.write i)).1 = .error e ↔ ∃ index v,
      FirstBad (OperandKind.Misfits i.scale) d.operands i.operands index v ∧
        e = .instruction (.operandOutOfRange i.opcode index v i.scale) := by
  rw [step_write_eq_error_iff ha hsize]
  simp only [Instruction.encode_eq_error_iff hd hlen]
  constructor
  · rintro ⟨-, _, ⟨index, v, hfirst, rfl⟩, rfl⟩
    exact ⟨index, v, hfirst, rfl⟩
  · rintro ⟨index, v, hfirst, rfl⟩
    exact ⟨hopen, _, ⟨index, v, hfirst, rfl⟩, rfl⟩

/-- At the scale chosen for it, only an operand of fixed width can be refused. -/
theorem step_write_refused_iff_tooLarge (ha : a.Consistent) (hsize : a.code.size < UInt32.size)
    (hopen : a.blockClosed = false) (hd : a.table.lookup i.opcode = .ok d)
    (hlen : i.operands.length = d.operands.length)
    (hscale : i.scale = Instruction.narrowestScale d.operands i.operands) :
    (a.step (.write i)).1 = .error e ↔ ∃ index v,
      FirstBad OperandKind.TooLarge d.operands i.operands index v ∧
        e = .instruction (.operandOutOfRange i.opcode index v i.scale) := by
  obtain ⟨-, hsized⟩ := OpcodeTable.sized_of_lookup hd
  have hbad : ∀ x ∈ d.operands.zip i.operands, x.1.Misfits i.scale x.2 ↔ x.1.TooLarge x.2 := by
    intro x hx
    rw [hscale]
    exact Instruction.misfits_narrowestScale_iff hx (hsized _ (List.of_mem_zip hx).1)
  rw [step_write_refused_iff ha hsize hopen hd hlen]
  simp only [FirstBad.congr_iff hbad]

/-- At a narrower scale some operand is refused. -/
theorem step_write_refused_of_narrower (ha : a.Consistent) (hsize : a.code.size < UInt32.size)
    (hopen : a.blockClosed = false) (hd : a.table.lookup i.opcode = .ok d)
    (hlen : i.operands.length = d.operands.length)
    (hscale : i.scale.multiplier < (Instruction.narrowestScale d.operands i.operands).multiplier) :
    ∃ index v, FirstBad (OperandKind.Misfits i.scale) d.operands i.operands index v ∧
      (a.step (.write i)).1 = .error (.instruction (.operandOutOfRange i.opcode index v i.scale)) := by
  obtain ⟨index, v, hfirst⟩ :=
    exists_firstBad_iff.mpr (Instruction.exists_misfits_of_narrower hscale)
  refine ⟨index, v, hfirst, ?_⟩
  exact (step_write_refused_iff ha hsize hopen hd hlen).mpr ⟨index, v, hfirst, rfl⟩

/-- An instruction can be made from any opcode of the table with as many operands as declared. In an
open block it is refused exactly if some operand is beyond the one range of its kind, and then for the
first such operand. Made at any narrower scale, it is refused for an operand out of range there. -/
theorem narrowest_scale_accepted (t : OpcodeTable) (options : Options) (calls : List Call)
    (hsmall : (Assembler.new t options).StaysSmall calls) (o : Opcode) (d : Descriptor)
    (hd : t.lookup o = .ok d) (vs : List UInt32) (hlen : vs.length = d.operands.length) :
    let a := (Assembler.new t options).after calls
    ∃ i, Instruction.ofTable t o vs = .ok i ∧ i.opcode = o ∧ i.operands = vs ∧
      (a.blockClosed = false →
        ((∃ e, (a.step (.write i)).1 = .error e) ↔ ∃ x ∈ d.operands.zip vs, x.1.TooLarge x.2) ∧
        (∀ e, (a.step (.write i)).1 = .error e ↔ ∃ index v,
          FirstBad OperandKind.TooLarge d.operands vs index v ∧
            e = .instruction (.operandOutOfRange o index v i.scale)) ∧
        ∀ s, s.multiplier < i.scale.multiplier → ∃ j index v,
          Instruction.ofOperands o s vs = .ok j ∧
            FirstBad (OperandKind.Misfits s) d.operands vs index v ∧
              (a.step (.write j)).1 = .error (.instruction (.operandOutOfRange o index v s))) := by
  intro a
  have ha : a.Consistent := (spelled_journal t options hsmall).consistent
  have htable : a.table = t := table_after (spelled_new t options).consistent hsmall
  have hsize : a.code.size < UInt32.size := hsmall.size_after
  rw [← htable] at hd
  obtain ⟨hmax, -⟩ := OpcodeTable.sized_of_lookup hd
  have hmade := Instruction.exists_ofOperands (hlen.trans_le hmax) o
  obtain ⟨i, hi, rfl, hscale, rfl⟩ := hmade (Instruction.narrowestScale d.operands vs)
  refine ⟨i, by rw [← htable, Instruction.ofTable_eq hd hlen, hi], rfl, rfl, fun hopen => ?_⟩
  have hrefused := fun e => step_write_refused_iff_tooLarge (e := e) ha hsize hopen hd hlen hscale
  refine ⟨?_, hrefused, fun s hs => ?_⟩
  · rw [← exists_firstBad_iff]
    simp only [hrefused]
    constructor
    · rintro ⟨e, index, v, hfirst, -⟩
      exact ⟨index, v, hfirst⟩
    · rintro ⟨index, v, hfirst⟩
      exact ⟨_, index, v, hfirst, rfl⟩
  · obtain ⟨j, hj, hopcode, rfl, hoperands⟩ := hmade s
    rw [hscale, ← hoperands] at hs
    rw [← hopcode] at hd ⊢
    rw [← hoperands] at hlen ⊢
    obtain ⟨index, v, hrefusal⟩ := step_write_refused_of_narrower ha hsize hopen hd hlen hs
    exact ⟨j, index, v, by rw [hopcode, hoperands, hj], hrefusal⟩

/-- The number of a runtime function has 16 bits at every scale; the first register of the list asks
for the double one. -/
theorem narrowest_scale_accepted_callRuntime :
    let s := Assembler.new .standard default
    let calls := [Call.write (.bare .ldaZero .single [])]
    let a := s.after calls
    let vs : List UInt32 := [70000, 300, 5]
    s.StaysSmall calls ∧ a.blockClosed = false ∧
      Instruction.ofTable .standard .callRuntime vs = .ok (.bare .callRuntime .double vs) ∧
      (a.step (.write (.bare .callRuntime .double vs))).1 =
        .error (.instruction (.operandOutOfRange .callRuntime 0 70000 .double)) ∧
      ∃ j index v, Instruction.ofOperands .callRuntime .single vs = .ok j ∧
        (a.step (.write j)).1 =
          .error (.instruction (.operandOutOfRange .callRuntime index v .single)) := by
  intro s calls a vs
  have hsmall : s.StaysSmall calls := by decide +kernel
  have hopen : a.blockClosed = false := by decide +kernel
  have hmade : Instruction.ofTable .standard .callRuntime vs =
      .ok (.bare .callRuntime .double vs) := by decide
  have hd : OpcodeTable.standard.lookup .callRuntime =
      .ok ⟨.callRuntime, .write, [.runtimeId, .regList, .regCount]⟩ := by decide
  obtain ⟨i, hi, -, -, hwrite⟩ :=
    narrowest_scale_accepted .standard default calls hsmall .callRuntime _ hd vs rfl
  obtain rfl : Instruction.bare .callRuntime .double vs = i := Except.ok.inj (hmade.symm.trans hi)
  obtain ⟨-, hrefused, hnarrower⟩ := hwrite hopen
  obtain ⟨j, index, v, hj, -, herror⟩ := hnarrower .single (by decide)
  have hlarge : OperandKind.TooLarge .runtimeId 70000 := .inr ⟨rfl, by decide⟩
  have hrefuse := (hrefused _).mpr ⟨0, 70000, .here hlarge, rfl⟩
  exact ⟨hsmall, hopen, hmade, hrefuse, j, index, v, hj, herror⟩

end BytecodeAssembler.Assembler
