import BytecodeAssembler.OpcodeTable.Standard
import BytecodeAssembler.Proofs.Assembler.LongCode
import BytecodeAssembler.Proofs.OperandRanges

/-! # The verdict on an instruction

In an open block an instruction is written if its opcode is declared, it has as many operands as
declared and each of them is in the range of its width, and refused otherwise for the first of these
that fails. `Instruction.Refused` states this on the declaration alone. Nothing else can go wrong: a
table has no operand without a width, and positions stay in order.
-/
namespace BytecodeAssembler
variable {s : Scale} {k : OperandKind} {v : UInt32}

namespace OperandKind

/-- What a raw operand of this kind stands for. -/
def value (k : OperandKind) (v : UInt32) : Int := if k.isSigned then v.toInt32.toInt else v.toNat

/-- The operand's value can be told from its bytes at this scale, read with or without a sign. -/
def InRange (s : Scale) (k : OperandKind) (v : UInt32) : Prop :=
  let count : Int := BigEndian.capacity (k.width s).bytes
  if k.isSigned then -(count / 2) ≤ k.value v ∧ k.value v < count / 2
  else 0 ≤ k.value v ∧ k.value v < count

theorem misfits_iff_not_inRange (hk : k ≠ .none) : k.Misfits s v ↔ ¬k.InRange s v := by
  have hlt := v.toNat_lt
  have hlow := v.toInt32.le_toInt
  have hhigh := v.toInt32.toInt_lt
  cases k <;> cases s <;>
    simp [Misfits, InRange, value, isSigned, fits, width, Width.bytes, BigEndian.capacity] at hk ⊢ <;>
    omega

end OperandKind

namespace Instruction
variable {t : OpcodeTable} {d : Descriptor} {i : Instruction} {e : InstructionError}

/-- The first reason for which the instruction cannot be written. -/
inductive Refused (t : OpcodeTable) (i : Instruction) : InstructionError → Prop
  | unknown (h : t.contains i.opcode = false) : Refused t i (.unknownOpcode i.opcode)
  | miscounted {d : Descriptor} (hd : t.lookup i.opcode = .ok d)
    (hlen : i.operands.length ≠ d.operands.length) :
    Refused t i (.operandCount i.opcode d.operands.length i.operands.length)
  | outOfRange {d : Descriptor} {index : Nat} {v : UInt32} (hd : t.lookup i.opcode = .ok d)
    (hlen : i.operands.length = d.operands.length)
    (hfirst : FirstBad (fun k v => ¬k.InRange i.scale v) d.operands i.operands index v) :
    Refused t i (.operandOutOfRange i.opcode index v i.scale)

theorem not_inRange_iff (hd : t.lookup i.opcode = .ok d) {x : OperandKind × UInt32}
    (hx : x ∈ d.operands.zip i.operands) :
    x.1.Misfits i.scale x.2 ↔ ¬x.1.InRange i.scale x.2 :=
  OperandKind.misfits_iff_not_inRange ((OpcodeTable.sized_of_lookup hd).2 _ (List.of_mem_zip hx).1)

/-- An instruction cannot be encoded exactly for the reasons listed, and the first one is given. -/
theorem encode_eq_error_iff_refused : i.encode t = .error e ↔ i.Refused t e := by
  constructor
  · intro h
    cases hd : t.lookup i.opcode with
    | error e' =>
      obtain ⟨hunknown, rfl⟩ := OpcodeTable.lookup_eq_error_iff.mp hd
      rw [encode, hd] at h
      cases h
      exact .unknown hunknown
    | ok d =>
      by_cases hlen : i.operands.length = d.operands.length
      · obtain ⟨index, v, hfirst, rfl⟩ := (encode_eq_error_iff hd hlen).mp h
        exact .outOfRange hd hlen ((FirstBad.congr_iff fun x hx => not_inRange_iff hd hx).mp hfirst)
      · simp only [encode, hd, bind, Except.bind, ne_eq, hlen, not_false_eq_true, ↓reduceIte] at h
        cases h
        exact .miscounted hd hlen
  · intro h
    cases h with
    | unknown hunknown =>
      rw [encode, OpcodeTable.lookup_eq_error_iff.mpr ⟨hunknown, rfl⟩]
      rfl
    | miscounted hd hlen =>
      simp only [encode, hd, bind, Except.bind, ne_eq, hlen, not_false_eq_true, ↓reduceIte]
      rfl
    | outOfRange hd hlen hfirst =>
      refine (encode_eq_error_iff hd hlen).mpr ⟨_, _, ?_, rfl⟩
      exact (FirstBad.congr_iff fun x hx => not_inRange_iff hd hx).mpr hfirst

/-- The opcode is declared, with this many operands, and each is in range. -/
def Writable (t : OpcodeTable) (i : Instruction) : Prop :=
  ∃ d, t.lookup i.opcode = .ok d ∧ i.operands.length = d.operands.length ∧
    ∀ x ∈ d.operands.zip i.operands, x.1.InRange i.scale x.2

theorem Writable.not_refused (h : i.Writable t) : ¬i.Refused t e := by
  obtain ⟨d, hd, hlen, hall⟩ := h
  have hsame : ∀ {d'}, t.lookup i.opcode = .ok d' → d' = d :=
    fun hd' => Except.ok.inj (hd'.symm.trans hd)
  intro h
  cases h with
  | unknown hunknown =>
    rw [OpcodeTable.lookup_eq_error_iff.mpr ⟨hunknown, rfl⟩] at hd
    cases hd
  | miscounted hd' hlen' => exact hlen' (hsame hd' ▸ hlen)
  | outOfRange hd' _ hfirst =>
    obtain rfl := hsame hd'
    obtain ⟨k, hk, hbad⟩ := hfirst.exists_mem
    exact hbad (hall (k, _) hk)

theorem writable_or_refused (t : OpcodeTable) (i : Instruction) :
    i.Writable t ∨ ∃ e, i.Refused t e := by
  cases hd : t.lookup i.opcode with
  | error e => exact .inr ⟨_, .unknown (OpcodeTable.lookup_eq_error_iff.mp hd).1⟩
  | ok d =>
    by_cases hlen : i.operands.length = d.operands.length
    · by_cases hbad : ∃ x ∈ d.operands.zip i.operands, ¬x.1.InRange i.scale x.2
      · obtain ⟨index, v, hfirst⟩ : ∃ index v,
            FirstBad (fun k v => ¬k.InRange i.scale v) d.operands i.operands index v :=
          exists_firstBad_iff.mpr hbad
        exact .inr ⟨_, .outOfRange hd hlen hfirst⟩
      · exact .inl ⟨d, hd, hlen, by simpa using hbad⟩
    · exact .inr ⟨_, .miscounted hd hlen⟩

theorem exists_encode_iff : (∃ bytes, i.encode t = .ok bytes) ↔ i.Writable t := by
  constructor
  · rintro ⟨bytes, hb⟩
    refine (writable_or_refused t i).resolve_right ?_
    rintro ⟨e, he⟩
    rw [encode_eq_error_iff_refused.mpr he] at hb
    cases hb
  · intro h
    cases hb : i.encode t with
    | error e => exact absurd (encode_eq_error_iff_refused.mp hb) h.not_refused
    | ok bytes => exact ⟨bytes, rfl⟩

end Instruction

namespace Assembler

/-- In every state that calls can lead to, with an open block and less than 2^32 bytes of code, an
instruction is written exactly if its opcode is declared, it has as many operands as declared and each
is in range. Otherwise it is refused for the first of these that fails, an operand for being the first
one out of range, and for nothing else: no operand is found to have no width, and no position to be
out of order. -/
theorem write_verdict (t : OpcodeTable) (options : Options) (calls : List Call)
    (hsize : ((Assembler.new t options).after calls).code.size < UInt32.size)
    (hopen : ((Assembler.new t options).after calls).blockClosed = false) (i : Instruction) :
    let answer := (((Assembler.new t options).after calls).step (.write i)).1
    (answer = .ok .done ↔ i.Writable t) ∧
    (∀ e, answer = .error e ↔ ∃ cause, i.Refused t cause ∧ e = .instruction cause) ∧
    (∀ o index, answer ≠ .error (.instruction (.unsizedOperand o index))) ∧
    ∀ offset last, answer ≠ .error (.positionOrder offset last) := by
  intro answer
  have hin := (consistentInRange_new t options).after calls
  have hstep := step_write hin.consistent hsize i
  rw [hin.table, hopen] at hstep
  have herror : ∀ e, answer = .error e ↔ ∃ cause, i.Refused t cause ∧ e = .instruction cause := by
    intro e
    simp only [← Instruction.encode_eq_error_iff_refused, answer, hstep]
    cases hb : i.encode t with
    | error cause => simp [eq_comm]
    | ok bytes => simp
  have hok : answer = .ok .done ↔ ∃ bytes, i.encode t = .ok bytes := by
    simp only [answer, hstep]
    cases hb : i.encode t with
    | error cause => simp
    | ok bytes => simp
  refine ⟨hok.trans Instruction.exists_encode_iff, herror, fun o index h => ?_, fun offset last h => ?_⟩
  · obtain ⟨cause, hcause, hsame⟩ := (herror _).mp h
    cases hsame
    cases hcause
  · obtain ⟨cause, -, hsame⟩ := (herror _).mp h
    cases hsame

/-- The distance still fits its byte, the signed operand behind it does not. -/
theorem write_verdict_depthTooLarge :
    let s := Assembler.new .standard default
    let calls := [Call.write ((Instruction.bare .ldaZero .single []).withSource (.expression 3))]
    let i := Instruction.bare .jumpLoop .single [255, 200]
    (s.after calls).code.size < UInt32.size ∧ (s.after calls).blockClosed = false ∧
      ((s.after calls).step (.write i)).1 =
        .error (.instruction (.operandOutOfRange .jumpLoop 1 200 .single)) := by
  intro s calls i
  have hsize : (s.after calls).code.size < UInt32.size := by decide
  have hopen : (s.after calls).blockClosed = false := by decide
  obtain ⟨-, herror, -⟩ := write_verdict .standard default calls hsize hopen i
  refine ⟨hsize, hopen, (herror _).mpr ⟨_, ?_, rfl⟩⟩
  have hd : OpcodeTable.standard.lookup .jumpLoop = .ok ⟨.jumpLoop, .none, [.uimm, .imm]⟩ := by decide
  have hdistance : OperandKind.InRange .single .uimm 255 := ⟨by decide, by decide⟩
  have hdepth : ¬OperandKind.InRange .single .imm 200 := fun h => absurd h.2 (by decide)
  exact .outOfRange hd rfl (.later (not_not_intro hdistance) (.here hdepth))

end Assembler
end BytecodeAssembler
