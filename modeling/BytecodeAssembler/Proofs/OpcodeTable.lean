import BytecodeAssembler.Instruction

/-! # What an opcode table declares

A list of declarations without a defect has only declarations without one, so that whatever a table
looks up has no more operands than an instruction can have, and each of them takes some bytes.
-/
namespace BytecodeAssembler
variable {t : OpcodeTable} {o : Opcode} {d : Descriptor} {ds : List Descriptor} {seen : List Opcode}
  {e : InstructionError}

namespace Descriptor

theorem unsized_iff {k : OperandKind} : unsized k ↔ k = .none := by
  cases k <;> decide

theorem defect?_eq_none_iff : d.defect? seen = none ↔ d.opcode ∉ seen ∧
    d.operands.length ≤ maxOperands ∧ (d.opcode.isScalePrefix → d.operands = []) ∧
    ∀ k ∈ d.operands, k ≠ .none := by
  unfold defect?
  split
  next hseen => simp [hseen]
  next hseen =>
    split
    next hlong => simp [Nat.not_le.mpr hlong]
    next hlong =>
      split
      next hprefix =>
        obtain ⟨hscale, hnonempty⟩ := Bool.and_eq_true_iff.mp hprefix
        have hne : d.operands ≠ [] := by simpa using hnonempty
        simp [hscale, hne]
      next hprefix =>
        have hempty : d.opcode.isScalePrefix → d.operands = [] := by simpa using hprefix
        rw [Option.map_eq_none_iff, List.findIdx?_eq_none_iff]
        constructor
        · intro hall
          refine ⟨hseen, Nat.not_lt.mp hlong, hempty, fun k hk hnone => ?_⟩
          exact Bool.false_ne_true ((hall k hk).symm.trans (unsized_iff.mpr hnone))
        · rintro ⟨-, -, -, hall⟩ k hk
          exact Bool.eq_false_iff.mpr fun h => hall k hk (unsized_iff.mp h)

end Descriptor

namespace OpcodeTable

theorem lookup_eq_error_iff :
    t.lookup o = .error e ↔ t.contains o = false ∧ e = .unknownOpcode o := by
  unfold OpcodeTable.lookup OpcodeTable.contains
  cases t.find? o with
  | none => simp [eq_comm]
  | some d => simp

theorem exists_defect?_eq_none (h : declarationDefect? seen ds = none) (hd : d ∈ ds) :
    ∃ earlier, d.defect? earlier = none := by
  induction ds generalizing seen with
  | nil => cases hd
  | cons d' ds ih =>
    obtain ⟨hfirst, hrest⟩ := Option.or_eq_none_iff.mp h
    rcases List.mem_cons.mp hd with rfl | hd
    · exact ⟨seen, hfirst⟩
    · exact ih hrest hd

/-- What a table looks up can be encoded: there are few operands and each takes some bytes. -/
theorem sized_of_lookup (h : t.lookup o = .ok d) :
    d.operands.length ≤ maxOperands ∧ ∀ k ∈ d.operands, k ≠ .none := by
  have hmem : d ∈ t.descriptors := List.mem_of_find?_eq_some (lookup_eq_ok_iff.mp h)
  obtain ⟨hdeclared, -⟩ := Option.or_eq_none_iff.mp t.wellFormed
  obtain ⟨_, hnone⟩ := exists_defect?_eq_none hdeclared hmem
  obtain ⟨-, hlength, -, hsized⟩ := Descriptor.defect?_eq_none_iff.mp hnone
  exact ⟨hlength, hsized⟩

end OpcodeTable
end BytecodeAssembler
