import BytecodeAssembler.Proofs.Assembler.Lineage
import BytecodeAssembler.Proofs.Assembler.LongCode

/-! # Runs that end in range

A run may pass through code of 2^32 bytes or more and end in shorter code, where it retracts a load
that starts in front of that. But no call leads out of an overlong state. So a run that ends in less
than 2^32 bytes never came to one, each of its calls had one of the listed effects, and what every
effect preserves holds at its end: `journal_invariant_of_not_overlong`.
-/
namespace BytecodeAssembler.Assembler
variable {t : OpcodeTable} {a b : Assembler} {c : Call} {r : Except AssemblyError Reply} {j : Journal}

theorem Overlong.emit (h : a.Overlong) (ha : a.Consistent) (i : Instruction) (bytes : List UInt8) :
    (a.emit i bytes).Overlong where
  size := by
    rw [size_emit ha]
    exact (h.le_startOf i).trans (Nat.le_add_right ..)
  last l hl := by
    rw [(last_emit ha hl).1]
    exact h.le_startOf i

theorem Effect.overlong (ha : a.Consistent) (h : a.Overlong) (he : Effect a c r b) :
    b.Overlong := by
  cases he with
  | refused | behind | dropped | rejected => exact h
  | wrote | looped => exact h.emit ha ..
  | @jumped _ x _ _ bytes =>
    have hemit := h.emit ha x bytes
    exact ⟨hemit.size, hemit.last⟩
  | labelled => exact ⟨h.size, h.last⟩
  | began => exact ⟨h.size, by simp [startBlock]⟩
  | bound => exact ⟨by simpa [settle] using h.size, by simp⟩
  | stranded => exact ⟨by simpa [settle] using h.size, h.last⟩

theorem Overlong.step (h : a.Overlong) (ha : a.Consistent) (c : Call) : (a.step c).2.Overlong := by
  rcases effect_or_overlong ha c with he | ⟨-, hlong⟩
  · exact he.overlong ha h
  · exact hlong

theorem Overlong.after (h : a.Overlong) (hin : a.ConsistentInRange t) (calls : List Call) :
    (a.after calls).Overlong := by
  induction calls generalizing a with
  | nil => exact h
  | cons c calls ih => exact ih (h.step hin.consistent c) (hin.step c)

/-- What one call preserves, a run preserves that does not end in an overlong state. -/
theorem journal_invariant_of_not_overlong {P : Assembler → Journal → Prop}
    (hstep : ∀ {a b c r j}, P a j → Effect a c r b → P b (j.note a b c r)) (calls : List Call)
    (hin : a.ConsistentInRange t) (h : P a j) (hend : ¬(a.after calls).Overlong) :
    P (a.after calls) (a.journalFrom j calls) := by
  induction calls generalizing a j with
  | nil => exact h
  | cons c calls ih =>
    rcases effect_or_overlong hin.consistent c with he | ⟨-, hlong⟩
    · exact ih (hin.step c) (hstep h he) hend
    · exact absurd (hlong.after (hin.step c) calls) hend

section
variable (t : OpcodeTable) (options : Options) {calls : List Call}

/-- What holds at the beginning and is preserved by every effect holds wherever the code has less than
2^32 bytes. -/
theorem journal_invariant_of_size_lt {P : Assembler → Journal → Prop}
    (hnew : P (Assembler.new t options) [⟨[], []⟩])
    (hstep : ∀ {a b c r j}, P a j → Effect a c r b → P b (j.note a b c r))
    (hsize : ((Assembler.new t options).after calls).code.size < UInt32.size) :
    P ((Assembler.new t options).after calls) ((Assembler.new t options).journal calls) :=
  journal_invariant_of_not_overlong hstep calls (consistentInRange_new t options) hnew
    fun hlong => hlong.size.not_gt hsize

theorem spelled_of_size_lt
    (hsize : ((Assembler.new t options).after calls).code.size < UInt32.size) :
    Spelled ((Assembler.new t options).after calls) ((Assembler.new t options).journal calls) :=
  journal_invariant_of_size_lt t options (spelled_new t options) Spelled.note hsize

theorem traced_of_size_lt
    (hsize : ((Assembler.new t options).after calls).code.size < UInt32.size) :
    Traced ((Assembler.new t options).after calls) ((Assembler.new t options).journal calls) :=
  journal_invariant_of_size_lt t options (traced_new t options) Traced.note hsize

theorem options_of_size_lt
    (hsize : ((Assembler.new t options).after calls).code.size < UInt32.size) :
    ((Assembler.new t options).after calls).options = options :=
  journal_invariant_of_size_lt (P := fun a _ => a.options = options) t options rfl
    (fun h he => he.options.trans h) hsize

end

end BytecodeAssembler.Assembler
