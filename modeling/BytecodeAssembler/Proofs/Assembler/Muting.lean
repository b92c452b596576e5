import BytecodeAssembler.Proofs.Assembler.Positions

/-! # Recording positions leaves the code alone

An assembler that is muted keeps no source positions and is in the same state otherwise. What an
instruction carries in the way of a position decides whether a load goes, but what was recorded
decides nothing: the one check on the log never fails in a state of a run. So a muted assembler
answers every call as before, and muting it first or afterwards makes no difference.
-/
namespace BytecodeAssembler.Assembler
variable {a : Assembler} {calls : List Call}

def mute (a : Assembler) : Assembler :=
  { a with options := { a.options with positions := .omit }, log := .empty .omit }

@[simp] theorem table_mute (a : Assembler) : a.mute.table = a.table := rfl
@[simp] theorem code_mute (a : Assembler) : a.mute.code = a.code := rfl
@[simp] theorem labels_mute (a : Assembler) : a.mute.labels = a.labels := rfl
@[simp] theorem blockClosed_mute (a : Assembler) : a.mute.blockClosed = a.blockClosed := rfl

@[simp] theorem jumpFault?_mute (a : Assembler) (o : Opcode) (label : Nat) :
    a.mute.jumpFault? o label = a.jumpFault? o label := rfl

@[simp] theorem loopTarget_mute (a : Assembler) (o : Opcode) (header : Nat) :
    a.mute.loopTarget o header = a.loopTarget o header := rfl

theorem Consistent.mute (ha : a.Consistent) : a.mute.Consistent where
  log := by simp [PositionLog.UpTo, Assembler.mute, PositionLog.empty]
  last l hl := ⟨(ha.last l hl).1, by simp [PositionLog.UpTo, Assembler.mute, PositionLog.empty]⟩
  idle := ha.idle

theorem emit_mute (a : Assembler) (i : Instruction) (bytes : List UInt8) :
    a.mute.emit i bytes = (a.emit i bytes).mute := by
  have hlog : (PositionLog.empty .omit).note (a.mute.startOf i) i.source = .empty .omit := by
    unfold PositionLog.note
    cases i.source.position? <;> rfl
  show { a.mute.emit i bytes with
    log := (PositionLog.empty .omit).note (a.mute.startOf i) i.source } = _
  rw [hlog]
  rfl

theorem step_mute (ha : a.Consistent) (hsize : a.code.size < UInt32.size) (c : Call) :
    a.mute.step c = ((a.step c).1, (a.step c).2.mute) := by
  cases c with
  | write i =>
    rw [step_write ha.mute hsize, step_write ha hsize]
    simp only [blockClosed_mute, table_mute, emit_mute]
    split
    · rfl
    · split <;> rfl
  | jump i label =>
    rw [step_jump ha.mute hsize, step_jump ha hsize]
    simp only [jumpFault?_mute, blockClosed_mute, table_mute, emit_mute]
    split
    · rfl
    · split
      · rfl
      · split <;> rfl
  | loop i header =>
    rw [step_loop ha.mute hsize, step_loop ha hsize]
    simp only [loopTarget_mute, blockClosed_mute, table_mute, code_mute, emit_mute]
    split
    · rfl
    · split
      · rfl
      · split
        · rfl
        · split
          · rfl
          · split
            · split <;> rfl
            · rfl
  | newLabel => rfl
  | bind label =>
    rw [step_bind, step_bind]
    simp only [labels_mute, code_mute]
    split
    · rfl
    · rfl
    · split <;> rfl
  | startBlock => rfl

theorem run_mute (ha : a.Consistent) (hsmall : a.StaysSmall calls) :
    a.mute.run calls = ((a.run calls).1, (a.run calls).2.mute) := by
  induction calls generalizing a with
  | nil => rfl
  | cons c calls ih =>
    obtain ⟨hsize, hrest⟩ := hsmall
    have hb := (step_effect ha hsize c).consistent ha
    simp only [run, step_mute ha hsize, ih hb hrest]

theorem staysSmall_mute_iff (ha : a.Consistent) :
    a.mute.StaysSmall calls ↔ a.StaysSmall calls := by
  induction calls generalizing a with
  | nil => exact Iff.rfl
  | cons c calls ih =>
    refine and_congr_right fun hsize => ?_
    rw [step_mute ha hsize]
    exact ih ((step_effect ha hsize c).consistent ha)

theorem finish_mute (a : Assembler) :
    a.mute.finish = a.finish.map fun out => { out with positions := ⟨#[]⟩ } := by
  have hunbound : a.mute.unboundJumps = a.unboundJumps := rfl
  by_cases h : a.unboundJumps = 0
  · rw [finish, finish, if_pos h, if_pos (hunbound.trans h)]
    rfl
  · rw [finish, finish, if_neg h, if_neg (hunbound ▸ h)]
    rfl

/-- Whether positions are recorded or not, every call of a run is answered the same, and after each
of them the code, the counter of unbound jumps, the labels and the end of the block are the same. The
code is handed out or refused alike, with no positions where none were recorded. -/
theorem positions_leave_code (t : OpcodeTable) (elide : Bool) (mode : PositionMode)
    (calls : List Call) (hsmall : (Assembler.new t ⟨elide, mode⟩).StaysSmall calls) :
    let loud := Assembler.new t ⟨elide, .record⟩
    let mute := Assembler.new t ⟨elide, .omit⟩
    (mute.run calls).1 = (loud.run calls).1 ∧
    (∀ pre post, calls = pre ++ post →
      (mute.after pre).code = (loud.after pre).code ∧
      (mute.after pre).unboundJumps = (loud.after pre).unboundJumps ∧
      (mute.after pre).blockClosed = (loud.after pre).blockClosed ∧
      (mute.after pre).labels = (loud.after pre).labels) ∧
    (mute.after calls).finish =
      (loud.after calls).finish.map fun out => { out with positions := ⟨#[]⟩ } := by
  intro loud mute
  have hloud : loud.Consistent := (Journal.sound_new t ⟨elide, .record⟩).consistent
  have hsmall : loud.StaysSmall calls := by
    cases mode with
    | record => exact hsmall
    | «omit» => exact (staysSmall_mute_iff hloud).mp hsmall
  have hrun : mute.run calls = ((loud.run calls).1, (loud.run calls).2.mute) :=
    run_mute hloud hsmall
  refine ⟨by rw [hrun], ?_, ?_⟩
  · rintro pre post rfl
    have hafter : mute.after pre = (loud.after pre).mute :=
      congrArg Prod.snd (run_mute hloud hsmall.append.1)
    rw [hafter]
    exact ⟨rfl, rfl, rfl, rfl⟩
  · have hafter : mute.after calls = (loud.after calls).mute := congrArg Prod.snd hrun
    rw [hafter]
    exact finish_mute _

/-- One load hands its position on and another stays because of its own, though neither position is
kept. -/
theorem positions_leave_code_takenOver :
    (Assembler.new .standard ⟨true, .record⟩).StaysSmall takenOver ∧
    ((Assembler.new .standard ⟨true, .record⟩).after takenOver).log.entries.size = 3 ∧
    ((Assembler.new .standard ⟨true, .omit⟩).after takenOver).finish =
      .ok ⟨#[32, 1, 21, 22, 96], ⟨#[]⟩⟩ := by
  have hsmall : (Assembler.new .standard ⟨true, .record⟩).StaysSmall takenOver := by decide
  obtain ⟨-, -, hfinish⟩ := positions_leave_code .standard true .record takenOver hsmall
  refine ⟨hsmall, by decide, hfinish.trans ?_⟩
  decide

end BytecodeAssembler.Assembler
