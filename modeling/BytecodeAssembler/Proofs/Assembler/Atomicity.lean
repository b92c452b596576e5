import BytecodeAssembler.Proofs.Assembler.Bounds

/-! # Failures leave nothing behind

A call that fails leaves the state as it was, with one exception: a binding that finds a jump out of
its reach. So a client may try a call, and carry on after a refusal as if it had not been made.
Committing an instruction changes the state before its last check is made, but in a state of a run
no check fails any more once the bytes of the instruction are known.
-/
namespace BytecodeAssembler.Assembler
open Assembly
variable {a b : Assembler} {c : Call} {e : AssemblyError}

/-- Only a binding that a jump cannot reach fails after it changed something. -/
theorem Effect.unchanged_or_stranded (he : Effect a c (.error e) b) :
    b = a ∨ ∃ label distance scale, c = .bind label ∧ e = .jumpOutOfRange distance scale := by
  cases he with
  | refused | behind | rejected => exact .inl rfl
  | stranded => exact .inr ⟨_, _, _, rfl, rfl⟩

theorem run_cons_of_step {r : Except AssemblyError Reply} (h : a.step c = (r, a))
    (rest : List Call) : a.run (c :: rest) = (r :: (a.run rest).1, (a.run rest).2) := by
  simp only [run, h]

/-- In a consistent state the encoding alone decides whether an instruction can be written. -/
theorem step_write_eq_error_iff (ha : a.Consistent) (hsize : a.code.size < UInt32.size)
    {i : Instruction} : (a.step (.write i)).1 = .error e ↔
      a.blockClosed = false ∧ ∃ cause, i.encode a.table = .error cause ∧ e = .instruction cause := by
  rw [step_write ha hsize]
  cases hclosed : a.blockClosed with
  | true => simp
  | false =>
    cases hb : i.encode a.table with
    | error cause => simp [eq_comm]
    | ok bytes => simp

/-- In every state of a run, a call that writes an instruction and fails, or a binding that fails for
its label, leaves the whole state as it was, and any calls that follow are answered as if it had not
been made. In an open block, once an instruction is encoded, the table knows what it does with the
accumulator and committing it succeeds; writing it fails only where encoding it does. -/
theorem failure_changes_nothing (t : OpcodeTable) (options : Options) (calls : List Call)
    (hsmall : (Assembler.new t options).StaysSmall calls) :
    let a := (Assembler.new t options).after calls
    (∀ c e, (a.step c).1 = .error e →
      (c.request?.isSome ∨ ∃ label, c = .bind label ∧
        (e = .unknownLabel label ∨ e = .labelAlreadyBound label)) →
      (a.step c).2 = a ∧
        ∀ rest, a.run (c :: rest) = (.error e :: (a.run rest).1, (a.run rest).2)) ∧
    (∀ i bytes, a.blockClosed = false → i.encode t = .ok bytes →
      (∃ use, t.accumulatorUse i.opcode = .ok use) ∧
        ∃ b, (Assembly.commit i bytes).run a = .ok () b) ∧
    ∀ i e, (a.step (.write i)).1 = .error e ↔
      a.blockClosed = false ∧ ∃ cause, i.encode t = .error cause ∧ e = .instruction cause := by
  intro a
  have hnew := spelled_new t options
  have ha : a.Consistent := (spelled_journal t options hsmall).consistent
  have htable : a.table = t := table_after hnew.consistent hsmall
  have hsize : a.code.size < UInt32.size := hsmall.size_after
  refine ⟨?_, ?_, ?_⟩
  · intro c e herror hkind
    have he := step_effect ha hsize c
    rw [herror] at he
    rcases he.unchanged_or_stranded with hsame | ⟨label, distance, scale, rfl, rfl⟩
    · exact ⟨hsame, run_cons_of_step (Prod.ext herror hsame)⟩
    · simp [Call.request?] at hkind
  · intro i bytes hopen hb
    obtain ⟨d, _, hd, -⟩ := Instruction.encode_eq_ok hb
    rw [← htable] at hd
    refine ⟨⟨d.use, ?_⟩, _, run_commit ha hopen hsize hd bytes⟩
    rw [← htable]
    exact OpcodeTable.accumulatorUse_eq_ok_iff.mpr ⟨d, hd, rfl⟩
  · intro i e
    rw [← htable]
    exact step_write_eq_error_iff ha hsize

/-- The last load is about to be retracted when the next instruction turns out not to fit. -/
theorem failure_changes_nothing_outOfReach :
    let s := Assembler.new .standard default
    let calls := outOfReach.take 18
    let c := Call.write (.bare .ldaSmi .single [300])
    s.StaysSmall calls ∧ ((s.after calls).step c).1 =
        .error (.instruction (.operandOutOfRange .ldaSmi 0 300 .single)) ∧
      ((s.after calls).step c).2 = s.after calls := by
  intro s calls c
  have hsmall : s.StaysSmall calls := by decide +kernel
  have herror : ((s.after calls).step c).1 =
      .error (.instruction (.operandOutOfRange .ldaSmi 0 300 .single)) := by decide +kernel
  obtain ⟨hfail, -⟩ := failure_changes_nothing .standard default calls hsmall
  exact ⟨hsmall, herror, (hfail c _ herror (.inl rfl)).1⟩

end BytecodeAssembler.Assembler
