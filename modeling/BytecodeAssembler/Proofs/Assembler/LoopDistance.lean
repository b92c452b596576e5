import BytecodeAssembler.Proofs.Assembler.Bounds

/-! # The distance of a loop jump

A loop jump has in it the distance from its header to the end of the code as it was before the jump
was written. The jump starts there unless the table lets it overwrite the accumulator and it retracts
a load: then it starts where the load did, and the distance is too long by the bytes of the load.
-/
namespace BytecodeAssembler.Assembler
variable {a : Assembler} {j : Journal}

/-- A load that is retracted takes up bytes, so what is written for it starts earlier. -/
theorem Journal.Sound.startOf_eq_size_iff (h : Journal.Sound a j) (x : Instruction) :
    a.startOf x = a.code.size ↔ a.dead? x = none := by
  unfold startOf
  cases hdead : a.dead? x with
  | none => simp
  | some l =>
    obtain ⟨accepted, e, kept, bs, rfl, hstart, -⟩ := h.last l (dead?_eq_some hdead).2.1
    have he : e ∈ listing (⟨accepted, e :: kept⟩ :: bs) := by simp [listing]
    have hlt := (h.tiles.start_lt he).trans_le (h.tiles.stop_le he)
    simp only [reduceCtorEq, iff_false]
    omega

/-- An accepted loop jump has in it the distance from the end of the code before it was written. -/
theorem Spelled.loop_distance {i : Instruction} {header : Nat} (h : Spelled a j)
    (hsize : a.code.size < UInt32.size) (hopen : a.blockClosed = false)
    (hok : (a.step (.loop i header)).1 = .ok .done) :
    ∃ start size w ws target, i.opcode = .jumpLoop ∧ a.labels[header]? = some (.bound target) ∧
      a.table.instructionSize i.opcode i.scale = .ok size ∧
      (a.step (.loop i header)).2.offset = start + size ∧
      a.table.operandWidths i.opcode i.scale = .ok (w :: ws) ∧
      operandAt (a.step (.loop i header)).2.code start i.opcode i.scale w + target = a.offset ∧
      (a.Secures target → target ≤ start) ∧ (start = a.offset ↔ a.dead? i = none) := by
  have he := step_effect h.consistent hsize (.loop i header)
  have htable := he.table
  obtain ⟨x, bytes, w, ws, target, hw, ho, hwidths, hbound, hle, hholds, hx⟩ :=
    he.loop_writes hopen hok
  obtain ⟨hmem, hoffset, hlength⟩ := h.mem_note hw
  have hread := (h.note he).operandAt_back hmem hx (htable ▸ hw.encoded) (htable ▸ hwidths) hholds
  obtain ⟨hopcode, -, hsource, -⟩ := Instruction.setOperand_zero hx
  refine ⟨a.startOf x, bytes.length, w, ws, target, ho, hbound, hlength, hoffset, hwidths, ?_,
    fun hsecure => le_startOf x hsecure.1 hsecure.2, ?_⟩
  · rw [hread]
    exact Nat.sub_add_cancel hle
  · rw [← dead?_congr hopcode hsource]
    exact h.startOf_eq_size_iff x

/-- An accepted loop jump has in it the distance from where its header was bound to the end of the
code as it was before the jump was written. That is the distance to the start of the jump exactly if
the jump retracts no load, which it never does if the table does not let it overwrite the
accumulator. -/
theorem loop_distance_to_end (t : OpcodeTable) (options : Options) (calls : List Call)
    (hsmall : (Assembler.new t options).StaysSmall calls) (i : Instruction) (header : Nat) :
    let s := Assembler.new t options
    let a := s.after calls
    let b := (a.step (.loop i header)).2
    a.blockClosed = false → (a.step (.loop i header)).1 = .ok .done →
    ∃ before between start size w ws, calls = before ++ .bind header :: between ∧
      let h := s.after before
      a.labels[header]? = some (.bound h.offset) ∧
      ((h.step (.bind header)).1 = .ok .done → h.offset ≤ start) ∧
      t.instructionSize i.opcode i.scale = .ok size ∧ b.offset = start + size ∧
      t.operandWidths i.opcode i.scale = .ok (w :: ws) ∧
      operandAt b.code start i.opcode i.scale w + h.offset = a.offset ∧
      (operandAt b.code start i.opcode i.scale w + h.offset = start ↔ a.dead? i = none) ∧
      (t.accumulatorUse .jumpLoop ≠ .ok .write → a.dead? i = none) := by
  intro s a b hopen hok
  have hspelled : Spelled a (s.journal calls) := spelled_journal t options hsmall
  have htable : a.table = t := table_after (spelled_new t options).consistent hsmall
  obtain ⟨start, size, w, ws, target, ho, hbound, hlength, hoffset, hwidths, hread, hstart,
    hdead⟩ := hspelled.loop_distance hsmall.size_after hopen hok
  rw [htable] at hlength hwidths
  obtain ⟨before, between, hcalls, rfl, hreply⟩ := exists_bind_of_bound t options hsmall hbound
  refine ⟨before, between, start, size, w, ws, hcalls, hbound, ?_, hlength, hoffset, hwidths,
    hread, ?_, ?_⟩
  · intro hbind
    rcases hreply with ⟨-, hsecure⟩ | ⟨distance, scale, herror⟩
    · exact hstart hsecure
    · rw [hbind] at herror
      cases herror
  · rw [hread, ← hdead]
    exact eq_comm
  · intro hkeep
    refine Option.eq_none_iff_forall_ne_some.mpr fun l hl => hkeep ?_
    have hover := (dead?_eq_some hl).2.2.2.1
    rwa [ho, htable, OpcodeTable.overwrites_iff] at hover

/-- A table in which a loop jump overwrites the accumulator. -/
def overwritingLoops : OpcodeTable where
  descriptors := [⟨.wide, .none, []⟩, ⟨.extraWide, .none, []⟩, ⟨.ldaZero, .write, []⟩,
    ⟨.jumpLoop, .write, [.uimm, .imm]⟩]
  wellFormed := by decide

/-- The body of a loop that consists of one load. -/
def loadInLoop : List Call := [.newLabel, .bind 0, .write (.bare .ldaZero .single [])]

theorem loop_distance_to_end_loadInLoop :
    let a := (Assembler.new overwritingLoops default).after loadInLoop
    let b := (a.step (.loop (.bare .jumpLoop .single [0, 0]) 0)).2
    (Assembler.new overwritingLoops default).StaysSmall loadInLoop ∧ a.blockClosed = false ∧
    (a.step (.loop (.bare .jumpLoop .single [0, 0]) 0)).1 = .ok .done ∧
    ∃ start, b.offset = start + 3 ∧ operandAt b.code start .jumpLoop .single .byte = 1 := by
  intro a b
  have hsmall : (Assembler.new overwritingLoops default).StaysSmall loadInLoop := by decide
  have hopen : a.blockClosed = false := by decide
  have hok : (a.step (.loop (.bare .jumpLoop .single [0, 0]) 0)).1 = .ok .done := by decide
  have hlabel : a.labels[0]? = some (.bound 0) := by decide
  have hthree : overwritingLoops.instructionSize .jumpLoop .single = .ok 3 := by decide
  have hbyte : overwritingLoops.operandWidths .jumpLoop .single = .ok [.byte, .byte] := by decide
  obtain ⟨before, between, start, size, w, ws, -, hbound, -, hsize, hoffset, hwidths, hread, -⟩ :=
    loop_distance_to_end overwritingLoops default loadInLoop hsmall _ 0 hopen hok
  -- the header is bound to 0, so the distance is the size of the load, which is 1
  cases hsize.symm.trans hthree
  cases hwidths.symm.trans hbyte
  injection hlabel.symm.trans hbound with htarget
  injection htarget with htarget
  rw [← htarget] at hread
  exact ⟨hsmall, hopen, hok, start, hoffset, hread⟩

/-- Here the load is retracted after the distance was measured: the jump starts at its header, and
has a distance of 1 in it. -/
theorem loop_distance_ne_loadInLoop :
    let a := (Assembler.new overwritingLoops default).after loadInLoop
    let b := (a.step (.loop (.bare .jumpLoop .single [0, 0]) 0)).2
    a.blockClosed = false ∧
    (a.step (.loop (.bare .jumpLoop .single [0, 0]) 0)).1 = .ok .done ∧
    a.labels[0]? = some (.bound 0) ∧
    overwritingLoops.instructionSize .jumpLoop .single = .ok 3 ∧ b.offset = 0 + 3 ∧
    operandAt b.code 0 .jumpLoop .single .byte ≠ 0 - 0 := by
  decide

end BytecodeAssembler.Assembler
