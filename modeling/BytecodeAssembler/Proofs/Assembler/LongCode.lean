import BytecodeAssembler.Proofs.Assembler.Journal

/-! # Code that was too long in between

Offsets are recorded as words of 32 bits. Behind 2^32 bytes of code a position may seem to fall behind
the last one recorded, and then an instruction is given up halfway. Code gets shorter again only where
a load is retracted, and what was recorded before a load that starts within the first 2^32 bytes is in
order. `ConsistentInRange.after` carries this through any run, and a state that has it is consistent:
`ConsistentInRange.consistent`.
-/
namespace BytecodeAssembler

namespace Assembly
variable {P : Assembler → Prop} {α β : Type}

/-- Whatever the answer, the state has the property afterwards if it had it before. -/
def Keeps (P : Assembler → Prop) (m : Assembly α) : Prop :=
  ∀ a, P a → match m.run a with
    | .ok _ b => P b
    | .error _ b => P b

namespace Keeps

theorem pure (x : α) : Keeps P (pure x) := fun _ h => h

theorem throw (e : AssemblyError) : Keeps P (throw e : Assembly α) := fun _ h => h

theorem get : Keeps P (get : Assembly Assembler) := fun _ h => h

theorem modify {f : Assembler → Assembler} (hf : ∀ a, P a → P (f a)) : Keeps P (modify f) := hf

theorem ofInstruction (x : Except InstructionError α) : Keeps P (ofInstruction x) := by
  cases x with
  | error e => exact throw _
  | ok x => exact pure x

theorem bind {m : Assembly α} {f : α → Assembly β} (hm : m.Keeps P) (hf : ∀ x, (f x).Keeps P) :
    (m >>= f).Keeps P := by
  intro a h
  have ha := hm a h
  simp only [EStateM.run_bind]
  cases hrun : m.run a with
  | ok x b =>
    rw [hrun] at ha
    exact hf x b ha
  | error e b =>
    rw [hrun] at ha
    exact ha

theorem forM {f : β → Assembly Unit} (hf : ∀ x, (f x).Keeps P) (xs : List β) :
    Keeps P (xs.forM f) := by
  induction xs with
  | nil => exact pure ()
  | cons x xs ih => exact (hf x).bind fun _ => ih

end Keeps
end Assembly

namespace Assembler
open Assembly
variable {t : OpcodeTable} {a : Assembler}

/-- The state is consistent as far as it speaks of the first 2^32 bytes of the code. -/
structure ConsistentInRange (t : OpcodeTable) (a : Assembler) : Prop where
  table : a.table = t
  log : a.code.size < UInt32.size → a.log.UpTo a.code.size
  last : ∀ l, a.last = some l →
    l.offset ≤ a.code.size ∧ (l.offset < UInt32.size → a.log.UpTo l.offset)
  idle : a.options.elideDeadLoads = false → a.last = none

/-- What is recorded is a word of 32 bits, so it never lies behind an offset that is none. -/
theorem ConsistentInRange.consistent (h : a.ConsistentInRange t) : a.Consistent where
  log := by
    rcases Nat.lt_or_ge a.code.size UInt32.size with hsize | hsize
    · exact h.log hsize
    · exact PositionLog.upTo_of_size_le hsize a.log
  last l hl := by
    obtain ⟨hle, hlog⟩ := h.last l hl
    rcases Nat.lt_or_ge l.offset UInt32.size with hoffset | hoffset
    · exact ⟨hle, hlog hoffset⟩
    · exact ⟨hle, PositionLog.upTo_of_size_le hoffset a.log⟩
  idle := h.idle

theorem consistentInRange_new (t : OpcodeTable) (options : Options) :
    (Assembler.new t options).ConsistentInRange t where
  table := rfl
  log _ := by simp [PositionLog.UpTo, Assembler.new, PositionLog.empty]
  last := by simp [Assembler.new]
  idle _ := rfl

/-- The state between taking a dead load back and writing the instruction in its place: the last
instruction known is the one about to be written. -/
structure Pending (t : OpcodeTable) (a : Assembler) : Prop extends ConsistentInRange t a where
  ended : ∀ l, a.last = some l → l.offset = a.code.size

theorem Pending.note (h : a.Pending t) (source : SourceInfo) :
    Pending t { a with log := a.log.note a.code.size source } where
  table := h.table
  log hsize := (h.log hsize).note source
  last l hl := by
    have hend : l.offset = a.code.size := h.ended l hl
    refine ⟨hend.le, fun hoffset => ?_⟩
    rw [hend] at hoffset ⊢
    exact (h.log hoffset).note source
  idle := h.idle
  ended := h.ended

theorem Pending.append (h : a.Pending t) (bytes : List UInt8) :
    ConsistentInRange t { a with code := a.code ++ bytes } := by
  have hle : a.code.size ≤ (a.code ++ bytes).size := size_le_size_append ..
  refine ⟨h.table, fun hsize => (h.log (hle.trans_lt hsize)).mono hle, fun l hl => ?_, h.idle⟩
  obtain ⟨hstart, hlog⟩ := h.last l hl
  exact ⟨hstart.trans hle, hlog⟩

theorem last_of_deadLoad? {o : Opcode} {hasPosition : Bool} {l : LastInstruction}
    (h : a.deadLoad? o hasPosition = .ok (some l)) : a.last = some l := by
  unfold deadLoad? at h
  split at h
  · cases h
  next l' hl =>
    split at h
    · obtain ⟨use, -, hload⟩ := map_eq_ok.mp h
      split at hload
      · cases hload
        exact hl
      · cases hload
    · cases h

theorem ConsistentInRange.advance (h : a.ConsistentInRange t) {dead : Option LastInstruction}
    (hdead : ∀ l, dead = some l → a.last = some l) (hon : a.options.elideDeadLoads = true)
    (o : Opcode) (hasPosition : Bool) : ((a.retract dead).advance o hasPosition).Pending t := by
  have hlog : (a.retract dead).code.size < UInt32.size →
      (a.retract dead).log.UpTo (a.retract dead).code.size := by
    cases dead with
    | none => exact h.log
    | some l =>
      obtain ⟨hle, hlog⟩ := h.last l (hdead l rfl)
      simpa [retract, Nat.min_eq_left hle] using hlog
  refine ⟨⟨?_, hlog, ?_, ?_⟩, ?_⟩
  · cases dead <;> exact h.table
  · rintro l ⟨⟩
    exact ⟨le_rfl, hlog⟩
  · intro hoff
    have hoff : a.options.elideDeadLoads = false := by
      cases dead <;> exact hoff
    rw [hon] at hoff
    cases hoff
  · rintro l ⟨⟩
    rfl

theorem ConsistentInRange.elide (h : a.ConsistentInRange t) (o : Opcode) (hasPosition : Bool) :
    match (elide o hasPosition).run a with
    | .ok _ b => b.Pending t
    | .error _ b => b.ConsistentInRange t := by
  rw [run_elide]
  cases hon : a.options.elideDeadLoads with
  | false => exact ⟨h, by simp [h.idle hon]⟩
  | true =>
    cases hdead : a.deadLoad? o hasPosition with
    | error e => exact h
    | ok dead =>
      refine h.advance (fun l hl => ?_) hon o _
      rw [hl] at hdead
      exact last_of_deadLoad? hdead

theorem keeps_commit (i : Instruction) (bytes : List UInt8) :
    (commit i bytes).Keeps (ConsistentInRange t) := by
  intro a h
  have hclose : (a.closeAfter i.opcode).ConsistentInRange t := by
    unfold closeAfter
    split
    · exact ⟨h.table, h.log, h.last, h.idle⟩
    · exact h
  have helide := hclose.elide i.opcode i.source.isPresent
  simp only [commit, EStateM.run_bind, EStateM.run_modify]
  cases hrun : (elide i.opcode i.source.isPresent).run (a.closeAfter i.opcode) with
  | error e b =>
    rw [hrun] at helide
    exact helide
  | ok _ b =>
    rw [hrun] at helide
    rcases run_record_cases i.source b with hrecord | ⟨e, hrecord⟩
    · simp only [hrecord]
      exact (helide.note i.source).append bytes
    · simp only [hrecord]
      exact helide.toConsistentInRange

theorem keeps_write (i : Instruction) : (write i).Keeps (ConsistentInRange t) := by
  intro a h
  rw [run_write]
  cases a.blockClosed with
  | true => exact h
  | false =>
    cases i.encode a.table with
    | error e => exact h
    | ok bytes => exact keeps_commit i bytes a h

theorem keeps_writeJump (i : Instruction) (label : Nat) :
    (writeJump i label).Keeps (ConsistentInRange t) := by
  refine .bind .get fun a => ?_
  split
  · exact .throw _
  refine .bind .get fun b => ?_
  split
  · exact .pure _
  refine .bind (.ofInstruction _) fun jump => .bind .get fun c => .bind (.ofInstruction _) fun bytes =>
    (keeps_commit jump bytes).bind fun _ => .bind ?_ fun site => .modify fun a h => ?_
  · exact .bind .get fun _ => .bind (.ofInstruction _) fun _ => .pure _
  · exact ⟨h.table, h.log, h.last, h.idle⟩

theorem ConsistentInRange.startBlock (h : a.ConsistentInRange t) :
    a.startBlock.ConsistentInRange t :=
  ⟨h.table, h.log, by simp [Assembler.startBlock], fun _ => rfl⟩

theorem keeps_resolve (target : Nat) (site : JumpSite) :
    (resolve target site).Keeps (ConsistentInRange t) := by
  unfold resolve
  dsimp only
  split
  · refine .modify fun a h => ⟨h.table, ?_, ?_, h.idle⟩
    · simpa [patch] using h.log
    · simpa [patch] using h.last
  · exact .throw _

theorem keeps_bindLabel (label : Nat) : (bindLabel label).Keeps (ConsistentInRange t) := by
  refine .bind .get fun a => ?_
  split
  · exact .throw _
  · exact .throw _
  refine .bind .get fun b => .bind (.modify ?_) fun _ =>
    .bind (.forM (keeps_resolve _) _) fun _ => .bind (.modify ?_) fun _ =>
      .modify fun a h => h.startBlock
  · exact fun a h => ⟨h.table, h.log, h.last, h.idle⟩
  · exact fun a h => ⟨h.table, h.log, h.last, h.idle⟩

theorem keeps_writeLoop (i : Instruction) (header : Nat) :
    (writeLoop i header).Keeps (ConsistentInRange t) := by
  refine .bind .get fun a => ?_
  split
  · exact .throw _
  refine .bind .get fun b => ?_
  split
  · exact .pure _
  refine .bind .get fun c => ?_
  split
  · exact .throw _
  refine .bind .get fun d => .bind .get fun e => .bind (.ofInstruction _) fun widths => ?_
  split
  · exact .bind (.ofInstruction _) fun j => keeps_write j
  · exact .throw _

theorem keeps_perform (c : Call) : c.perform.Keeps (ConsistentInRange t) := by
  cases c with
  | write i => exact (keeps_write i).bind fun _ => .pure _
  | jump i label => exact (keeps_writeJump i label).bind fun _ => .pure _
  | loop i header => exact (keeps_writeLoop i header).bind fun _ => .pure _
  | newLabel =>
    refine .bind .get fun _ => .bind (.modify fun a h => ?_) fun _ => .pure _
    exact ⟨h.table, h.log, h.last, h.idle⟩
  | bind label => exact (keeps_bindLabel label).bind fun _ => .pure _
  | startBlock => exact .bind (.modify fun a h => h.startBlock) fun _ => .pure _

theorem ConsistentInRange.step (h : a.ConsistentInRange t) (c : Call) :
    (a.step c).2.ConsistentInRange t := by
  have hkeeps := keeps_perform (t := t) c a h
  unfold Assembler.step
  cases hrun : c.perform.run a with
  | ok r b =>
    rw [hrun] at hkeeps
    exact hkeeps
  | error e b =>
    rw [hrun] at hkeeps
    exact hkeeps

theorem ConsistentInRange.after (h : a.ConsistentInRange t) (calls : List Call) :
    (a.after calls).ConsistentInRange t := by
  induction calls generalizing a with
  | nil => exact h
  | cons c calls ih => exact ih (h.step c)

end Assembler
end BytecodeAssembler
