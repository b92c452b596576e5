import BytecodeAssembler.Assembler.Emission
import BytecodeAssembler.Proofs.Encoding
import Mathlib.Order.Nat

/-! # Emission as a function

Committing an instruction can fail only where a source position would fall behind the last one kept.
In a consistent state this does not happen: the log reaches at most to the end of the code, and at
most to the start of a load that may still be retracted. `run_commit` then gives the state that
follows, and `Consistent.emit` says that it is consistent again. Only where an instruction would start
behind 2^32 bytes it may fail, and the state is `Overlong` from then on.
-/
namespace BytecodeAssembler

/-- The table says that the opcode overwrites the accumulator unread. -/
def OpcodeTable.overwrites (t : OpcodeTable) (o : Opcode) : Bool :=
  (t.find? o).any (·.use == .write)

theorem OpcodeTable.overwrites_iff {t : OpcodeTable} {o : Opcode} :
    t.overwrites o ↔ t.accumulatorUse o = .ok .write := by
  rw [accumulatorUse_eq_ok_iff]
  simp [overwrites, lookup_eq_ok_iff, Option.any_eq_true]

def PositionLog.note (log : PositionLog) (offset : Nat) (source : SourceInfo) : PositionLog :=
  match source.position? with
  | none => log
  | some p => log.push (.ofNat offset) ⟨p, source.isStatement⟩

def PositionLog.UpTo (log : PositionLog) (n : Nat) : Prop := ∀ e ∈ log.entries, e.offset.toNat ≤ n

theorem PositionLog.UpTo.mono {log : PositionLog} {m n : Nat} (h : log.UpTo m) (hmn : m ≤ n) :
    log.UpTo n := fun e he => (h e he).trans hmn

theorem PositionLog.upTo_of_size_le {n : Nat} (h : UInt32.size ≤ n) (log : PositionLog) :
    log.UpTo n := fun e _ => e.offset.toNat_lt.le.trans h

theorem PositionLog.UpTo.note {log : PositionLog} {n : Nat} (h : log.UpTo n)
    (source : SourceInfo) : (log.note n source).UpTo n := by
  unfold PositionLog.note
  cases source.position? with
  | none => exact h
  | some p =>
    intro e he
    unfold PositionLog.push at he
    cases hm : log.mode with
    | «omit» => exact h e (by simpa [hm] using he)
    | record =>
      simp only [hm, Array.mem_push] at he
      rcases he with he | rfl
      · exact h e he
      · simpa using Nat.mod_le n _

theorem PositionLog.later?_eq_none {log : PositionLog} {n : Nat} (h : log.UpTo n)
    (hn : n < UInt32.size) : log.later? (.ofNat n) = none := by
  unfold PositionLog.later?
  cases log.mode with
  | «omit» => rfl
  | record =>
    rw [Option.filter_eq_none_iff]
    intro o ho
    obtain ⟨e, he, rfl⟩ := Option.map_eq_some_iff.mp ho
    have hle := h e (Array.mem_of_back? he)
    simp only [decide_eq_true_eq, UInt32.lt_iff_toNat_lt, UInt32.toNat_ofNat_of_lt' hn]
    omega

namespace Assembler
variable {a : Assembler} {i : Instruction} {bytes : List UInt8}

/-- What a state says of itself is true of its code: the log ends inside it, the last instruction
starts inside it, and no position was recorded behind that start. -/
structure Consistent (a : Assembler) : Prop where
  log : a.log.UpTo a.code.size
  last : ∀ l, a.last = some l → l.offset ≤ a.code.size ∧ a.log.UpTo l.offset
  idle : a.options.elideDeadLoads = false → a.last = none

/-- The code has 2^32 bytes or more, and no load in front of that can be retracted. -/
structure Overlong (a : Assembler) : Prop where
  size : UInt32.size ≤ a.code.size
  last : ∀ l, a.last = some l → UInt32.size ≤ l.offset

/-- The load that writing `i` retracts. -/
def dead? (a : Assembler) (i : Instruction) : Option LastInstruction :=
  if a.options.elideDeadLoads then
    a.last.filter fun l =>
      l.opcode.isPureLoad && a.table.overwrites i.opcode && !(l.hasPosition && i.source.isPresent)
  else none

/-- Where `i` begins if it is written next. -/
def startOf (a : Assembler) (i : Instruction) : Nat :=
  match a.dead? i with
  | none => a.code.size
  | some l => l.offset

/-- The state after `i` was written in an open block. -/
def emit (a : Assembler) (i : Instruction) (bytes : List UInt8) : Assembler :=
  { a with
    code := a.code.shrink (a.startOf i) ++ bytes
    log := a.log.note (a.startOf i) i.source
    blockClosed := i.opcode.isTerminator
    last :=
      if a.options.elideDeadLoads then
        some ⟨i.opcode, a.startOf i, i.source.isPresent || (a.dead? i).any (·.hasPosition)⟩
      else a.last }

theorem dead?_eq_some {l : LastInstruction} (h : a.dead? i = some l) :
    a.options.elideDeadLoads = true ∧ a.last = some l ∧ l.opcode.isPureLoad ∧
      a.table.overwrites i.opcode ∧ (l.hasPosition && i.source.isPresent) = false := by
  unfold dead? at h
  split at h
  next hon =>
    rw [Option.filter_eq_some_iff] at h
    simp only [Bool.and_eq_true, Bool.not_eq_true'] at h
    exact ⟨hon, h.1, h.2.1.1, h.2.1.2, h.2.2⟩
  next => cases h

theorem dead?_congr {i x : Instruction} (ho : x.opcode = i.opcode) (hs : x.source = i.source) :
    a.dead? x = a.dead? i := by
  unfold dead?
  rw [ho, hs]

theorem Consistent.startOf_le (ha : a.Consistent) (i : Instruction) : a.startOf i ≤ a.code.size := by
  unfold startOf
  cases h : a.dead? i with
  | none => exact le_rfl
  | some l => exact (ha.last l (dead?_eq_some h).2.1).1

theorem Overlong.le_startOf (h : a.Overlong) (i : Instruction) : UInt32.size ≤ a.startOf i := by
  unfold startOf
  cases hdead : a.dead? i with
  | none => exact h.size
  | some l => exact h.last l (dead?_eq_some hdead).2.1

theorem Consistent.log_upTo_startOf (ha : a.Consistent) (i : Instruction) :
    a.log.UpTo (a.startOf i) := by
  unfold startOf
  cases h : a.dead? i with
  | none => exact ha.log
  | some l => exact (ha.last l (dead?_eq_some h).2.1).2

theorem size_le_size_append (code : Array UInt8) (bytes : List UInt8) :
    code.size ≤ (code ++ bytes).size := by
  rw [← Array.length_toList, ← Array.length_toList, Array.toList_appendList, List.length_append]
  exact Nat.le_add_right ..

theorem toList_emit : (a.emit i bytes).code.toList = a.code.toList.take (a.startOf i) ++ bytes := by
  simp [emit]

@[simp] theorem size_emit (ha : a.Consistent) :
    (a.emit i bytes).code.size = a.startOf i + bytes.length := by
  have h := ha.startOf_le i
  rw [← Array.length_toList, toList_emit, List.length_append, List.length_take,
    Array.length_toList, Nat.min_eq_left h]

theorem Consistent.emit (ha : a.Consistent) (i : Instruction) (bytes : List UInt8) :
    (a.emit i bytes).Consistent where
  log := by
    rw [size_emit ha]
    exact ((ha.log_upTo_startOf i).note i.source).mono (Nat.le_add_right ..)
  last l hl := by
    rw [size_emit ha]
    by_cases hon : a.options.elideDeadLoads
    · simp only [Assembler.emit, hon, ↓reduceIte, Option.some.injEq] at hl
      subst hl
      exact ⟨Nat.le_add_right .., (ha.log_upTo_startOf i).note i.source⟩
    · have hnone := ha.idle (by simpa using hon)
      simp [Assembler.emit, hon, hnone] at hl
  idle hoff := by
    have hoff : a.options.elideDeadLoads = false := hoff
    simpa [Assembler.emit, hoff] using ha.idle hoff

theorem last_emit (ha : a.Consistent) {l : LastInstruction} (hl : (a.emit i bytes).last = some l) :
    l.offset = a.startOf i ∧ l.opcode = i.opcode := by
  by_cases hon : a.options.elideDeadLoads
  · simp only [Assembler.emit, hon, ↓reduceIte, Option.some.injEq] at hl
    subst hl
    exact ⟨rfl, rfl⟩
  · have hnone := ha.idle (by simpa using hon)
    simp [Assembler.emit, hon, hnone] at hl

end Assembler

namespace Assembly
open Assembler
variable {a : Assembler} {i : Instruction}

theorem deadLoad?_eq {d : Descriptor} (hd : a.table.lookup i.opcode = .ok d)
    (hon : a.options.elideDeadLoads = true) :
    a.deadLoad? i.opcode i.source.isPresent = .ok (a.dead? i) := by
  have hfind := OpcodeTable.lookup_eq_ok_iff.mp hd
  cases hl : a.last with
  | none => simp [deadLoad?, dead?, hl]
  | some l =>
    by_cases hp : l.opcode.isPureLoad
    · simp only [deadLoad?, dead?, hl, hp, hon, OpcodeTable.accumulatorUse, hd,
        OpcodeTable.overwrites, hfind, Except.map, ↓reduceIte, Option.filter_some, Option.any_some,
        Bool.true_and]
    · simp [deadLoad?, dead?, hl, hp, hon, Option.filter_some]

theorem run_record {source : SourceInfo} (h : a.log.UpTo a.code.size)
    (hsize : a.code.size < UInt32.size) :
    (record source).run a = .ok () { a with log := a.log.note a.code.size source } := by
  unfold record PositionLog.note
  cases source.position? with
  | none => rfl
  | some p => simp [EStateM.run_bind, PositionLog.later?_eq_none h hsize]

theorem run_elide_closeAfter (ha : a.Consistent) (hopen : a.blockClosed = false)
    {d : Descriptor} (hd : a.table.lookup i.opcode = .ok d) :
    (elide i.opcode i.source.isPresent).run (a.closeAfter i.opcode) =
      .ok () { a.emit i [] with log := a.log } := by
  have hclose : a.closeAfter i.opcode = { a with blockClosed := i.opcode.isTerminator } := by
    unfold closeAfter
    split
    next h => rw [h]
    next h => cases a; simp_all
  rw [hclose, run_elide]
  by_cases hon : a.options.elideDeadLoads
  · have hdead : ({ a with blockClosed := i.opcode.isTerminator } : Assembler).deadLoad? i.opcode
        i.source.isPresent = .ok (a.dead? i) := deadLoad?_eq hd hon
    simp only [hon, hdead, ↓reduceIte, Assembler.emit, startOf]
    cases hl : a.dead? i with
    | none => simp [retract, advance]
    | some l => simp [retract, advance, (ha.last l (dead?_eq_some hl).2.1).1]
  · have hdead : a.dead? i = none := by simp [dead?, hon]
    simp [hon, Assembler.emit, startOf, hdead]

/-- Nothing fails once the bytes of an instruction are known, if its start is a word of 32 bits. -/
theorem run_commit_of_startOf_lt (ha : a.Consistent) (hopen : a.blockClosed = false)
    (hstart : a.startOf i < UInt32.size) {d : Descriptor} (hd : a.table.lookup i.opcode = .ok d)
    (bytes : List UInt8) : (commit i bytes).run a = .ok () (a.emit i bytes) := by
  have hcode : ({ a.emit i [] with log := a.log } : Assembler).code.size = a.startOf i := by
    exact (size_emit ha : (a.emit i []).code.size = a.startOf i + 0)
  have hrecord : (record i.source).run { a.emit i [] with log := a.log } =
      .ok () (a.emit i []) := by
    rw [run_record]
    · rw [hcode]
      rfl
    · rw [hcode]
      exact ha.log_upTo_startOf i
    · rw [hcode]
      exact hstart
  simp only [commit, EStateM.run_bind, EStateM.run_modify, run_elide_closeAfter ha hopen hd,
    hrecord]
  simp [emit]

theorem run_commit (ha : a.Consistent) (hopen : a.blockClosed = false)
    (hsize : a.code.size < UInt32.size) {d : Descriptor} (hd : a.table.lookup i.opcode = .ok d)
    (bytes : List UInt8) : (commit i bytes).run a = .ok () (a.emit i bytes) :=
  run_commit_of_startOf_lt ha hopen ((ha.startOf_le i).trans_lt hsize) hd bytes

theorem run_record_cases (source : SourceInfo) (a : Assembler) :
    (record source).run a = .ok () { a with log := a.log.note a.code.size source } ∨
      ∃ e, (record source).run a = .error e a := by
  unfold record PositionLog.note
  cases source.position? with
  | none => exact .inl rfl
  | some p =>
    cases hlater : a.log.later? (.ofNat a.code.size) with
    | none => exact .inl (by simp [EStateM.run_bind, hlater])
    | some last => exact .inr ⟨_, by simp [EStateM.run_bind, hlater]; rfl⟩

/-- An instruction that would start further back is written or given up after its start was noted, so
nothing in front of it can be retracted any more. -/
theorem run_commit_of_le_startOf (ha : a.Consistent) (hopen : a.blockClosed = false)
    (hstart : UInt32.size ≤ a.startOf i) {d : Descriptor} (hd : a.table.lookup i.opcode = .ok d)
    (bytes : List UInt8) :
    ∃ b, b.Overlong ∧
      ((commit i bytes).run a = .ok () b ∨ ∃ e, (commit i bytes).run a = .error e b) := by
  let begun : Assembler := { a.emit i [] with log := a.log }
  have hcode : begun.code.size = a.startOf i := size_emit ha
  have hlong : begun.Overlong := by
    refine ⟨by rwa [hcode], fun l hl => ?_⟩
    have hl : (a.emit i []).last = some l := hl
    rwa [(last_emit ha hl).1]
  have helide := run_elide_closeAfter ha hopen hd
  rcases run_record_cases i.source begun with hrecord | ⟨e, hrecord⟩
  · refine ⟨{ begun with
      log := begun.log.note begun.code.size i.source, code := begun.code ++ bytes }, ?_, .inl ?_⟩
    · exact ⟨hlong.size.trans (size_le_size_append ..), hlong.last⟩
    · simp only [commit, EStateM.run_bind, EStateM.run_modify, helide, hrecord, begun]
  · refine ⟨begun, hlong, .inr ⟨e, ?_⟩⟩
    simp only [commit, EStateM.run_bind, EStateM.run_modify, helide, hrecord, begun]

end Assembly
end BytecodeAssembler
