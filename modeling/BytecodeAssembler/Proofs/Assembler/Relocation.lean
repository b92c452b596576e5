import BytecodeAssembler.Proofs.Assembler.Waiting

/-! # Code behind other code

What an assembler writes does not depend on what lies in front of it: a state can be moved behind
the code, the labels and the positions of another (`behind`), and each call that succeeds then does
the same as before, with its label renumbered. Offsets move and distances stay.
-/
namespace BytecodeAssembler

def JumpSite.behind (n : Nat) (s : JumpSite) : JumpSite :=
  { s with start := n + s.start, operandOffset := n + s.operandOffset }

def Label.behind (n : Nat) : Label → Label
  | .pending sites => .pending (sites.map (·.behind n))
  | .bound offset => .bound (n + offset)

def PositionEntry.behind (n : Nat) (e : PositionEntry) : PositionEntry :=
  { e with offset := .ofNat n + e.offset }

def PositionLog.behind (front : Array PositionEntry) (n : Nat) (log : PositionLog) : PositionLog :=
  { log with entries := front ++ log.entries.map (·.behind n) }

namespace Assembler

def LastInstruction.behind (n : Nat) (l : LastInstruction) : LastInstruction :=
  { l with offset := n + l.offset }

/-- The call with its label moved up by `n`. -/
def Call.relabel (n : Nat) : Call → Call
  | .write i => .write i
  | .jump i label => .jump i (n + label)
  | .loop i header => .loop i (n + header)
  | .newLabel => .newLabel
  | .bind label => .bind (n + label)
  | .startBlock => .startBlock

def Reply.relabel (n : Nat) : Reply → Reply
  | .done => .done
  | .label index => .label (n + index)

/-- The state `b`, moved behind what `base` has assembled. -/
def behind (base b : Assembler) : Assembler :=
  { b with
    code := base.code ++ b.code
    log := b.log.behind base.log.entries base.code.size
    labels := base.labels ++ b.labels.map (·.behind base.code.size)
    unboundJumps := base.unboundJumps + b.unboundJumps
    last := b.last.map (LastInstruction.behind base.code.size) }

variable {base b b' : Assembler} {i : Instruction} {label : Nat}

@[simp] theorem table_behind (base b : Assembler) : (base.behind b).table = b.table := rfl

@[simp] theorem blockClosed_behind (base b : Assembler) :
    (base.behind b).blockClosed = b.blockClosed := rfl

@[simp] theorem size_code_behind (base b : Assembler) :
    (base.behind b).code.size = base.code.size + b.code.size := Array.size_append

theorem size_lt_of_behind (h : (base.behind b).code.size < UInt32.size) :
    b.code.size < UInt32.size := by
  rw [size_code_behind] at h
  omega

theorem getElem?_labels_behind (base b : Assembler) (label : Nat) :
    (base.behind b).labels[base.labels.size + label]? =
      b.labels[label]?.map (·.behind base.code.size) := by
  show (base.labels ++ b.labels.map (·.behind base.code.size))[base.labels.size + label]? = _
  rw [Array.getElem?_append_right (Nat.le_add_right ..), Nat.add_sub_cancel_left,
    Array.getElem?_map]

theorem setIfInBounds_labels_behind (base b : Assembler) (label : Nat) (l : Label) :
    (base.behind b).labels.setIfInBounds (base.labels.size + label) (l.behind base.code.size) =
      base.labels ++ (b.labels.setIfInBounds label l).map (·.behind base.code.size) := by
  simp [behind]

theorem jumpFault?_behind {o : Opcode} (h : b.jumpFault? o label = none) :
    (base.behind b).jumpFault? o (base.labels.size + label) = none := by
  obtain ⟨ho, sites, hl⟩ := jumpFault?_eq_none h
  simp [jumpFault?, ho, getElem?_labels_behind, hl, Label.behind]

theorem loopTarget_behind {o : Opcode} {header target : Nat}
    (h : b.loopTarget o header = .ok target) :
    (base.behind b).loopTarget o (base.labels.size + header) = .ok (base.code.size + target) := by
  obtain ⟨ho, hl⟩ := loopTarget_eq_ok h
  simp [loopTarget, ho, getElem?_labels_behind, hl, Label.behind]

/-! ## Writing -/

theorem dead?_behind (base b : Assembler) (i : Instruction) :
    (base.behind b).dead? i = (b.dead? i).map (LastInstruction.behind base.code.size) := by
  by_cases hon : b.options.elideDeadLoads
  · have hon' : (base.behind b).options.elideDeadLoads := hon
    rw [dead?, dead?, if_pos hon', if_pos hon]
    cases hl : b.last with
    | none => simp [behind, hl]
    | some l =>
      simp only [behind, hl, Option.map_some, Option.filter_some, LastInstruction.behind]
      split <;> rfl
  · have hoff : ¬(base.behind b).options.elideDeadLoads := hon
    rw [dead?, dead?, if_neg hoff, if_neg hon]
    rfl

theorem startOf_behind (base b : Assembler) (i : Instruction) :
    (base.behind b).startOf i = base.code.size + b.startOf i := by
  simp only [startOf, dead?_behind]
  cases b.dead? i with
  | none => exact size_code_behind base b
  | some l => rfl

theorem note_behind (front : Array PositionEntry) (n offset : Nat) (log : PositionLog)
    (source : SourceInfo) :
    (log.behind front n).note (n + offset) source = (log.note offset source).behind front n := by
  unfold PositionLog.note
  cases source.position? with
  | none => rfl
  | some p =>
    unfold PositionLog.push
    cases hm : log.mode with
    | «omit» => simp [PositionLog.behind, hm]
    | record => simp [PositionLog.behind, PositionEntry.behind, hm, UInt32.ofNat_add]

theorem emit_behind (base b : Assembler) (i : Instruction) (bytes : List UInt8) :
    (base.behind b).emit i bytes = base.behind (b.emit i bytes) := by
  have hcode : (base.code ++ b.code).shrink (base.code.size + b.startOf i) ++ bytes =
      base.code ++ (b.code.shrink (b.startOf i) ++ bytes) := by
    apply Array.ext'
    simp only [Array.toList_append, Array.toList_appendList, Array.toList_shrink]
    rw [← Array.length_toList, List.take_length_add_append, List.append_assoc]
  have hlast : ((b.dead? i).map (LastInstruction.behind base.code.size)).any (·.hasPosition) =
      (b.dead? i).any (·.hasPosition) := by
    cases b.dead? i <;> rfl
  simp only [emit, startOf_behind, dead?_behind, hlast]
  simp only [behind, hcode, note_behind, apply_ite (Option.map (LastInstruction.behind _))]
  rfl

/-! ## Labels -/

theorem await_behind (base : Assembler) {sites : Array JumpSite}
    (h : b.labels[label]? = some (.pending sites)) (site : JumpSite) :
    (base.behind b).await (base.labels.size + label) (site.behind base.code.size) =
      base.behind (b.await label site) := by
  have hl : (base.behind b).labels[base.labels.size + label]? =
      some (.pending (sites.map (·.behind base.code.size))) := by
    rw [getElem?_labels_behind, h]
    rfl
  have hsites : Label.pending ((sites.map (·.behind base.code.size)).push
      (site.behind base.code.size)) = (Label.pending (sites.push site)).behind base.code.size := by
    simp [Label.behind]
  have hlabels : ((base.behind b).await (base.labels.size + label)
      (site.behind base.code.size)).labels = (base.behind (b.await label site)).labels := by
    rw [labels_await hl, hsites, setIfInBounds_labels_behind, ← labels_await h]
    rfl
  calc (base.behind b).await (base.labels.size + label) (site.behind base.code.size)
      = { base.behind (b.await label site) with
          labels := ((base.behind b).await (base.labels.size + label)
            (site.behind base.code.size)).labels } := rfl
    _ = base.behind (b.await label site) := by rw [hlabels]

theorem jumpSite_behind (base b : Assembler) (i : Instruction) (w : Width) :
    (base.behind b).jumpSite i w = (b.jumpSite i w).behind base.code.size := by
  simp [jumpSite, JumpSite.behind, startOf_behind, Nat.add_assoc]

theorem reaches_behind (n target : Nat) (s : JumpSite) :
    (s.behind n).reaches (n + target) = s.reaches target := by
  simp [JumpSite.reaches, JumpSite.behind, Nat.add_sub_add_left]

theorem overwrite_behind (front code : Array UInt8) (offset : Nat) (bytes : List UInt8) :
    overwrite (front ++ code) (front.size + offset) bytes =
      front ++ overwrite code offset bytes := by
  induction bytes generalizing code offset with
  | nil => rfl
  | cons x bytes ih =>
    have hset : (front ++ code).setIfInBounds (front.size + offset) x =
        front ++ code.setIfInBounds offset x := by simp
    rw [overwrite, overwrite, hset, Nat.add_assoc, ih]

theorem resolved_behind (front code : Array UInt8) (target : Nat) (sites : List JumpSite) :
    resolved (front.size + target) (sites.map (·.behind front.size)) (front ++ code) =
      front ++ resolved target sites code := by
  induction sites generalizing code with
  | nil => rfl
  | cons s sites ih =>
    have hdistance : front.size + target - (s.behind front.size).start = target - s.start :=
      Nat.add_sub_add_left ..
    rw [List.map_cons, resolved, resolved, hdistance]
    exact (congrArg _ (overwrite_behind ..)).trans (ih _)

theorem settle_behind (base b : Assembler) (label : Nat) (sites : List JumpSite) :
    (base.behind b).settle (base.labels.size + label) (sites.map (·.behind base.code.size)) =
      base.behind (b.settle label sites) := by
  have hlabels := setIfInBounds_labels_behind base b label (.bound b.code.size)
  have hcode := resolved_behind base.code b.code b.code.size sites
  rw [settle, size_code_behind, show Label.bound (base.code.size + b.code.size) =
    (Label.bound b.code.size).behind base.code.size from rfl, hlabels]
  simp only [behind, settle, hcode]

theorem bound_behind (base : Assembler) {sites : Array JumpSite} (hacc : b.Accounted)
    (h : b.labels[label]? = some (.pending sites)) :
    { (base.behind b).settle (base.labels.size + label)
        (sites.map (·.behind base.code.size)).toList with
      unboundJumps := (base.behind b).unboundJumps - (sites.map (·.behind base.code.size)).size
      blockClosed := false
      last := none } =
    base.behind { b.settle label sites.toList with
      unboundJumps := b.unboundJumps - sites.size
      blockClosed := false
      last := none } := by
  have hmem : Label.pending sites ∈ b.labels.toList := (Array.mem_of_getElem? h).val
  have hle : sites.size ≤ b.unboundJumps := (Label.waiting_le_waitingAt hmem).trans hacc
  have hunbound : base.unboundJumps + b.unboundJumps - sites.size =
      base.unboundJumps + (b.unboundJumps - sites.size) := Nat.add_sub_assoc hle _
  have hsettle := settle_behind base b label sites.toList
  rw [Array.toList_map, hsettle, Array.size_map]
  simp only [behind, settle, hunbound, Option.map_none]

/-! ## Calls -/

section
variable {r : Reply}

theorem step_write_behind (hb : b.Consistent) (hbase : (base.behind b).Consistent)
    (hall : (base.behind b).code.size < UInt32.size) (h : b.step (.write i) = (.ok r, b')) :
    (base.behind b).step (.write i) = (.ok .done, base.behind b') ∧ r = .done := by
  rw [step_write hb (size_lt_of_behind hall)] at h
  rw [step_write hbase hall, blockClosed_behind, table_behind]
  split at h
  next hdrop =>
    cases h
    exact ⟨if_pos hdrop, rfl⟩
  next hopen =>
    rw [if_neg hopen]
    split at h
    next => cases h
    next bytes hx =>
      cases h
      simp only [emit_behind, and_self]

theorem step_jump_behind (hb : b.Consistent) (hbase : (base.behind b).Consistent)
    (hall : (base.behind b).code.size < UInt32.size) (h : b.step (.jump i label) = (.ok r, b')) :
    (base.behind b).step (.jump i (base.labels.size + label)) =
      (.ok .done, base.behind b') ∧ r = .done := by
  rw [step_jump hb (size_lt_of_behind hall)] at h
  rw [step_jump hbase hall, blockClosed_behind, table_behind]
  split at h
  next => cases h
  next hf =>
    simp only [jumpFault?_behind hf]
    split at h
    next hdrop =>
      cases h
      exact ⟨if_pos hdrop, rfl⟩
    next hopen =>
      rw [if_neg hopen]
      split at h
      next => cases h
      next j bytes hx =>
        cases h
        obtain ⟨-, sites, hl⟩ := jumpFault?_eq_none hf
        have hawait := await_behind base (b := b.emit j bytes) hl
        simp only [emit_behind, jumpSite_behind, hawait, and_self]

theorem step_loop_behind (hb : b.Consistent) (hbase : (base.behind b).Consistent)
    (hall : (base.behind b).code.size < UInt32.size) (h : b.step (.loop i label) = (.ok r, b')) :
    (base.behind b).step (.loop i (base.labels.size + label)) =
      (.ok .done, base.behind b') ∧ r = .done := by
  rw [step_loop hb (size_lt_of_behind hall)] at h
  rw [step_loop hbase hall, blockClosed_behind, table_behind]
  split at h
  next => cases h
  next target ht =>
    -- the distance back to the header is what it was
    simp only [loopTarget_behind ht, size_code_behind, Nat.add_sub_add_left,
      Nat.add_lt_add_iff_left]
    split at h
    next hdrop =>
      cases h
      exact ⟨if_pos hdrop, rfl⟩
    next hopen =>
      rw [if_neg hopen]
      split at h
      next => cases h
      next hle =>
        rw [if_neg hle]
        split at h
        next => cases h
        next ws hws =>
          split at h
          next hreach =>
            split at h
            next => cases h
            next j bytes hx =>
              cases h
              simp only [if_pos hreach, emit_behind, and_self]
          next => cases h

theorem step_bind_behind (base : Assembler) (hacc : b.Accounted)
    (h : b.step (.bind label) = (.ok r, b')) :
    (base.behind b).step (.bind (base.labels.size + label)) =
      (.ok .done, base.behind b') ∧ r = .done := by
  rw [step_bind] at h
  rw [step_bind, getElem?_labels_behind]
  split at h
  next => cases h
  next => cases h
  next sites hl =>
    split at h
    next hreach =>
      cases h
      have hreach' : (sites.map (·.behind base.code.size)).toList.find?
          (!·.reaches (base.behind b).code.size) = none := by
        rw [Array.toList_map, List.find?_map, size_code_behind]
        simp only [Function.comp_def, reaches_behind, hreach, Option.map_none]
      have hbound := bound_behind base hacc hl
      simp only [hl, Option.map_some, Label.behind, hreach', hbound, and_self]
    next => cases h

/-- A call that succeeds does the same behind other code. -/
theorem step_behind (hb : b.Consistent) (hacc : b.Accounted) (hbase : (base.behind b).Consistent)
    (hall : (base.behind b).code.size < UInt32.size) {c : Call} (h : b.step c = (.ok r, b')) :
    (base.behind b).step (c.relabel base.labels.size) =
      (.ok (r.relabel base.labels.size), base.behind b') := by
  cases c with
  | write i =>
    obtain ⟨hstep, rfl⟩ := step_write_behind hb hbase hall h
    exact hstep
  | jump i label =>
    obtain ⟨hstep, rfl⟩ := step_jump_behind hb hbase hall h
    exact hstep
  | loop i header =>
    obtain ⟨hstep, rfl⟩ := step_loop_behind hb hbase hall h
    exact hstep
  | newLabel =>
    cases h
    have hindex : (base.behind b).labels.size = base.labels.size + b.labels.size := by
      simp [behind]
    have hadd : (base.behind b).addLabel = base.behind b.addLabel := by
      simp [behind, addLabel, Label.behind]
    show (_, (base.behind b).addLabel) = _
    rw [hadd, hindex]
    rfl
  | bind label =>
    obtain ⟨hstep, rfl⟩ := step_bind_behind base hacc h
    exact hstep
  | startBlock =>
    cases h
    rfl

end

end Assembler
end BytecodeAssembler
