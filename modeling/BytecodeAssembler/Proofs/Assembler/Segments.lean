import BytecodeAssembler.Proofs.Assembler.Positions
import BytecodeAssembler.Proofs.Assembler.Relocation

/-! # Segments of code

Two pieces of code that were assembled apart are one behind the other when they are assembled in one
run, with a new block in between: nothing of the first is left over in the second but its length and
the number of its labels.
-/
namespace BytecodeAssembler.Assembler
variable {base a b : Assembler}

theorem run_append (a : Assembler) (xs ys : List Call) :
    (a.run (xs ++ ys)).1 = (a.run xs).1 ++ ((a.after xs).run ys).1 := by
  induction xs generalizing a with
  | nil => rfl
  | cons c xs ih => exact congrArg _ (ih (a.step c).2)

theorem run_behind {calls : List Call} (hb : b.Consistent) (hacc : b.Accounted)
    (hbase : (base.behind b).Consistent) (hok : ∀ r ∈ (b.run calls).1, r.isOk)
    (hsmall : (base.behind b).StaysSmall (calls.map (·.relabel base.labels.size))) :
    (base.behind b).run (calls.map (·.relabel base.labels.size)) =
      ((b.run calls).1.map (·.map (·.relabel base.labels.size)), base.behind (b.after calls)) ∧
    b.StaysSmall calls := by
  induction calls generalizing b with
  | nil => exact ⟨rfl, size_lt_of_behind hsmall⟩
  | cons c calls ih =>
    obtain ⟨hall, hrest⟩ := hsmall
    have hsize := size_lt_of_behind hall
    have he := step_effect hb hsize c
    have hbase' := (step_effect hbase hall (c.relabel base.labels.size)).consistent hbase
    have hok : ∀ r ∈ (b.step c).1 :: ((b.step c).2.run calls).1, r.isOk := hok
    obtain ⟨hfirst, hokrest⟩ := List.forall_mem_cons.mp hok
    cases hr : (b.step c).1 with
    | error e =>
      rw [hr] at hfirst
      cases hfirst
    | ok r =>
      have hstep := step_behind hb hacc hbase hall (Prod.ext hr rfl)
      rw [hstep] at hrest hbase'
      obtain ⟨htail, hsmall⟩ := ih (he.consistent hb) (he.accounts hacc).1 hbase' hokrest hrest
      refine ⟨?_, hsize, hsmall⟩
      simp only [List.map_cons, run, hstep, htail, hr]
      rfl

theorem Effect.size_labels {c : Call} {r : Except AssemblyError Reply} (h : Effect a c r b) :
    b.labels.size = a.labels.size + [c].count .newLabel := by
  cases h with
  | @refused c _ _ hc | @dropped c _ hc =>
    cases c with
    | newLabel => cases hc
    | _ => rfl
  | behind | rejected | wrote | looped | began => rfl
  | jumped => simp [await, emit]
  | labelled => simp [addLabel]
  | bound | stranded => simp [settle]

theorem Effect.mode {c : Call} {r : Except AssemblyError Reply} (h : Effect a c r b) :
    b.log.mode = a.log.mode := by
  cases h with
  | refused | behind | dropped | rejected | labelled | began | bound | stranded => rfl
  | wrote | jumped | looped => exact PositionLog.mode_note ..

theorem size_labels_after {calls : List Call} (ha : a.Consistent) (hsmall : a.StaysSmall calls) :
    (a.after calls).labels.size = a.labels.size + calls.count .newLabel := by
  induction calls generalizing a with
  | nil => rfl
  | cons c calls ih =>
    obtain ⟨hsize, hrest⟩ := hsmall
    have he := step_effect ha hsize c
    have htail := ih (he.consistent ha) hrest
    rw [← List.singleton_append, List.count_append, ← Nat.add_assoc, ← he.size_labels]
    exact htail

/-- A new block behind some code begins like new code. -/
theorem behind_new {t : OpcodeTable} {options : Options} (htable : a.table = t)
    (hoptions : a.options = options) (hmode : a.log.mode = options.positions) :
    a.behind (.new t options) = a.startBlock := by
  subst htable hoptions
  simp [behind, new, startBlock, PositionLog.behind, PositionLog.empty, ← hmode]

/-- A new block and the calls of `ys` do behind any code what the calls of `ys` do alone. -/
theorem run_segments {t : OpcodeTable} {options : Options} {xs ys : List Call}
    (hys : ∀ r ∈ ((Assembler.new t options).run ys).1, r.isOk)
    (hsmall : (Assembler.new t options).StaysSmall
      (xs ++ .startBlock :: ys.map (·.relabel (xs.count .newLabel)))) :
    let new := Assembler.new t options
    let n := xs.count .newLabel
    new.run (xs ++ .startBlock :: ys.map (·.relabel n)) =
      ((new.run xs).1 ++ .ok .done :: (new.run ys).1.map (·.map (·.relabel n)),
        (new.after xs).behind (new.after ys)) ∧
    new.StaysSmall ys := by
  intro new n
  have hnew : new.Consistent := (Journal.sound_new t options).consistent
  obtain ⟨hfirst, -, hrest⟩ := hsmall.append
  obtain ⟨ha, htable, hoptions, hmode⟩ : (new.after xs).Consistent ∧ (new.after xs).table = t ∧
      (new.after xs).options = options ∧ (new.after xs).log.mode = options.positions :=
    after_invariant (P := fun a => a.Consistent ∧ a.table = t ∧ a.options = options ∧
        a.log.mode = options.positions) (fun h => h.1)
      (fun h he => ⟨he.consistent h.1, he.table.trans h.2.1, he.options.trans h.2.2.1,
        he.mode.trans h.2.2.2⟩) xs ⟨hnew, rfl, rfl, rfl⟩ hfirst
  have hlabels : (new.after xs).labels.size = n :=
    (size_labels_after hnew hfirst).trans (Nat.zero_add _)
  have hstart : (new.after xs).behind new = (new.after xs).startBlock :=
    behind_new htable hoptions hmode
  have hbase : ((new.after xs).behind new).Consistent :=
    hstart ▸ Effect.began.consistent ha
  have hrest : ((new.after xs).behind new).StaysSmall
      (ys.map (·.relabel (new.after xs).labels.size)) := by
    rw [hstart, hlabels]
    exact hrest
  obtain ⟨hrun, hsecond⟩ := run_behind hnew (accounted_new t options) hbase hys hrest
  rw [hstart, hlabels] at hrun
  have hafter := congrArg Prod.snd hrun
  refine ⟨Prod.ext ?_ ?_, hsecond⟩
  · rw [run_append]
    exact congrArg (fun p => (new.run xs).1 ++ .ok .done :: p.1) hrun
  · show new.after (xs ++ _) = _
    rw [after_append]
    exact hafter

theorem map_offset_stamp_behind {front : Array PositionEntry} {n m : Nat} {log : PositionLog}
    (h : log.UpTo m) (hsize : n + m < UInt32.size) :
    (log.behind front n).entries.toList.map (fun e => (e.offset.toNat, e.stamp)) =
      front.toList.map (fun e => (e.offset.toNat, e.stamp)) ++
        log.entries.toList.map (fun e => (n + e.offset.toNat, e.stamp)) := by
  simp only [PositionLog.behind, Array.toList_append, Array.toList_map, List.map_append,
    List.map_map, Function.comp_def]
  congr 1
  refine List.map_congr_left fun e he => ?_
  have hle : e.offset.toNat ≤ m := h e (Array.mem_toList_iff.mp he)
  have hoffset : (e.behind n).offset.toNat = n + e.offset.toNat := by
    have hn : (UInt32.ofNat n).toNat = n := UInt32.toNat_ofNat_of_lt' (by omega)
    rw [PositionEntry.behind, UInt32.toNat_add, hn]
    exact Nat.mod_eq_of_lt (lt_of_le_of_lt (Nat.add_le_add_left hle n) hsize)
  rw [hoffset]
  rfl

/-- Two sequences of calls that succeed on new assemblers succeed on one, with a new block in between
and the labels of the second renumbered. What they assemble lies one behind the other: the code, the
positions at their new offsets, and the jumps that wait. -/
theorem segments_compose (t : OpcodeTable) (options : Options) (xs ys : List Call)
    (hxs : ∀ r ∈ ((Assembler.new t options).run xs).1, r.isOk)
    (hys : ∀ r ∈ ((Assembler.new t options).run ys).1, r.isOk)
    (hsmall : (Assembler.new t options).StaysSmall
      (xs ++ .startBlock :: ys.map (·.relabel (xs.count .newLabel)))) :
    let new := Assembler.new t options
    let n := xs.count .newLabel
    let a := new.after xs
    let b := new.after ys
    let calls := xs ++ .startBlock :: ys.map (·.relabel n)
    let both := new.after calls
    (new.run calls).1 =
      (new.run xs).1 ++ .ok .done :: (new.run ys).1.map (·.map (·.relabel n)) ∧
    (∀ r ∈ (new.run calls).1, r.isOk) ∧
    both.code = a.code ++ b.code ∧
    both.log.entries.toList.map (fun e => (e.offset.toNat, e.stamp)) =
      a.log.entries.toList.map (fun e => (e.offset.toNat, e.stamp)) ++
        b.log.entries.toList.map (fun e => (a.code.size + e.offset.toNat, e.stamp)) ∧
    both.unboundJumps = a.unboundJumps + b.unboundJumps ∧
    both.blockClosed = b.blockClosed := by
  intro new n a b calls both
  obtain ⟨hrun, hsecond⟩ := run_segments hys hsmall
  have hreplies : (new.run calls).1 =
      (new.run xs).1 ++ .ok .done :: (new.run ys).1.map (·.map (·.relabel n)) :=
    congrArg Prod.fst hrun
  have hboth : both = a.behind b := congrArg Prod.snd hrun
  have hsize : a.code.size + b.code.size < UInt32.size := by
    rw [← size_code_behind, ← hboth]
    exact hsmall.size_after
  obtain ⟨hb, -⟩ := after_keeps (Journal.sound_new t options).consistent (accounted_new t options)
    hsecond
  refine ⟨hreplies, ?_, ?_, ?_, ?_, ?_⟩
  · rw [hreplies]
    intro r hr
    rcases List.mem_append.mp hr with hr | hr
    · exact hxs r hr
    rcases List.mem_cons.mp hr with rfl | hr
    · rfl
    obtain ⟨r, hr', rfl⟩ := List.mem_map.mp hr
    have hok := hys r hr'
    cases r with
    | error e => cases hok
    | ok r => rfl
  · rw [hboth]
    rfl
  · rw [hboth]
    exact map_offset_stamp_behind hb.log hsize
  · rw [hboth]
    rfl
  · rw [hboth]
    rfl

/-- A jump that waits, and behind it a load at the end of the block. -/
def openSegment : List Call :=
  [.newLabel, .jump (.bare .jumpIfTrue .single [0]) 0,
   .write ((Instruction.bare .ldaZero .single []).withSource (.statement 3))]

/-- A load that would take the place of one in front of it, and a loop with a way out. -/
def loopSegment : List Call :=
  [.newLabel, .newLabel, .write (.bare .ldaTrue .single []),
   .bind 0, .jump (.bare .jumpIfFalse .single [0]) 1, .loop (.bare .jumpLoop .single [0, 0]) 0,
   .bind 1, .write ((Instruction.bare .ret .single []).withSource (.statement 9))]

theorem segments_compose_openSegment :
    let new := Assembler.new .standard ⟨true, .record⟩
    let calls := openSegment ++ .startBlock ::
      loopSegment.map (·.relabel (openSegment.count .newLabel))
    (∀ r ∈ (new.run openSegment).1, r.isOk) ∧ (∀ r ∈ (new.run loopSegment).1, r.isOk) ∧
    new.StaysSmall calls ∧
    (new.after openSegment).code = #[82, 0, 16] ∧
    (new.after loopSegment).code = #[21, 83, 5, 84, 2, 0, 96] ∧
    (new.after calls).code = #[82, 0, 16, 21, 83, 5, 84, 2, 0, 96] := by
  intro new calls
  have hxs : ∀ r ∈ (new.run openSegment).1, r.isOk := by decide
  have hys : ∀ r ∈ (new.run loopSegment).1, r.isOk := by decide
  have hsmall : new.StaysSmall calls := by decide
  obtain ⟨-, -, hcode, -⟩ := segments_compose .standard ⟨true, .record⟩ openSegment loopSegment hxs
    hys hsmall
  refine ⟨hxs, hys, hsmall, by decide, by decide, hcode.trans ?_⟩
  decide

end BytecodeAssembler.Assembler
