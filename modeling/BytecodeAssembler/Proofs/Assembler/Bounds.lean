import BytecodeAssembler.Proofs.Assembler.ControlFlow

/-! # What stays within the code

A jump that waits lies inside the code with its operand. So does a label, as long as no load in front
of it can be retracted (`Secures`), and none can from the moment the label was bound, because the
state then forgets its last instruction. If a jump is too far away for the label, however, the label
is bound and nothing is forgotten: it may be left behind the end of the code, and this is the only
way in which the distance of a loop jump becomes negative.
-/
namespace BytecodeAssembler.Assembler
variable {a b : Assembler} {c : Call} {r : Except AssemblyError Reply} {j : Journal} {target : Nat}

/-- The code reaches up to the target, and no load in front of the target can be retracted. -/
def Secures (a : Assembler) (target : Nat) : Prop :=
  target ≤ a.offset ∧ ∀ l, a.last = some l → target ≤ l.offset

theorem Secures.effect (h : a.Secures target) (ha : a.Consistent) (he : Effect a c r b) :
    b.Secures target := by
  obtain ⟨hend, hlast⟩ := h
  rcases he.writes_or_rests [] with ⟨q, x, bytes, hw⟩ | ⟨⟨hsize, -⟩, hrest⟩
  · have hle : target ≤ a.startOf x := le_startOf x hend hlast
    constructor
    · rw [offset, hw.code, size_emit ha]
      exact hle.trans (Nat.le_add_right ..)
    · exact hw.le_last ha hle
  · constructor
    · rwa [offset, hsize]
    · rcases hrest with ⟨-, hsame⟩ | ⟨-, hnone⟩
      · rwa [hsame]
      · simp [hnone]

theorem Secures.after (h : a.Secures target) (ha : a.Consistent) {calls : List Call}
    (hsmall : a.StaysSmall calls) : (a.after calls).Secures target :=
  (after_invariant (P := fun a => a.Consistent ∧ a.Secures target) (fun h => h.1)
    (fun h he => ⟨he.consistent h.1, h.2.effect h.1 he⟩) calls ⟨ha, h⟩ hsmall).2

/-- A label whose binding succeeded stays within the code. -/
theorem secures_of_bind (ha : a.Consistent) {label : Nat} {mid : List Call}
    (hsmall : a.StaysSmall (.bind label :: mid)) (hok : (a.step (.bind label)).1 = .ok .done) :
    (a.after (.bind label :: mid)).Secures a.offset := by
  obtain ⟨hsize, hmid⟩ := hsmall
  have he := step_effect ha hsize (.bind label)
  have hbound : (a.step (.bind label)).2.Secures a.offset := by
    generalize (a.step (.bind label)).2 = b at he
    rw [hok] at he
    cases he with
    | dropped hc => cases hc
    | bound => exact ⟨(size_resolved ..).ge, by simp⟩
  exact hbound.after (he.consistent ha) hmid

/-- A label that is bound was bound by a call to the end of the code at that time. Either the call
succeeded, and the label stays within the code, or a jump was out of its reach. -/
theorem exists_bind_of_bound (t : OpcodeTable) (options : Options) {calls : List Call}
    (hsmall : (Assembler.new t options).StaysSmall calls) {label : Nat}
    (hbound : ((Assembler.new t options).after calls).labels[label]? = some (.bound target)) :
    ∃ pre post, calls = pre ++ .bind label :: post ∧
      target = ((Assembler.new t options).after pre).offset ∧
      let r := (((Assembler.new t options).after pre).step (.bind label)).1
      (r = .ok .done ∧ ((Assembler.new t options).after calls).Secures target ∨
        ∃ distance scale, r = .error (.jumpOutOfRange distance scale)) := by
  have hnew := spelled_new t options
  obtain ⟨pre, post, rfl, hbinds, -, rfl⟩ := exists_bind_call hnew.consistent hnew.accounted hsmall
    (by simp [Assembler.new]) hbound
  refine ⟨pre, post, rfl, rfl, ?_⟩
  obtain ⟨hpre, hpost⟩ := hsmall.append
  have hcons := (spelled_journal t options hpre).consistent
  rcases hbinds.reply (step_effect hcons hpre.size_after _) with hok | herror
  · rw [after_append]
    exact .inl ⟨hok, secures_of_bind hcons hpost hok⟩
  · exact .inr herror

/-- The jumps that wait for a label are counted, and each lies in the code with its operand. -/
theorem Spelled.sites_within (h : Spelled a j) {label : Nat} {sites : Array JumpSite}
    (hl : a.labels[label]? = some (.pending sites)) :
    sites.size ≤ a.unboundJumps ∧
      ∀ s ∈ sites, s.start ≤ a.offset ∧ s.operandOffset + s.width.bytes ≤ a.offset := by
  constructor
  · have hle := Label.waiting_le_waitingAt (Array.mem_toList_iff.mpr (Array.mem_of_getElem? hl))
    exact hle.trans h.accounted
  · intro s hs
    obtain ⟨e, he, -, rfl⟩ := (h.mem_sites_iff hl).mp hs
    have hstop : e.start + e.bytes.length ≤ a.offset := h.tiles.stop_le he
    have hfits : e.slot + (e.width a.table).bytes ≤ e.bytes.length := (h.formed e he).fits
    constructor
    · exact (Nat.le_add_right ..).trans hstop
    · show e.start + e.slot + (e.width a.table).bytes ≤ a.offset
      omega

/-- A forward jump fails before anything is written, or not at all. -/
theorem Effect.jump_refused_or_done {i : Instruction} {label : Nat}
    (he : Effect a (.jump i label) r b) : (∃ e, r = .error e ∧ b = a) ∨ r = .ok .done := by
  cases he with
  | refused => exact .inl ⟨_, rfl, rfl⟩
  | dropped | jumped => exact .inr rfl

/-- The distance of a loop jump is negative exactly if its header is bound behind the end of the
code. -/
theorem step_loop_eq_negativeDistance_iff (ha : a.Consistent) (hsize : a.code.size < UInt32.size)
    {i : Instruction} {header : Nat} :
    (a.step (.loop i header)).1 = .error .negativeDistance ↔
      a.blockClosed = false ∧ i.opcode = .jumpLoop ∧
        ∃ target, a.labels[header]? = some (.bound target) ∧ a.offset < target := by
  constructor
  · intro h
    have he := step_effect ha hsize (.loop i header)
    generalize (a.step (.loop i header)).2 = b at he
    rw [h] at he
    cases he with
    | refused _ hne => exact absurd rfl hne
    | behind hopen ho hl hlt => exact ⟨hopen, ho, _, hl, hlt⟩
  · rintro ⟨hopen, ho, target, hl, hlt⟩
    have htarget : a.loopTarget i.opcode header = .ok target := by simp [loopTarget, ho, hl]
    have hlt : a.code.size < target := hlt
    rw [step_loop ha hsize, htarget]
    simp [hopen, hlt]

/-- In every state of a run the jumps that wait for a label are counted as unbound and lie in the
code with their operands; a forward jump in an open block fails and changes nothing, or has a first
operand and is not longer than the code it then ends; a label that is bound behind the end of the
code is one whose binding found a jump out of its reach; and only for such a header is the distance
of a loop jump negative. -/
theorem assembly_within_bounds (t : OpcodeTable) (options : Options) (calls : List Call)
    (hsmall : (Assembler.new t options).StaysSmall calls) :
    let s := Assembler.new t options
    let a := s.after calls
    (∀ (label : Nat) (sites : Array JumpSite), a.labels[label]? = some (.pending sites) →
      sites.size ≤ a.unboundJumps ∧
      ∀ x ∈ sites, x.start ≤ a.offset ∧ x.operandOffset + x.width.bytes ≤ a.offset) ∧
    (∀ i label, a.blockClosed = false → (∃ e, a.step (.jump i label) = (.error e, a)) ∨
      ∃ size w ws, t.instructionSize i.opcode i.scale = .ok size ∧
        size ≤ (a.step (.jump i label)).2.offset ∧
        t.operandWidths i.opcode i.scale = .ok (w :: ws)) ∧
    (∀ label target : Nat, a.labels[label]? = some (.bound target) → target ≤ a.offset ∨
      ∃ pre post distance scale, calls = pre ++ .bind label :: post ∧
        ((s.after pre).step (.bind label)).1 = .error (.jumpOutOfRange distance scale) ∧
        target = (s.after pre).offset) ∧
    ∀ i header, (a.step (.loop i header)).1 = .error .negativeDistance ↔
      a.blockClosed = false ∧ i.opcode = .jumpLoop ∧
        ∃ target, a.labels[header]? = some (.bound target) ∧ a.offset < target := by
  intro s a
  have hspelled : Spelled a (s.journal calls) := spelled_journal t options hsmall
  have htable : a.table = t := table_after (spelled_new t options).consistent hsmall
  have hsize : a.code.size < UInt32.size := hsmall.size_after
  refine ⟨fun label sites hl => hspelled.sites_within hl, ?_, ?_, fun i header =>
    step_loop_eq_negativeDistance_iff hspelled.consistent hsize⟩
  · intro i label hopen
    have he := step_effect hspelled.consistent hsize (.jump i label)
    rcases he.jump_refused_or_done with ⟨e, herror, hsame⟩ | hok
    · exact .inl ⟨e, Prod.ext herror hsame⟩
    · obtain ⟨⟨x, bytes, hw⟩, ⟨w, ws, hwidths⟩, -⟩ := he.jump_waits hopen hok
      obtain ⟨-, hoffset, hlength⟩ := hspelled.mem_note hw
      rw [htable] at hlength hwidths
      exact .inr ⟨bytes.length, w, ws, hlength, hoffset ▸ Nat.le_add_left .., hwidths⟩
  · intro label target hbound
    obtain ⟨pre, post, hcalls, htarget, ⟨-, hsecure⟩ | ⟨distance, scale, herror⟩⟩ :=
      exists_bind_of_bound t options hsmall hbound
    · exact .inl hsecure.1
    · exact .inr ⟨pre, post, distance, scale, hcalls, herror, htarget⟩

/-- A jump over more than 255 bytes with an operand of one byte, and loads behind them. -/
def outOfReach : List Call :=
  [.newLabel, .jump (.bare .jumpIfTrue .single [0]) 0] ++
    List.replicate 14 (.write (.bare .callProperty .quad [0, 0, 0, 0])) ++
    [.write (.bare .ldaConstant .quad [70000]), .bind 0, .write (.bare .ldaZero .single [])]

theorem assembly_within_bounds_outOfReach :
    let s := Assembler.new .standard default
    s.StaysSmall outOfReach ∧
    ∃ pre post distance scale, outOfReach = pre ++ .bind 0 :: post ∧
      ((s.after pre).step (.bind 0)).1 = .error (.jumpOutOfRange distance scale) ∧
      (s.after pre).offset = 260 := by
  intro s
  have hsmall : s.StaysSmall outOfReach := by decide +kernel
  have hbound : (s.after outOfReach).labels[0]? = some (.bound 260) := by decide +kernel
  have hbehind : ¬ 260 ≤ (s.after outOfReach).offset := by decide +kernel
  obtain ⟨-, -, hlabels, -⟩ := assembly_within_bounds .standard default outOfReach hsmall
  obtain ⟨pre, post, distance, scale, hcalls, herror, htarget⟩ :=
    (hlabels 0 260 hbound).resolve_left hbehind
  exact ⟨hsmall, pre, post, distance, scale, hcalls, herror, htarget.symm⟩

/-- After a failed binding the last load is still retracted, and the label is left behind the end of
the code. -/
theorem header_left_behind_outOfReach :
    let a := (Assembler.new .standard default).after outOfReach
    a.labels[0]? = some (.bound 260) ∧ a.offset = 255 ∧
      (a.step (.loop (.bare .jumpLoop .single [0, 0]) 0)).1 = .error .negativeDistance := by
  decide +kernel

end BytecodeAssembler.Assembler
