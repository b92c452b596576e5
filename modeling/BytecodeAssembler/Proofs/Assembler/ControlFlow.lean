import BytecodeAssembler.Proofs.Assembler.Resolution

/-! # Where jumps land

A label is bound to the end of the code, and the state then forgets its last instruction, so no load
in front of that offset is retracted later. Hence the offsets of bound labels stay instruction
boundaries (`Anchored`), and jumps, which go to such offsets, land on them. A jump that was lost has
no distance, and its label may end up anywhere; but then no code is handed out.
-/
namespace BytecodeAssembler.Assembler
variable {a b : Assembler} {c : Call} {r : Except AssemblyError Reply} {j : Journal}

/-- An instruction of the code starts here, or the code ends here. -/
def IsBoundary (a : Assembler) (j : Journal) (target : Nat) : Prop :=
  target = a.offset ∨ ∃ e ∈ j.listing, e.start = target

theorem IsBoundary.le_offset {target : Nat} (h : IsBoundary a j target)
    (htiles : Journal.Tiles a.code.size j.listing) : target ≤ a.offset := by
  rcases h with rfl | ⟨e, he, rfl⟩
  · exact le_rfl
  · exact (htiles.start_lt he).le.trans (htiles.stop_le he)

/-- As long as no jump is lost, labels are bound to boundaries, and none behind the start of the last
instruction, which may be retracted. -/
structure Anchored (a : Assembler) (j : Journal) : Prop extends Journal.Sound a j where
  accounted : a.Accounted
  boundary : a.lost = 0 → ∀ {label target : Nat}, a.labels[label]? = some (.bound target) →
    IsBoundary a j target ∧ ∀ l, a.last = some l → target ≤ l.offset

theorem le_startOf {target : Nat} (x : Instruction) (hsize : target ≤ a.code.size)
    (hlast : ∀ l, a.last = some l → target ≤ l.offset) : target ≤ a.startOf x := by
  unfold startOf
  cases h : a.dead? x with
  | none => exact hsize
  | some l => exact hlast l (dead?_eq_some h).2.1

theorem Writes.le_last {q : Request} {x : Instruction} {bytes : List UInt8} {target : Nat}
    (hw : Writes a c r b q x bytes) (ha : a.Consistent) (hle : target ≤ a.startOf x) :
    ∀ l, b.last = some l → target ≤ l.offset := by
  intro l hl
  rw [hw.last] at hl
  rw [(last_emit ha hl).1]
  exact hle

theorem IsBoundary.writes {q : Request} {x : Instruction} {bytes : List UInt8} {target : Nat}
    (ht : IsBoundary a j target) (h : Journal.Sound a j) (hw : Writes a c r b q x bytes)
    (hlast : ∀ l, a.last = some l → target ≤ l.offset) :
    IsBoundary b (j.note a b c r) target ∧ ∀ l, b.last = some l → target ≤ l.offset := by
  have hle : target ≤ a.startOf x := le_startOf x (ht.le_offset h.tiles) hlast
  obtain ⟨rest, hplace, -, hrest⟩ := h.listing_place x (e := ⟨q, a.startOf x, bytes⟩) rfl
  constructor
  · right
    rw [hw.note h.consistent, hplace]
    by_cases heq : target = a.startOf x
    · exact ⟨_, List.mem_cons_self, heq.symm⟩
    · have hlt : target < a.startOf x := lt_of_le_of_ne hle heq
      rcases ht with rfl | ⟨e, he, rfl⟩
      · exact absurd (h.consistent.startOf_le x) hlt.not_ge
      · rcases hrest.mem_or_dead he with he | ⟨-, hstart⟩
        · exact ⟨e, List.mem_cons_of_mem _ he, rfl⟩
        · exact absurd hstart heq
  · exact hw.le_last h.consistent hle

theorem IsBoundary.rests {k : Journal} {target : Nat} (ht : IsBoundary a j target)
    (hsize : b.code.size = a.code.size) (hk : k.listing = j.listing) : IsBoundary b k target := by
  unfold IsBoundary offset at *
  rwa [hsize, hk]

/-- Bound labels stay on boundaries, whatever a call does. -/
theorem Anchored.note (h : Anchored a j) (he : Effect a c r b) : Anchored b (j.note a b c r) := by
  obtain ⟨hacc, hmono⟩ := he.accounts h.accounted
  refine { h.toSound.note he with accounted := hacc, boundary := ?_ }
  intro hlost label target hl
  have hlost' : a.lost = 0 := Nat.le_zero.mp (hlost ▸ hmono)
  -- labels bound before are kept off the last instruction; one bound now is at the end of the code
  have hold : a.labels[label]? = some (.bound target) →
      IsBoundary b (j.note a b c r) target ∧ ∀ l, b.last = some l → target ≤ l.offset := by
    intro hl
    obtain ⟨ht, hlast⟩ := h.boundary hlost' hl
    rcases he.writes_or_rests j with ⟨q, x, bytes, hw⟩ |
      ⟨⟨hsize, -⟩, ⟨hnote, hsame⟩ | ⟨hnote, hnone⟩⟩
    · exact ht.writes h.toSound hw hlast
    · rw [hnote, hsame]
      exact ⟨ht.rests hsize rfl, hlast⟩
    · rw [hnote, hnone]
      exact ⟨ht.rests hsize rfl, by simp⟩
  rcases he.advances_or_binds h.accounted with hab | ⟨m, rfl, hab, ⟨rfl, hnone⟩ | hpos⟩
  · exact hold (hab.bound.mp hl)
  · rw [hab.getElem?] at hl
    split at hl
    next =>
      cases hl
      rcases he.writes_or_rests j with ⟨q, x, bytes, hw⟩ | ⟨⟨hsize, -⟩, -⟩
      · cases hw.request
      · rw [hnone]
        exact ⟨.inl hsize.symm, by simp⟩
    next => exact hold hl
  · exact absurd hlost hpos.ne'

theorem anchored_new (t : OpcodeTable) (options : Options) :
    Anchored (Assembler.new t options) [⟨[], []⟩] where
  toSound := Journal.sound_new t options
  accounted := accounted_new t options
  boundary _ _ _ hl := by simp [Assembler.new] at hl

theorem Anchored.after (h : Anchored a j) {calls : List Call} (hsmall : a.StaysSmall calls) :
    Anchored (a.after calls) (a.journalFrom j calls) :=
  journal_invariant (P := Anchored) (fun h => h.consistent) (fun h he => h.note he) calls h hsmall

/-- A loop jump that was accepted was written with the distance back to its header. -/
theorem Effect.loop_writes {i : Instruction} {header : Nat} (he : Effect a (.loop i header) r b)
    (hopen : a.blockClosed = false) (hr : r = .ok .done) :
    ∃ x bytes w ws target, Writes a (.loop i header) r b ⟨i, .back header⟩ x bytes ∧
      i.opcode = .jumpLoop ∧ a.table.operandWidths i.opcode i.scale = .ok (w :: ws) ∧
      a.labels[header]? = some (.bound target) ∧ target ≤ a.code.size ∧
      w.holdsDistance (a.code.size - target) ∧
      i.setOperand 0 (.ofNat (a.code.size - target)) = .ok x := by
  cases he with
  | refused | behind => cases hr
  | dropped hc hclosed =>
    rw [hopen] at hclosed
    cases hclosed
  | @looped _ x _ target bytes w ws _ ho hl hd hi hx hwidths hle =>
    obtain ⟨hopcode, hscale, -⟩ := Instruction.setOperand_zero hi
    rw [hopcode, hscale] at hwidths
    exact ⟨x, bytes, w, ws, target, writes_loop hopen ho hi hx, ho, hwidths, hl, hle, hd, hi⟩

theorem startOf_eq_size {x : Instruction} (h : a.table.overwrites x.opcode = false) :
    a.startOf x = a.code.size := by
  have hdead : a.dead? x = none := by
    unfold dead?
    split
    · exact Option.filter_eq_none_iff.mpr fun l _ => by simp [h]
    · rfl
  simp [startOf, hdead]

theorem Spelled.operandAt_eq (h : Spelled a j) {e : Placed} (he : e ∈ j.listing)
    (hlink : ∀ label, e.request.link ≠ .forward label) :
    operandAt a.code e.start e.instruction.opcode e.instruction.scale (e.width a.table) =
      BigEndian.value ((e.bytes.drop e.slot).take (e.width a.table).bytes) := by
  obtain ⟨f, hcode, hfill⟩ := h.code
  have hread := operandAt_render (f := f) h.tiles (fun e he => (h.formed e he).fits) he
  rw [← hcode, Array.toArray_toList] at hread
  rw [hread]
  have hfilled := hfill e he
  generalize f e = d at hfilled ⊢
  cases hfilled with
  | plain => rfl
  | waiting hforward | resolved hforward | lost hforward => exact absurd hforward (hlink _)

/-- A loop jump in the code has in it the distance that it was written with. -/
theorem Spelled.operandAt_back (h : Spelled a j) {i x : Instruction} {header start distance : Nat}
    {bytes : List UInt8} {w : Width} {ws : List Width}
    (hmem : ⟨⟨i, .back header⟩, start, bytes⟩ ∈ j.listing)
    (hx : i.setOperand 0 (.ofNat distance) = .ok x) (hb : x.encode a.table = .ok bytes)
    (hwidths : a.table.operandWidths i.opcode i.scale = .ok (w :: ws))
    (hholds : w.holdsDistance distance) :
    operandAt a.code start i.opcode i.scale w = distance := by
  have hread := h.operandAt_eq hmem (by simp)
  have hwidth : Placed.width a.table ⟨⟨i, .back header⟩, start, bytes⟩ = w :=
    OpcodeTable.firstWidth_eq hwidths
  obtain ⟨hopcode, hscale, -, hoperands⟩ := Instruction.setOperand_zero hx
  have hfirst :=
    Instruction.take_drop_encode hb hoperands (by rw [hopcode, hscale]; exact hwidths)
  rw [hopcode, hscale, UInt32.toNat_ofNat_of_lt' (Width.lt_size hholds)] at hfirst
  rw [hwidth] at hread
  exact (hread.trans (congrArg BigEndian.value hfirst)).trans (Width.value_encode hholds)

/-- If code is handed out in the end, an accepted loop jump has in it the distance back to its
header, provided that writing it retracts nothing. -/
theorem Spelled.loop_of_finish {i : Instruction} {header : Nat} {post : List Call}
    {out : Bytecode} (h : Spelled a j) (hkeep : a.table.overwrites .jumpLoop = false)
    (hsmall : a.StaysSmall (.loop i header :: post))
    (hfinish : (a.after (.loop i header :: post)).finish = .ok out)
    (hopen : a.blockClosed = false) (hok : (a.step (.loop i header)).1 = .ok .done) :
    ∃ start size w ws target, a.labels[header]? = some (.bound target) ∧
      a.table.instructionSize i.opcode i.scale = .ok size ∧
      (a.step (.loop i header)).2.offset = start + size ∧
      a.table.operandWidths i.opcode i.scale = .ok (w :: ws) ∧
      operandAt out.code start i.opcode i.scale w + target = start := by
  have hend := h.after hsmall
  have htable := table_after h.consistent hsmall
  obtain ⟨hsize, hpost⟩ := hsmall
  have he := step_effect h.consistent hsize (.loop i header)
  obtain ⟨x, bytes, w, ws, target, hw, ho, hwidths, hbound, hle, hholds, hx⟩ :=
    he.loop_writes hopen hok
  obtain ⟨hmem, hoffset, hlength⟩ := h.mem_note hw
  have hload : i.opcode.isPureLoad = false := hw.encodes.isPureLoad_eq_false (by simp)
  have hlast := (h.note he).mem_journalFrom hpost hmem hload
  have hread := hend.operandAt_back hlast hx (htable ▸ hw.encoded) (htable ▸ hwidths) hholds
  obtain ⟨-, -, rfl⟩ := waiting_of_finish hend.accounted hfinish
  -- the distance was measured from the end of the code, and that is where the jump starts
  have hopcode : x.opcode = .jumpLoop := hw.encodes.same.1.trans ho
  have hstart : a.startOf x = a.code.size := startOf_eq_size (by rw [hopcode]; exact hkeep)
  refine ⟨a.startOf x, bytes.length, w, ws, target, hbound, hlength, hoffset, hwidths, ?_⟩
  calc operandAt (a.after (.loop i header :: post)).code (a.startOf x) i.opcode i.scale w + target
      = a.code.size - target + target := congrArg (· + target) hread
    _ = a.code.size := Nat.sub_add_cancel hle
    _ = a.startOf x := hstart.symm

/-- The offset that a label is bound to is a boundary from then on, unless a jump is lost. -/
theorem Anchored.isBoundary_of_bind (h : Anchored a j) {label : Nat} {mid : List Call}
    (hsmall : a.StaysSmall (.bind label :: mid)) (hok : (a.step (.bind label)).1 = .ok .done)
    (hlost : (a.after (.bind label :: mid)).lost = 0) :
    IsBoundary (a.after (.bind label :: mid)) (a.journalFrom j (.bind label :: mid)) a.offset := by
  have hend := h.after hsmall
  obtain ⟨hsize, hmid⟩ := hsmall
  have he := step_effect h.consistent hsize (.bind label)
  obtain ⟨hacc, -⟩ := he.accounts h.accounted
  obtain ⟨-, -, -, hstays⟩ := after_keeps (he.consistent h.consistent) hacc hmid
  exact (hend.boundary hlost (hstays (he.bound_here hok))).1

/-- If a run with the standard table ends with code being handed out, then at every moment the code
consists of the instructions of the journal, and the offset to which a label was bound is a boundary
of them from then on. In the code handed out every jump goes to the offset its label was bound to:
a forward jump by adding its first operand to its start, a loop jump by subtracting it. -/
theorem control_flow_sound (options : Options) (calls : List Call) (out : Bytecode)
    (hsmall : (Assembler.new .standard options).StaysSmall calls)
    (hfinish : ((Assembler.new .standard options).after calls).finish = .ok out) :
    let s := Assembler.new .standard options
    out.code = (s.after calls).code ∧
    (∀ now later, calls = now ++ later →
      Journal.Tiles (s.after now).offset (s.journal now).listing ∧
      ∃ distance, (s.after now).code.toList =
        render .standard distance (s.journal now).listing) ∧
    (∀ pre label mid later, calls = pre ++ .bind label :: mid ++ later →
      ((s.after pre).step (.bind label)).1 = .ok .done →
      IsBoundary (s.after (pre ++ .bind label :: mid)) (s.journal (pre ++ .bind label :: mid))
        (s.after pre).offset) ∧
    (∀ pre i label post, calls = pre ++ .jump i label :: post →
      let a := s.after pre
      a.blockClosed = false → (a.step (.jump i label)).1 = .ok .done →
      ∃ mid rest start size w ws, post = mid ++ .bind label :: rest ∧
        let b := a.after (.jump i label :: mid)
        (b.step (.bind label)).1 = .ok .done ∧
        OpcodeTable.standard.instructionSize i.opcode i.scale = .ok size ∧
        (a.step (.jump i label)).2.offset = start + size ∧
        OpcodeTable.standard.operandWidths i.opcode i.scale = .ok (w :: ws) ∧
        start + operandAt out.code start i.opcode i.scale w = b.offset) ∧
    (∀ pre i header post, calls = pre ++ .loop i header :: post →
      let a := s.after pre
      a.blockClosed = false → (a.step (.loop i header)).1 = .ok .done →
      ∃ before between start size w ws, pre = before ++ .bind header :: between ∧
        let b := s.after before
        (b.step (.bind header)).1 = .ok .done ∧
        OpcodeTable.standard.instructionSize i.opcode i.scale = .ok size ∧
        (a.step (.loop i header)).2.offset = start + size ∧
        OpcodeTable.standard.operandWidths i.opcode i.scale = .ok (w :: ws) ∧
        operandAt out.code start i.opcode i.scale w + b.offset = start) := by
  intro s
  have hnew := spelled_new .standard options
  have hspelled : ∀ {now}, s.StaysSmall now → Spelled (s.after now) (s.journal now) :=
    fun h => spelled_journal .standard options h
  have htable : ∀ {now}, s.StaysSmall now → (s.after now).table = .standard :=
    fun h => table_after hnew.consistent h
  obtain ⟨-, hlost, hout⟩ := waiting_of_finish (hspelled hsmall).accounted hfinish
  have hnotlost : ∀ {now later}, calls = now ++ later → (s.after now).lost = 0 := by
    rintro now later rfl
    obtain ⟨hnow, hlater⟩ := hsmall.append
    have h := hspelled hnow
    obtain ⟨-, -, hmono, -⟩ := after_keeps h.consistent h.accounted hlater
    rw [← after_append] at hmono
    exact Nat.le_zero.mp (hlost ▸ hmono)
  have hanchored : ∀ {now}, s.StaysSmall now → Anchored (s.after now) (s.journal now) :=
    fun h => (anchored_new .standard options).after h
  refine ⟨by rw [hout], ?_, ?_, ?_, ?_⟩
  · rintro now later rfl
    have h := hspelled hsmall.append.1
    obtain ⟨f, hcode, -⟩ := h.code
    rw [htable hsmall.append.1] at hcode
    exact ⟨h.tiles, f, hcode⟩
  · intro pre label mid later hcalls hok
    have hnow := (hcalls ▸ hsmall).append.1
    have hl := hnotlost hcalls
    obtain ⟨hpre, hbind⟩ := hnow.append
    have h := (hanchored hpre).isBoundary_of_bind hbind hok (by rwa [← after_append])
    rw [after_append, journal, journalFrom_append]
    exact h
  · rintro pre i label post rfl a hopen hok
    obtain ⟨hpre, hpost⟩ := hsmall.append
    have hsame : a.table = .standard := htable hpre
    rw [after_append] at hfinish
    obtain ⟨mid, rest, start, size, w, ws, rfl, hbind, hsize, hstop, hwidths, hle, hread⟩ :=
      (hspelled hpre).exists_bind_of_jump hpost hfinish hopen hok
    rw [hsame] at hsize hwidths
    refine ⟨mid, rest, start, size, w, ws, rfl, hbind, hsize, hstop, hwidths, ?_⟩
    rw [hread]
    exact Nat.add_sub_cancel' hle
  · rintro pre i header post rfl a hopen hok
    obtain ⟨hpre, hpost⟩ := hsmall.append
    have hsame : a.table = .standard := htable hpre
    have hkeep : a.table.overwrites .jumpLoop = false := by
      rw [hsame]
      decide
    rw [after_append] at hfinish
    obtain ⟨start, size, w, ws, target, hbound, hsize, hstop, hwidths, hread⟩ :=
      (hspelled hpre).loop_of_finish hkeep hpost hfinish hopen hok
    rw [hsame] at hsize hwidths
    obtain ⟨before, between, rfl, hbind, rfl⟩ := exists_bind hnew.consistent hnew.accounted hpre
      (by simp [Assembler.new]) hbound (hnotlost rfl)
    exact ⟨before, between, start, size, w, ws, rfl, hbind, hsize, hstop, hwidths, hread⟩

/-- A loop whose body leaves it by a forward jump. -/
def loopWithExit : List Call :=
  [.newLabel, .newLabel, .bind 0, .write (.bare .ldaTrue .single []),
   .jump (.bare .jumpIfFalse .single [0]) 1, .loop (.bare .jumpLoop .single [0, 0]) 0, .bind 1,
   .write (.bare .ldaUndefined .single []), .write (.bare .ret .single [])]

theorem control_flow_sound_loopWithExit :
    (Assembler.new .standard default).StaysSmall loopWithExit ∧
    ∃ out, ((Assembler.new .standard default).after loopWithExit).finish = .ok out ∧
      out.code = #[21, 83, 5, 84, 3, 0, 18, 96] ∧
      IsBoundary ((Assembler.new .standard default).after loopWithExit)
        ((Assembler.new .standard default).journal loopWithExit) 6 := by
  have hsmall : (Assembler.new .standard default).StaysSmall loopWithExit := by decide
  refine ⟨hsmall, ⟨#[21, 83, 5, 84, 3, 0, 18, 96], ⟨#[]⟩⟩, rfl, rfl, ?_⟩
  obtain ⟨-, -, hbound, -, -⟩ := control_flow_sound default loopWithExit _ hsmall rfl
  exact hbound (loopWithExit.take 6) 1 (loopWithExit.drop 7) [] rfl rfl

end BytecodeAssembler.Assembler
