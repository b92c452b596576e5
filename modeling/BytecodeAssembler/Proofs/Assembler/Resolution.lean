import BytecodeAssembler.OpcodeTable.Standard
import BytecodeAssembler.Proofs.Assembler.Spelling

/-! # Forward jumps are resolved

Code that is handed out has in each forward jump the distance to the place where its label was bound,
and every other byte as it was encoded. A jump that was accepted is in that code, for only loads are
ever retracted, and its label was bound after it, for otherwise the jump would still be waiting.
-/
namespace BytecodeAssembler

namespace Width

theorem lt_size {w : Width} {distance : Nat} (h : w.holdsDistance distance) :
    distance < UInt32.size := by
  unfold holdsDistance at h
  rw [Bool.and_eq_true, decide_eq_true_eq] at h
  exact h.1

/-- An operand holds the distances below the number of words of its width. -/
theorem holdsDistance_iff {w : Width} (hw : w ≠ .none) {distance : Nat} :
    w.holdsDistance distance ↔ distance < BigEndian.capacity w.bytes := by
  cases w with
  | none => exact absurd rfl hw
  | quad => simp [holdsDistance, OperandKind.fits, bytes, BigEndian.capacity, UInt32.size]
  | byte | short =>
    simp only [holdsDistance, OperandKind.fits, OperandKind.isSigned, bytes, BigEndian.capacity,
      Bool.and_eq_true, decide_eq_true_eq, Bool.false_eq_true, ↓reduceIte]
    constructor
    · rintro ⟨hsize, hfits⟩
      rwa [UInt32.toNat_ofNat_of_lt' hsize] at hfits
    · intro hlt
      have hsize : distance < UInt32.size := hlt.trans (by decide)
      exact ⟨hsize, by rwa [UInt32.toNat_ofNat_of_lt' hsize]⟩

theorem value_encode {w : Width} {distance : Nat} (h : w.holdsDistance distance) :
    BigEndian.value (BigEndian.encode w.bytes distance) = distance := by
  have hw : w ≠ .none := by
    rintro rfl
    simp [holdsDistance, OperandKind.fits] at h
  exact BigEndian.value_encode_of_lt ((holdsDistance_iff hw).mp h)

end Width

namespace Assembler
variable {a b : Assembler} {c : Call} {r : Except AssemblyError Reply} {j : Journal}

theorem Effect.jump_waits {i : Instruction} {label : Nat} (he : Effect a (.jump i label) r b)
    (hopen : a.blockClosed = false) (hr : r = .ok .done) :
    (∃ x bytes, Writes a (.jump i label) r b ⟨i, .forward label⟩ x bytes) ∧
      (∃ w ws, a.table.operandWidths i.opcode i.scale = .ok (w :: ws)) ∧
      ∃ sites, b.labels[label]? = some (.pending sites) := by
  cases he with
  | refused => cases hr
  | dropped hc hclosed =>
    rw [hopen] at hclosed
    cases hclosed
  | @jumped _ x _ sites bytes w ws _ ho hl hi hx hwidths =>
    obtain ⟨hopcode, hscale, -⟩ := Instruction.setOperand_zero hi
    rw [hopcode, hscale] at hwidths
    refine ⟨⟨x, bytes, writes_jump hopen ho hi hx _⟩, ⟨w, ws, hwidths⟩, ?_⟩
    have hget := getElem?_await (a := a.emit x bytes) hl (a.jumpSite x w)
    exact ⟨sites.push (a.jumpSite x w), by rw [hget, if_pos rfl]⟩

theorem Spelled.mem_note {q : Request} {x : Instruction} {bytes : List UInt8} (h : Spelled a j)
    (hw : Writes a c r b q x bytes) :
    ⟨q, a.startOf x, bytes⟩ ∈ (j.note a b c r).listing ∧ b.offset = a.startOf x + bytes.length ∧
      a.table.instructionSize q.instruction.opcode q.instruction.scale = .ok bytes.length := by
  obtain ⟨rest, hplace, -⟩ := h.listing_place x (e := ⟨q, a.startOf x, bytes⟩) rfl
  refine ⟨?_, ?_, hw.encodes.instructionSize hw.encoded⟩
  · rw [hw.note h.consistent, hplace]
    exact List.mem_cons_self
  · rw [offset, hw.code, size_emit h.consistent]

/-- As long as no jump was lost, a forward jump has its distance once its label is bound. -/
theorem Spelled.operandAt_of_bound (h : Spelled a j) (hlost : a.lost = 0) {e : Placed}
    (he : e ∈ j.listing) {label target : Nat} (hlink : e.request.link = .forward label)
    (hl : a.labels[label]? = some (.bound target)) :
    e.start ≤ target ∧
      operandAt a.code e.start e.instruction.opcode e.instruction.scale (e.width a.table) =
        target - e.start := by
  obtain ⟨f, hcode, hfill⟩ := h.code
  have hfits : ∀ e ∈ j.listing, e.Fits a.table := fun e he => (h.formed e he).fits
  have hread := operandAt_render (f := f) h.tiles hfits he
  rw [← hcode, Array.toArray_toList] at hread
  have hfilled := hfill e he
  generalize f e = d at hfilled hread
  cases hfilled with
  | plain hplain => exact absurd hlink (hplain label)
  | waiting hlink' hl' =>
    rw [hlink] at hlink'
    cases hlink'
    rw [hl] at hl'
    cases hl'
  | resolved hlink' hl' hstart hreach =>
    rw [hlink] at hlink'
    cases hlink'
    rw [hl] at hl'
    cases hl'
    refine ⟨hstart, ?_⟩
    rw [hread, Placed.take_drop_image (hfits e he)]
    exact Width.value_encode hreach
  | lost _ _ hpos => exact absurd hlost hpos.ne'

/-- Where no jump waits, the label of every forward jump is bound. -/
theorem Spelled.label_bound (h : Spelled a j) (hwaiting : a.waiting = 0) {e : Placed}
    (he : e ∈ j.listing) {label : Nat} (hlink : e.request.link = .forward label) :
    ∃ target, a.labels[label]? = some (.bound target) := by
  obtain ⟨f, -, hfill⟩ := h.code
  cases hl : a.labels[label]? with
  | none => exact absurd hl ((hfill e he).label_ne_none hlink)
  | some l =>
    cases l with
    | bound target => exact ⟨target, rfl⟩
    | pending sites =>
      have hpos : 0 < sites.size := by
        rw [← Array.length_toList, h.sites hl, List.length_reverse, List.length_map]
        exact List.length_pos_of_mem (List.mem_filter.mpr ⟨he, decide_eq_true hlink⟩)
      have hle := Label.waiting_le_waitingAt (Array.mem_toList_iff.mpr (Array.mem_of_getElem? hl))
      have hzero : Label.waitingAt a.labels.toList = 0 := hwaiting
      simp only [Label.waiting] at hle
      omega

theorem Spelled.operandAt_of_finish (h : Spelled a j) {out : Bytecode} (hf : a.finish = .ok out)
    {e : Placed} (he : e ∈ j.listing) {label : Nat} (hlink : e.request.link = .forward label) :
    ∃ target, a.labels[label]? = some (.bound target) ∧ e.start ≤ target ∧
      operandAt out.code e.start e.instruction.opcode e.instruction.scale (e.width a.table) =
        target - e.start := by
  obtain ⟨hwaiting, hlost, rfl⟩ := waiting_of_finish h.accounted hf
  obtain ⟨target, hl⟩ := h.label_bound hwaiting he hlink
  exact ⟨target, hl, h.operandAt_of_bound hlost he hlink hl⟩

/-- If code is handed out in the end, an accepted forward jump has in it the distance to where its
label is bound later on. -/
theorem Spelled.exists_bind_of_jump {i : Instruction} {label : Nat} {post : List Call}
    {out : Bytecode} (h : Spelled a j) (hsmall : a.StaysSmall (.jump i label :: post))
    (hfinish : (a.after (.jump i label :: post)).finish = .ok out)
    (hopen : a.blockClosed = false) (hok : (a.step (.jump i label)).1 = .ok .done) :
    ∃ mid rest start size w ws, post = mid ++ .bind label :: rest ∧
      ((a.after (.jump i label :: mid)).step (.bind label)).1 = .ok .done ∧
      a.table.instructionSize i.opcode i.scale = .ok size ∧
      (a.step (.jump i label)).2.offset = start + size ∧
      a.table.operandWidths i.opcode i.scale = .ok (w :: ws) ∧
      start ≤ (a.after (.jump i label :: mid)).offset ∧
      operandAt out.code start i.opcode i.scale w =
        (a.after (.jump i label :: mid)).offset - start := by
  have hend := h.after hsmall
  have htable := table_after h.consistent hsmall
  obtain ⟨hsize, hpost⟩ := hsmall
  have he := step_effect h.consistent hsize (.jump i label)
  obtain ⟨⟨x, bytes, hw⟩, ⟨w, ws, hwidths⟩, sites, hpending⟩ := he.jump_waits hopen hok
  obtain ⟨hmem, hoffset, hlength⟩ := h.mem_note hw
  have hb := h.note he
  have hload : i.opcode.isPureLoad = false := hw.encodes.isPureLoad_eq_false (by simp)
  have hlast := hb.mem_journalFrom hpost hmem hload
  obtain ⟨target, hbound, hstart, hread⟩ := hend.operandAt_of_finish hfinish hlast rfl
  obtain ⟨-, hlost, -⟩ := waiting_of_finish hend.accounted hfinish
  obtain ⟨mid, rest, rfl, hbind, rfl⟩ :=
    exists_bind hb.consistent hb.accounted hpost (by simp [hpending]) hbound hlost
  have hwidth : Placed.width a.table ⟨⟨i, .forward label⟩, a.startOf x, bytes⟩ = w :=
    OpcodeTable.firstWidth_eq hwidths
  rw [htable, hwidth] at hread
  exact ⟨mid, rest, a.startOf x, bytes.length, w, ws, rfl, hbind, hlength, hoffset, hwidths, hstart,
    hread⟩

theorem Spelled.getElem?_of_finish (h : Spelled a j) {out : Bytecode} (hf : a.finish = .ok out)
    {e : Placed} (he : e ∈ j.listing) {k : Nat} (hk : k < e.bytes.length)
    (hslot : (∀ label, e.request.link ≠ .forward label) ∨ k < e.slot ∨
      e.slot + (e.width a.table).bytes ≤ k) : out.code[e.start + k]? = e.bytes[k]? := by
  obtain ⟨-, -, rfl⟩ := waiting_of_finish h.accounted hf
  obtain ⟨f, hcode, hfill⟩ := h.code
  have hfits : ∀ e ∈ j.listing, e.Fits a.table := fun e he => (h.formed e he).fits
  rw [← Array.getElem?_toList, hcode]
  refine getElem?_render h.tiles hfits he hk (hslot.imp_left fun hplain => ?_)
  have hfilled := hfill e he
  generalize f e = d at hfilled ⊢
  cases hfilled with
  | plain | waiting | lost => rfl
  | resolved hlink => exact absurd hlink (hplain _)

/-- If a run ends with code being handed out, then each forward jump that was accepted was followed by
a successful binding of its label, and its first operand in that code is the distance from its first
byte to where the label was bound. All other bytes are as the instructions were encoded. -/
theorem forward_jumps_resolved (t : OpcodeTable) (options : Options) (calls : List Call)
    (out : Bytecode) (hsmall : (Assembler.new t options).StaysSmall calls)
    (hfinish : ((Assembler.new t options).after calls).finish = .ok out) :
    (∀ pre i label post, calls = pre ++ .jump i label :: post →
      let a := (Assembler.new t options).after pre
      a.blockClosed = false → (a.step (.jump i label)).1 = .ok .done →
      ∃ mid rest start size w ws, post = mid ++ .bind label :: rest ∧
        let b := a.after (.jump i label :: mid)
        (b.step (.bind label)).1 = .ok .done ∧
        t.instructionSize i.opcode i.scale = .ok size ∧
        (a.step (.jump i label)).2.offset = start + size ∧
        t.operandWidths i.opcode i.scale = .ok (w :: ws) ∧
        start ≤ b.offset ∧ operandAt out.code start i.opcode i.scale w = b.offset - start) ∧
    let j := (Assembler.new t options).journal calls
    Journal.Tiles out.code.size j.listing ∧
    ∀ e ∈ j.listing, e.Formed t ∧ ∀ k < e.bytes.length,
      ((∀ label, e.request.link ≠ .forward label) ∨ k < e.slot ∨
        e.slot + (e.width t).bytes ≤ k) → out.code[e.start + k]? = e.bytes[k]? := by
  have hend := spelled_journal t options hsmall
  have htable : ((Assembler.new t options).after calls).table = t :=
    table_after (spelled_new t options).consistent hsmall
  refine ⟨?_, ?_, ?_⟩
  · rintro pre i label post rfl a hopen hok
    obtain ⟨hpre, hpost⟩ := hsmall.append
    have hsame : a.table = t := table_after (spelled_new t options).consistent hpre
    rw [after_append] at hfinish
    have hjump := (spelled_journal t options hpre).exists_bind_of_jump hpost hfinish hopen hok
    rw [hsame] at hjump
    exact hjump
  · obtain ⟨-, -, rfl⟩ := waiting_of_finish hend.accounted hfinish
    exact hend.tiles
  · intro e he
    have hformed := hend.formed e he
    have hbytes := fun k => hend.getElem?_of_finish hfinish he (k := k)
    rw [htable] at hformed hbytes
    exact ⟨hformed, hbytes⟩

/-- A jump over one instruction. -/
def skipOne : List Call :=
  [.newLabel, .write (.bare .ldaZero .single []), .jump (.bare .jumpIfTrue .double [0]) 0,
   .write (.bare .ldaSmi .single [7]), .bind 0, .write (.bare .ret .single [])]

theorem forward_jumps_resolved_skipOne :
    ∃ out, ((Assembler.new .standard default).after skipOne).finish = .ok out ∧
      (Assembler.new .standard default).StaysSmall skipOne ∧
      out.code = #[16, 0, 82, 0, 6, 17, 7, 96] ∧
      ∀ e ∈ ((Assembler.new .standard default).journal skipOne).listing, e.Formed .standard := by
  refine ⟨⟨#[16, 0, 82, 0, 6, 17, 7, 96], ⟨#[]⟩⟩, by decide, by decide, rfl, fun e he => ?_⟩
  have hresolved := forward_jumps_resolved .standard default skipOne _ (by decide) rfl
  exact (hresolved.2.2 e he).1

end Assembler
end BytecodeAssembler
