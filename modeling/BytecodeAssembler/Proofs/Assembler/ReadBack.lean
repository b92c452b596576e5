import BytecodeAssembler.Proofs.Assembler.Lineage
import BytecodeAssembler.Proofs.Disassembly
import Mathlib.Data.List.Forall2

/-! # The code reads back as its instructions

Disassembling the code gives the instructions that are left, in the order they were written, each
with its scale and its operands. Only the first operand of a jump is another than was asked for: it
is the distance. Resolving a jump replaces that operand at its width, so the boundaries stay.
-/
namespace BytecodeAssembler.Assembler

/-- What is read is what was asked for, up to the distance of a jump. -/
structure Request.Reads (d : Disassembled) (q : Request) : Prop where
  opcode : d.opcode = q.instruction.opcode
  scale : d.scale = q.instruction.scale
  count : d.operands.length = q.instruction.operands.length
  operands : ∀ k, q.link = .free ∨ 0 < k → d.operands[k]? = q.instruction.operands[k]?

theorem Request.Encodes.reads {q : Request} {x : Instruction} (h : q.Encodes x) :
    q.Reads ⟨x.opcode, x.scale, x.operands⟩ := by
  cases h with
  | free => exact ⟨rfl, rfl, rfl, fun _ _ => rfl⟩
  | forward _ _ hx | back _ _ _ hx =>
    obtain ⟨hopcode, hscale, -, hoperands⟩ := Instruction.setOperand_zero hx
    refine ⟨hopcode, hscale, Instruction.length_setOperand hx, fun k hk => ?_⟩
    have hpos : 0 < k := hk.resolve_left (by simp)
    obtain ⟨n, rfl⟩ := Nat.exists_eq_succ_of_ne_zero hpos.ne'
    simp [hoperands]

theorem Request.Reads.of_tail {q : Request} {o : Opcode} {s : Scale} {u v : UInt32}
    {vs : List UInt32} (h : q.Reads ⟨o, s, v :: vs⟩) (hlink : q.link ≠ .free) :
    q.Reads ⟨o, s, u :: vs⟩ := by
  refine ⟨h.opcode, h.scale, h.count, fun k hk => ?_⟩
  have hpos : 0 < k := hk.resolve_left hlink
  rw [← h.operands k hk]
  obtain ⟨n, rfl⟩ := Nat.exists_eq_succ_of_ne_zero hpos.ne'
  simp

namespace Placed
variable {t : OpcodeTable} {e : Placed}

theorem Formed.readNext_bytes (h : e.Formed t)
    (hplain : e.instruction.opcode.isScalePrefix = false) :
    ∃ d, e.request.Reads d ∧ ∀ tail,
      Disassembled.readNext t (e.bytes ++ tail) = some (d, tail) := by
  obtain ⟨x, hx, hb⟩ := h
  rw [instruction, ← hx.same.1] at hplain
  exact ⟨_, hx.reads, Disassembled.readNext_encode hplain hb⟩

/-- A jump whose distance was filled in is still read as the jump it is. -/
theorem Formed.readNext_image (h : e.Formed t)
    (hplain : e.instruction.opcode.isScalePrefix = false) (hlink : e.request.link ≠ .free)
    (distance : Nat) :
    ∃ d, e.request.Reads d ∧ ∀ tail,
      Disassembled.readNext t (e.image t (some distance) ++ tail) = some (d, tail) := by
  obtain ⟨x, hx, hb⟩ := h
  obtain ⟨hopcode, hscale⟩ := hx.same
  rw [instruction, ← hopcode] at hplain
  obtain ⟨v, vs, hv⟩ := hx.exists_cons hlink
  obtain ⟨w, ws, _, hw, -⟩ := Instruction.encode_first hv hb
  have hwidth : e.width t = w := width_eq hx hw
  have hslot : e.slot = (Instruction.header x.opcode x.scale).length := by
    rw [slot, instruction, hopcode, hscale]
  obtain ⟨u, hread⟩ := Disassembled.readNext_patched hplain hb hv hw
    (BigEndian.length_encode w.bytes distance)
  have hreads := hx.reads
  rw [hv] at hreads
  refine ⟨_, hreads.of_tail (u := u) hlink, fun tail => ?_⟩
  rw [image, hwidth, hslot]
  exact hread tail

end Placed

theorem render_eq_flatMap (t : OpcodeTable) (f : Placed → Option Nat) (es : List Placed) :
    render t f es = es.reverse.flatMap fun e => e.image t (f e) := by
  induction es with
  | nil => rfl
  | cons e es ih => simp [render, ih]

variable {a b : Assembler} {c : Call} {r : Except AssemblyError Reply} {j : Journal}

theorem Journal.mem_listing_trim {n : Nat} {e : Placed} (h : e ∈ (j.trim n).listing) :
    e ∈ j.listing := by
  obtain ⟨k, hk, he⟩ := List.mem_flatMap.mp h
  obtain ⟨k', hk', rfl⟩ := List.mem_map.mp hk
  exact List.mem_flatMap.mpr ⟨k', hk', (List.mem_filter.mp he).1⟩

theorem Journal.mem_listing_note {e : Placed} (h : e ∈ (j.note a b c r).listing) :
    e ∈ j.listing ∨ c.request? = some e.request := by
  unfold Journal.note at h
  split at h
  · exact .inl h
  · split at h
    next q hq =>
      split at h
      · exact .inl h
      · unfold place at h
        split at h
        next => simp [listing] at h
        next k ks htrim =>
          rcases List.mem_cons.mp h with rfl | h
          · exact .inr hq
          · exact .inl (mem_listing_trim (by rw [htrim]; exact h))
    next =>
      split at h
      · exact .inl h
      · exact .inl h

theorem Call.eq_write_of_request? {q : Request} (h : c.request? = some q) (hlink : q.link = .free) :
    c = .write q.instruction := by
  cases c with
  | write i =>
    cases h
    rfl
  | jump | loop =>
    cases h
    cases hlink
  | newLabel | bind | startBlock => cases h

/-- What is in the code was asked for by a call. -/
theorem Journal.exists_call_of_mem {calls : List Call} {e : Placed}
    (h : e ∈ (a.journalFrom j calls).listing) :
    e ∈ j.listing ∨ ∃ c ∈ calls, c.request? = some e.request := by
  induction calls generalizing a j with
  | nil => exact .inl h
  | cons c calls ih =>
    rcases ih h with h | ⟨c', hc, hq⟩
    · rcases mem_listing_note h with h | hq
      · exact .inl h
      · exact .inr ⟨c, List.mem_cons_self, hq⟩
    · exact .inr ⟨c', List.mem_cons_of_mem _ hc, hq⟩

theorem Request.Encodes.isScalePrefix_eq_false {q : Request} {x : Instruction} (h : q.Encodes x)
    (hlink : q.link ≠ .free) : q.instruction.opcode.isScalePrefix = false := by
  cases h with
  | free => exact absurd rfl hlink
  | @forward i _ _ ho =>
    cases hop : i.opcode <;> simp_all [Opcode.isScalePrefix, Opcode.isForwardJump]
  | back _ _ ho =>
    show Opcode.isScalePrefix _ = false
    rw [ho]
    rfl

theorem Spelled.readAll (h : Spelled a j)
    (hplain : ∀ e ∈ j.listing, e.instruction.opcode.isScalePrefix = false) :
    ∃ ds, Disassembled.readAll a.table a.code.toList = some ds ∧
      List.Forall₂ (fun d (e : Placed) => e.request.Reads d) ds j.listing.reverse := by
  obtain ⟨f, hcode, hfill⟩ := h.code
  rw [hcode, render_eq_flatMap]
  apply Disassembled.readAll_flatMap
  intro e he
  have he : e ∈ j.listing := List.mem_reverse.mp he
  have hfilled := hfill e he
  generalize f e = distance at hfilled
  cases hfilled with
  | plain | waiting | lost => exact (h.formed e he).readNext_bytes (hplain e he)
  | resolved hlink => exact (h.formed e he).readNext_image (hplain e he) (by simp [hlink]) _

/-- After any run in which no scale prefix was written as an instruction of its own, disassembling the
code consumes it and gives its instructions in the order they were written. These are, block by
block, the accepted instructions less the dead loads. -/
theorem code_reads_back (t : OpcodeTable) (options : Options) (calls : List Call)
    (hsmall : (Assembler.new t options).StaysSmall calls)
    (hplain : ∀ i, .write i ∈ calls → i.opcode.isScalePrefix = false) :
    let a := (Assembler.new t options).after calls
    let j := (Assembler.new t options).journal calls
    (∃ ds, Disassembled.readAll t a.code.toList = some ds ∧
      List.Forall₂ (fun d (e : Placed) => e.request.Reads d) ds j.listing.reverse) ∧
    j.listing.reverse.map (·.instruction) = j.reverse.flatMap fun b =>
      (t.lineages options.elideDeadLoads b.written).map (·.instruction) := by
  intro a j
  have hspelled : Spelled a j := spelled_journal t options hsmall
  have htable : a.table = t := table_after (spelled_new t options).consistent hsmall
  constructor
  · rw [← htable]
    apply hspelled.readAll
    intro e he
    by_cases hlink : e.request.link = .free
    · rcases Journal.exists_call_of_mem he with hnil | ⟨c, hc, hq⟩
      · simp [Journal.listing] at hnil
      · have hwrite := Call.eq_write_of_request? hq hlink
        exact hplain e.instruction (hwrite ▸ hc)
    · obtain ⟨x, hx, -⟩ := hspelled.formed e he
      exact hx.isScalePrefix_eq_false hlink
  · have hblocks : ∀ b ∈ j.reverse, b.remaining =
        (t.lineages options.elideDeadLoads b.written).map (·.instruction) :=
      fun b hb => remaining_eq_lineages t options hsmall (List.mem_reverse.mp hb)
    rw [Journal.listing, List.reverse_flatMap, List.map_flatMap]
    exact List.flatMap_congr fun b hb => by
      rw [← hblocks b hb, Block.remaining, Function.comp_apply, List.map_reverse]

/-- A negative operand, a wide load that goes with its prefix, and a jump. -/
def wideAndNegative : List Call :=
  [.newLabel, .write (.bare .ldaSmi .double [4294966996]), .write (.bare .star .single [5]),
   .write ((Instruction.bare .ldaConstant .quad [70000]).withSource (.statement 4)),
   .write (.bare .ldaTrue .single []), .jump (.bare .jumpIfFalse .double [9]) 0,
   .write (.bare .ret .single []), .write (.bare .nop .single []), .bind 0,
   .write (.bare .callRuntime .single [513, 1, 2])]

theorem code_reads_back_wideAndNegative :
    (Assembler.new .standard default).StaysSmall wideAndNegative ∧
    (∀ i, .write i ∈ wideAndNegative → i.opcode.isScalePrefix = false) ∧
    ((Assembler.new .standard default).after wideAndNegative).code =
      #[0, 17, 254, 212, 32, 5, 21, 0, 83, 0, 5, 96, 65, 2, 1, 1, 2] ∧
    ∃ ds, Disassembled.readAll .standard
        [0, 17, 254, 212, 32, 5, 21, 0, 83, 0, 5, 96, 65, 2, 1, 1, 2] = some ds ∧
      ds.map (·.opcode) = [.ldaSmi, .star, .ldaTrue, .jumpIfFalse, .ret, .callRuntime] := by
  have hsmall : (Assembler.new .standard default).StaysSmall wideAndNegative := by decide
  have hplain : ∀ i, .write i ∈ wideAndNegative → i.opcode.isScalePrefix = false := by
    intro i hi
    simp only [wideAndNegative, List.mem_cons, List.not_mem_nil, Call.write.injEq, reduceCtorEq,
      false_or, or_false] at hi
    rcases hi with rfl | rfl | rfl | rfl | rfl | rfl | rfl <;> rfl
  obtain ⟨⟨ds, hread, hall⟩, -⟩ := code_reads_back .standard default wideAndNegative hsmall hplain
  refine ⟨hsmall, hplain, by decide, ds, hread, ?_⟩
  have hopcodes : List.Forall₂ (· = ·) (ds.map (·.opcode))
      (((Assembler.new .standard default).journal wideAndNegative).listing.reverse.map
        (·.instruction.opcode)) := by
    rw [List.forall₂_map_left_iff, List.forall₂_map_right_iff]
    exact hall.imp fun _ _ h => h.opcode
  rw [List.forall₂_eq_eq_eq] at hopcodes
  rw [hopcodes]
  decide

end BytecodeAssembler.Assembler
