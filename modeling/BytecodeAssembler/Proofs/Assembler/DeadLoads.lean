import Mathlib.Data.List.Chain
import BytecodeAssembler.Proofs.Assembler.Positions

/-! # Which dead loads are left

A load that is retracted leaves two instructions next to each other that are never compared: the one
before it and the one that took its place. In a table in which every pure load overwrites the
accumulator no dead load is missed for that. The one before it was compared with the load and stayed,
so if it is a load itself both have a position, and what takes the place of the load takes over its
position.
-/
namespace BytecodeAssembler

theorem OpcodeTable.standard_overwrites {o : Opcode} (h : o.isPureLoad) : standard.overwrites o := by
  cases o <;> first | rfl | cases h

namespace Assembler

namespace Lineage
variable {t : OpcodeTable}

/-- If the second is a load that the first overwrites unread, each of them has a position. -/
def Apart (t : OpcodeTable) (m l : Lineage) : Prop :=
  l.instruction.opcode.isPureLoad → t.overwrites m.instruction.opcode →
    l.hasPosition ∧ m.hasPosition

theorem apart_of_not_yields {l : Lineage} {next : Instruction} (h : ¬l.yields t true next) :
    Apart t ⟨next, []⟩ l := by
  intro hload hover
  have hboth : (l.hasPosition && next.source.isPresent) = true := by
    simpa [yields, hload, hover] using h
  obtain ⟨hl, hnext⟩ := Bool.and_eq_true_iff.mp hboth
  exact ⟨hl, by simpa [hasPosition, members] using hnext⟩

theorem Apart.replace {l m : Lineage} (h : Apart t m l) (hover : t.overwrites m.instruction.opcode)
    (next : Instruction) : Apart t ⟨next, m.members⟩ l := by
  intro hload _
  obtain ⟨hl, hm⟩ := h hload hover
  refine ⟨hl, ?_⟩
  rw [hasPosition, members, List.any_append, Bool.or_eq_true]
  exact .inl hm

/-- One more instruction leaves no dead load behind, also where it retracts one. -/
theorem isChain_apart_extend (hloads : ∀ {o : Opcode}, o.isPureLoad → t.overwrites o)
    (next : Instruction) {ls : List Lineage} (h : ls.IsChain (Apart t)) :
    (extend t true next ls).IsChain (Apart t) := by
  cases ls with
  | nil => exact .singleton _
  | cons m ls =>
    rw [extend]
    split
    next hyields =>
      -- what stands before the load that goes was compared with it, for every load overwrites
      have hover : t.overwrites m.instruction.opcode := by
        simp only [yields, Bool.and_eq_true] at hyields
        exact hloads hyields.2.1.1
      rw [List.isChain_cons] at h ⊢
      exact ⟨fun l hl => (h.1 l hl).replace hover next, h.2⟩
    next hstays => exact .cons_cons (apart_of_not_yields hstays) h

end Lineage

theorem Block.isChain_apart {t : OpcodeTable} (hloads : ∀ {o : Opcode}, o.isPureLoad → t.overwrites o)
    (b : Block) : (b.lineages t true).IsChain (Lineage.Apart t) := by
  obtain ⟨accepted, kept⟩ := b
  induction accepted with
  | nil => exact .nil
  | cons i accepted ih =>
    rw [Block.lineages_cons i accepted kept kept]
    exact Lineage.isChain_apart_extend hloads i ih

/-- Without the hypothesis a dead load can be left: the second of these loads does not overwrite and
keeps the first one in place, and is then retracted itself. -/
example :
    let t : OpcodeTable := ⟨[⟨.wide, .none, []⟩, ⟨.extraWide, .none, []⟩, ⟨.ldaZero, .write, []⟩,
      ⟨.ldaTrue, .none, []⟩, ⟨.ldaFalse, .write, []⟩], by decide⟩
    let loads := [Opcode.ldaZero, .ldaTrue, .ldaFalse].map (Instruction.bare · .single [])
    (t.lineages true loads).map (·.instruction.opcode) = [.ldaZero, .ldaFalse] := by
  decide

/-- Where one of the instructions ends at the start of another, the two stand side by side. -/
theorem exists_consecutive {es : List Placed} (h : es.Pairwise fun d e => e.stop ≤ d.start)
    (hpos : ∀ e ∈ es, e.start < e.stop) {d e : Placed} (hd : d ∈ es) (he : e ∈ es)
    (hadjacent : d.stop = e.start) : ∃ front behind, es = front ++ e :: d :: behind := by
  induction es with
  | nil => cases hd
  | cons x es ih =>
    obtain ⟨hx, hrest⟩ := List.pairwise_cons.mp h
    have hdpos := hpos d hd
    have hepos := hpos e he
    rcases List.mem_cons.mp he with rfl | he'
    · have hd : d ∈ es := (List.mem_cons.mp hd).resolve_left fun hde => by
        rw [hde] at hadjacent
        omega
      cases es with
      | nil => cases hd
      | cons y es =>
        rcases List.mem_cons.mp hd with rfl | hd
        · exact ⟨[], es, rfl⟩
        · -- then `y` lies between the two
          have hy := hx y List.mem_cons_self
          have hypos := hpos y (by simp)
          have hdy := (List.pairwise_cons.mp hrest).1 d hd
          omega
    · rcases List.mem_cons.mp hd with rfl | hd
      · have hed := hx e he'
        omega
      · obtain ⟨front, behind, rfl⟩ := ih hrest (fun z hz => hpos z (List.mem_cons_of_mem _ hz)) hd he'
        exact ⟨x :: front, behind, rfl⟩

variable {a : Assembler} {j : Journal}

theorem Traced.apart (h : Traced a j) (helide : a.options.elideDeadLoads = true)
    (hloads : ∀ {o : Opcode}, o.isPureLoad → a.table.overwrites o) {k : Block} (hk : k ∈ j)
    {d e : Placed} (hd : d ∈ k.kept) (he : e ∈ k.kept) (hadjacent : d.stop = e.start) :
    ∃ l m, (l, d) ∈ j.traces a.table a.options.elideDeadLoads ∧
      (m, e) ∈ j.traces a.table a.options.elideDeadLoads ∧ Lineage.Apart a.table m l := by
  have hpairwise := (List.pairwise_flatMap.mp h.tiles.pairwise_stop_le).1 k hk
  obtain ⟨front, behind, hkept⟩ := exists_consecutive hpairwise
    (fun e he => h.tiles.start_lt (List.mem_flatMap.mpr ⟨k, hk, he⟩)) hd he hadjacent
  obtain ⟨hfst, hsnd⟩ := h.fst_zip hk
  have hchain := k.isChain_apart hloads
  rw [← helide, ← hfst, List.isChain_map] at hchain
  rw [hkept] at hsnd
  obtain ⟨ps, ps₁, hzip, -, hps₁⟩ := List.map_eq_append_iff.mp hsnd
  obtain ⟨⟨m, _⟩, ps₂, hcons₁, hm, hps₂⟩ := List.map_eq_cons_iff.mp hps₁
  obtain ⟨⟨l, _⟩, ps₃, hcons₂, hl, -⟩ := List.map_eq_cons_iff.mp hps₂
  cases hm
  cases hl
  rw [← hkept, hcons₁, hcons₂] at hzip
  rw [hzip] at hchain
  refine ⟨l, m, List.mem_flatMap.mpr ⟨k, hk, ?_⟩, List.mem_flatMap.mpr ⟨k, hk, ?_⟩, ?_⟩
  · simp [hzip]
  · simp [hzip]
  · exact (List.isChain_append_cons_cons.mp hchain).2.1

/-- An instruction that has a position, its own or one it took over, has an entry at its start. -/
theorem Located.exists_entry (h : Located a j) (hsize : a.code.size < UInt32.size) {l : Lineage}
    {d : Placed} (hp : (l, d) ∈ j.traces a.table a.options.elideDeadLoads)
    (hposition : l.hasPosition) : ∃ e ∈ a.log.table.entries, e.offset.toNat = d.start := by
  obtain ⟨i, hi, hpresent⟩ := List.any_eq_true.mp hposition
  rw [← SourceInfo.isSome_entryAt? i.source d.start] at hpresent
  obtain ⟨e, he⟩ := Option.isSome_iff_exists.mp hpresent
  have hmem : e ∈ l.entriesAt d.start := List.mem_filterMap.mpr ⟨i, hi, he⟩
  have hentries : e ∈ a.log.entries.toList := by
    rw [h.entries]
    exact List.mem_flatMap.mpr ⟨(l, d), List.mem_reverse.mpr hp, hmem⟩
  exact ⟨e, Array.mem_toList_iff.mp hentries, (h.toNat_offset hsize hp hmem).1⟩

/-- After any run with the standard table that retracts dead loads and keeps positions, a pure load is
followed within its block by an instruction that overwrites the accumulator unread only if the source
map has an entry at the start of each of the two. -/
theorem dead_loads_keep_positions_apart (calls : List Call)
    (hsmall : (Assembler.new .standard ⟨true, .record⟩).StaysSmall calls) :
    let a := (Assembler.new .standard ⟨true, .record⟩).after calls
    let j := (Assembler.new .standard ⟨true, .record⟩).journal calls
    Journal.Tiles a.code.size j.listing ∧
    (∀ e ∈ j.listing, e.Formed .standard) ∧
    (∃ distance, a.code.toList = render .standard distance j.listing) ∧
    ∀ b ∈ j, ∀ d ∈ b.kept, ∀ e ∈ b.kept, d.stop = e.start →
      d.instruction.opcode.isPureLoad →
      OpcodeTable.standard.accumulatorUse e.instruction.opcode = .ok .write →
      (∃ p ∈ a.log.table.entries, p.offset.toNat = d.start) ∧
      ∃ p ∈ a.log.table.entries, p.offset.toNat = e.start := by
  intro a j
  obtain ⟨htable, hoptions, h⟩ : a.table = .standard ∧ a.options = ⟨true, .record⟩ ∧ Located a j :=
    journal_invariant
      (P := fun a j => a.table = .standard ∧ a.options = ⟨true, .record⟩ ∧ Located a j)
      (fun h => h.2.2.consistent)
      (fun h he => ⟨he.table.trans h.1, he.options.trans h.2.1, h.2.2.note he⟩) calls
      ⟨rfl, rfl, located_new .standard true⟩ hsmall
  have hsize : a.code.size < UInt32.size := hsmall.size_after
  have helide : a.options.elideDeadLoads = true := by rw [hoptions]
  have hspelled : Spelled a j := spelled_journal .standard ⟨true, .record⟩ hsmall
  obtain ⟨distance, hcode, -⟩ := hspelled.code
  rw [htable] at hcode
  refine ⟨h.tiles, htable ▸ hspelled.formed, ⟨distance, hcode⟩, ?_⟩
  intro b hb d hd e he hadjacent hload hwrite
  have hloads : ∀ {o : Opcode}, o.isPureLoad → a.table.overwrites o := by
    rw [htable]
    exact OpcodeTable.standard_overwrites
  obtain ⟨l, m, hl, hm, happart⟩ := h.apart helide hloads hb hd he hadjacent
  have hlinst : l.instruction = d.instruction := h.instruction_eq hl
  have hminst : m.instruction = e.instruction := h.instruction_eq hm
  rw [Lineage.Apart, hlinst, hminst, htable, OpcodeTable.overwrites_iff] at happart
  obtain ⟨hlpos, hmpos⟩ := happart hload hwrite
  exact ⟨h.exists_entry hsize hl hlpos, h.exists_entry hsize hm hmpos⟩

/-- Three loads, of which the last one takes the place of the one before. -/
def replacedLoad : List Call :=
  [.write ((Instruction.bare .ldaSmi .single [1]).withSource (.statement 4)),
   .write ((Instruction.bare .ldaFalse .single []).withSource (.expression 20)),
   .write (.bare .ldaNull .single [])]

/-- The two loads that are left were not compared when the last one was written. -/
theorem dead_loads_keep_positions_apart_replacedLoad :
    let s := Assembler.new .standard ⟨true, .record⟩
    let smi : Placed :=
      ⟨⟨(Instruction.bare .ldaSmi .single [1]).withSource (.statement 4), .free⟩, 0, [17, 1]⟩
    let null : Placed := ⟨⟨.bare .ldaNull .single [], .free⟩, 2, [19]⟩
    s.StaysSmall replacedLoad ∧
    (∃ b ∈ s.journal replacedLoad, b.kept = [null, smi]) ∧
    smi.stop = null.start ∧ smi.instruction.opcode.isPureLoad ∧
    OpcodeTable.standard.accumulatorUse null.instruction.opcode = .ok .write ∧
    (∃ p ∈ (s.after replacedLoad).log.table.entries, p.offset.toNat = smi.start) ∧
    ∃ p ∈ (s.after replacedLoad).log.table.entries, p.offset.toNat = null.start := by
  intro s smi null
  have hsmall : s.StaysSmall replacedLoad := by decide
  have hkept : ∃ b ∈ s.journal replacedLoad, b.kept = [null, smi] := by decide
  have hadjacent : smi.stop = null.start := rfl
  have hload : smi.instruction.opcode.isPureLoad := rfl
  have hwrite : OpcodeTable.standard.accumulatorUse null.instruction.opcode = .ok .write := by decide
  obtain ⟨-, -, -, hblocks⟩ := dead_loads_keep_positions_apart replacedLoad hsmall
  obtain ⟨b, hb, hlist⟩ := hkept
  have hentries := hblocks b hb smi (by simp [hlist]) null (by simp [hlist]) hadjacent hload hwrite
  exact ⟨hsmall, ⟨b, hb, hlist⟩, hadjacent, hload, hwrite, hentries⟩

end Assembler
end BytecodeAssembler
