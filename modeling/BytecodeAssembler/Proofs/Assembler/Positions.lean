import BytecodeAssembler.Proofs.Assembler.Lineage

/-! # Positions follow their instructions

The log holds the position of every instruction that was accepted with one, in the order of writing.
An entry lies at the start of its instruction, or of the one that took its place: a load gives its
position to the instruction that replaces it, and never to one that has a position already. So no
two entries share an offset.
-/
namespace BytecodeAssembler

/-- The position that an instruction with this source is written with. -/
def SourceInfo.stamp? (s : SourceInfo) : Option SourcePosition :=
  s.position?.map fun p => ⟨p, s.isStatement⟩

def PositionEntry.stamp (e : PositionEntry) : SourcePosition := ⟨e.position, e.isStatement⟩

/-- What is recorded of an instruction that starts at the offset. -/
def SourceInfo.entryAt? (s : SourceInfo) (offset : Nat) : Option PositionEntry :=
  s.stamp?.map fun p => ⟨.ofNat offset, p.position, p.isStatement⟩

theorem SourceInfo.isSome_entryAt? (s : SourceInfo) (offset : Nat) :
    (s.entryAt? offset).isSome = s.isPresent := by
  simp [entryAt?, stamp?, isPresent]

theorem PositionLog.mode_note (log : PositionLog) (offset : Nat) (source : SourceInfo) :
    (log.note offset source).mode = log.mode := by
  unfold note push
  cases source.position? with
  | none => rfl
  | some p => cases hm : log.mode <;> simp [hm]

theorem PositionLog.toList_note {log : PositionLog} (hm : log.mode = .record) (offset : Nat)
    (source : SourceInfo) : (log.note offset source).entries.toList =
      log.entries.toList ++ (source.entryAt? offset).toList := by
  unfold note SourceInfo.entryAt? SourceInfo.stamp?
  cases source.position? with
  | none => simp
  | some p => simp [push, hm]

namespace Assembler

namespace Lineage
variable {t : OpcodeTable} {elide : Bool}

theorem countP_isPresent_le_one {l m : Lineage} {is : List Instruction}
    (hl : l.members.countP (·.source.isPresent) ≤ 1) (hm : m ∈ follow t elide l is) :
    m.members.countP (·.source.isPresent) ≤ 1 := by
  induction is generalizing l with
  | nil =>
    obtain rfl := List.mem_singleton.mp hm
    exact hl
  | cons i is ih =>
    rw [follow] at hm
    split at hm
    next hyields =>
      refine ih ?_ hm
      -- of the load and the instruction that replaces it only one has a position
      simp only [yields, Bool.and_eq_true, Bool.not_eq_true', Bool.and_eq_false_iff] at hyields
      have hcount : (Lineage.members ⟨i, l.members⟩).countP (·.source.isPresent) =
          l.members.countP (·.source.isPresent) + [i].countP (·.source.isPresent) :=
        List.countP_append
      rcases hyields.2.2 with hnone | hnone
      · have hzero : l.members.countP (·.source.isPresent) = 0 := by
          simpa [hasPosition, List.countP_eq_zero] using hnone
        have hone := List.countP_le_length (p := fun i : Instruction => i.source.isPresent) (l := [i])
        simp only [List.length_singleton] at hone
        omega
      · have hzero : [i].countP (·.source.isPresent) = 0 := by simp [hnone]
        omega
    next =>
      rcases List.mem_cons.mp hm with rfl | hm
      · exact hl
      · refine ih ?_ hm
        exact List.countP_le_length

/-- What is recorded for an instruction that starts at the offset and those it took the place of. -/
def entriesAt (l : Lineage) (offset : Nat) : List PositionEntry :=
  l.members.filterMap (·.source.entryAt? offset)

theorem length_entriesAt_le {l : Lineage} {is : List Instruction} (h : l ∈ t.lineages elide is)
    (offset : Nat) : (l.entriesAt offset).length ≤ 1 := by
  have hcount : l.members.countP (·.source.isPresent) ≤ 1 := by
    cases is with
    | nil => cases h
    | cons i is => exact countP_isPresent_le_one List.countP_le_length h
  rw [entriesAt, List.length_filterMap_eq_countP]
  simpa only [SourceInfo.isSome_entryAt?] using hcount

end Lineage

variable {a b : Assembler} {c : Call} {r : Except AssemblyError Reply} {j : Journal}

/-- The instructions in the code, the last one first, each with those it took the place of. -/
def Journal.traces (t : OpcodeTable) (elide : Bool) (j : Journal) : List (Lineage × Placed) :=
  j.flatMap fun b => (b.lineages t elide).zip b.kept

/-- The log has the entries of the instructions in the code, first to last. -/
structure Located (a : Assembler) (j : Journal) : Prop extends Traced a j where
  mode : a.log.mode = .record
  entries : a.log.entries.toList =
    (j.traces a.table a.options.elideDeadLoads).reverse.flatMap fun p => p.1.entriesAt p.2.start

theorem Lineage.entriesAt_concat (i : Instruction) (is : List Instruction) (offset : Nat) :
    Lineage.entriesAt ⟨i, is⟩ offset =
      is.filterMap (·.source.entryAt? offset) ++ (i.source.entryAt? offset).toList := by
  rw [entriesAt, members, List.filterMap_append]
  cases h : i.source.entryAt? offset <;> simp [h]

theorem Grows.entries {x : Instruction} {e : Placed} {ls ls' : List Lineage}
    {es es' : List Placed} (h : Grows a x e ls es ls' es') :
    ((ls'.zip es').reverse.flatMap fun p => p.1.entriesAt p.2.start) =
      ((ls.zip es).reverse.flatMap fun p => p.1.entriesAt p.2.start) ++
        (e.instruction.source.entryAt? e.start).toList := by
  cases h with
  | behind => simp [Lineage.entriesAt_concat]
  | inPlace hstart =>
    simp only [List.zip_cons_cons, List.reverse_cons, List.flatMap_append, List.flatMap_singleton,
      Lineage.entriesAt_concat e.instruction, List.append_assoc, hstart]
    rfl

theorem Located.writes {q : Request} {x : Instruction} {bytes : List UInt8} (h : Located a j)
    (hw : Writes a c r b q x bytes) (htraced : Traced b (j.note a b c r))
    (hoptions : b.options = a.options) : Located b (j.note a b c r) := by
  obtain ⟨accepted, kept, kept', bs, rfl, hplace, hgrows⟩ :=
    h.grows (e := ⟨q, a.startOf x, bytes⟩) hw.encodes rfl
  have hmode : b.log.mode = .record := by
    rw [hw.log]
    exact (PositionLog.mode_note ..).trans h.mode
  have hlog : b.log.entries.toList =
      a.log.entries.toList ++ (x.source.entryAt? (a.startOf x)).toList := by
    rw [hw.log]
    exact PositionLog.toList_note h.mode ..
  refine { htraced with mode := hmode, entries := ?_ }
  have hentries := hgrows.entries
  rw [hlog, h.entries, hw.note h.consistent, hplace, hw.table, hoptions]
  simp only [Journal.traces, List.flatMap_cons, List.reverse_append, List.flatMap_append, hentries,
    hw.encodes.source, List.append_assoc]
  rfl

theorem Located.note (h : Located a j) (he : Effect a c r b) : Located b (j.note a b c r) := by
  have htraced := h.toTraced.note he
  rcases he.writes_or_rests j with ⟨q, x, bytes, hw⟩ | ⟨⟨-, hlog⟩, ⟨hnote, -⟩ | ⟨hnote, -⟩⟩
  · exact h.writes hw htraced he.options
  · refine { htraced with mode := ?_, entries := ?_ }
    · rw [hlog]
      exact h.mode
    · rw [hlog, hnote, he.table, he.options]
      exact h.entries
  · refine { htraced with mode := ?_, entries := ?_ }
    · rw [hlog]
      exact h.mode
    · rw [hlog, hnote, he.table, he.options]
      exact h.entries

theorem located_new (t : OpcodeTable) (elide : Bool) :
    Located (Assembler.new t ⟨elide, .record⟩) [⟨[], []⟩] where
  toTraced := traced_new t _
  mode := rfl
  entries := rfl

theorem Traced.fst_zip (h : Traced a j) {k : Block} (hk : k ∈ j) :
    ((k.lineages a.table a.options.elideDeadLoads).zip k.kept).map Prod.fst =
      k.lineages a.table a.options.elideDeadLoads ∧
    ((k.lineages a.table a.options.elideDeadLoads).zip k.kept).map Prod.snd = k.kept := by
  have hlength : k.kept.length = (k.lineages a.table a.options.elideDeadLoads).length := by
    simpa using congrArg List.length (h.left k hk)
  exact ⟨List.map_fst_zip hlength.ge, List.map_snd_zip hlength.le⟩

theorem Traced.map_snd_traces (h : Traced a j) :
    (j.traces a.table a.options.elideDeadLoads).map Prod.snd = j.listing := by
  rw [Journal.traces, List.map_flatMap]
  exact List.flatMap_congr fun k hk => (h.fst_zip hk).2

theorem Traced.members_traces (h : Traced a j) :
    (j.traces a.table a.options.elideDeadLoads).reverse.flatMap (·.1.members) =
      j.reverse.flatMap (·.written) := by
  rw [Journal.traces, List.reverse_flatMap, List.flatMap_assoc]
  refine List.flatMap_congr fun k hk => ?_
  have hfst := (h.fst_zip (List.mem_reverse.mp hk)).1
  calc _ = (((k.lineages a.table a.options.elideDeadLoads).zip k.kept).map Prod.fst).reverse.flatMap
        Lineage.members := by rw [← List.map_reverse, List.flatMap_map]; rfl
    _ = (a.table.lineages a.options.elideDeadLoads k.written).flatMap Lineage.members := by
      rw [hfst, Block.lineages, List.reverse_reverse]
    _ = k.written := a.table.flatMap_members_lineages _ _

theorem Traced.instruction_eq (h : Traced a j) {p : Lineage × Placed}
    (hp : p ∈ j.traces a.table a.options.elideDeadLoads) : p.1.instruction = p.2.instruction := by
  obtain ⟨k, hk, hp⟩ := List.mem_flatMap.mp hp
  obtain ⟨hfst, hsnd⟩ := h.fst_zip hk
  have hsame := (congrArg (List.map (·.instruction)) hsnd).trans
    ((h.left k hk).trans (congrArg (List.map (·.instruction)) hfst).symm)
  rw [List.map_map, List.map_map] at hsame
  exact (List.map_inj_left.mp hsame p hp).symm

namespace Lineage

theorem offset_of_mem_entriesAt {l : Lineage} {offset : Nat} {e : PositionEntry}
    (h : e ∈ l.entriesAt offset) : e.offset = .ofNat offset := by
  obtain ⟨i, -, hi⟩ := List.mem_filterMap.mp h
  obtain ⟨p, -, rfl⟩ := Option.map_eq_some_iff.mp hi
  rfl

theorem map_stamp_entriesAt (l : Lineage) (offset : Nat) :
    (l.entriesAt offset).map PositionEntry.stamp = l.members.filterMap (·.source.stamp?) := by
  rw [entriesAt, List.map_filterMap]
  congr 1
  funext i
  rw [SourceInfo.entryAt?]
  cases i.source.stamp? <;> rfl

end Lineage

theorem Located.toNat_offset (h : Located a j) (hsize : a.code.size < UInt32.size)
    {p : Lineage × Placed} (hp : p ∈ j.traces a.table a.options.elideDeadLoads)
    {e : PositionEntry} (he : e ∈ p.1.entriesAt p.2.start) :
    e.offset.toNat = p.2.start ∧ p.2.start < a.code.size := by
  have hmem : p.2 ∈ j.listing := by
    rw [← h.map_snd_traces]
    exact List.mem_map_of_mem hp
  have hstart := h.tiles.start_lt hmem
  have hstop := h.tiles.stop_le hmem
  refine ⟨?_, by omega⟩
  rw [Lineage.offset_of_mem_entriesAt he]
  exact UInt32.toNat_ofNat_of_lt' (by omega)

/-- Instructions start one behind the other, and each has one entry at most. -/
theorem Located.pairwise_offset (h : Located a j) (hsize : a.code.size < UInt32.size) :
    a.log.entries.toList.Pairwise fun d e => d.offset < e.offset := by
  rw [h.entries, List.pairwise_flatMap]
  constructor
  · intro p hp
    obtain ⟨k, hk, hp⟩ := List.mem_flatMap.mp (List.mem_reverse.mp hp)
    have hlineage : p.1 ∈ a.table.lineages a.options.elideDeadLoads k.written :=
      List.mem_reverse.mp (List.of_mem_zip hp).1
    have hlength := Lineage.length_entriesAt_le hlineage p.2.start
    rcases hentries : p.1.entriesAt p.2.start with _ | ⟨d, _ | ⟨e, rest⟩⟩
    · exact .nil
    · exact List.pairwise_singleton ..
    · simp [hentries] at hlength
  · have htiles := h.tiles.pairwise
    rw [← h.map_snd_traces, List.pairwise_map] at htiles
    rw [List.pairwise_reverse]
    refine htiles.imp_of_mem fun {p q} hp hq hlt d hd e he => ?_
    rw [UInt32.lt_iff_toNat_lt, (h.toNat_offset hsize hq hd).1, (h.toNat_offset hsize hp he).1]
    exact hlt

theorem Located.map_stamp (h : Located a j) :
    a.log.entries.toList.map PositionEntry.stamp =
      (j.reverse.flatMap (·.written)).filterMap (·.source.stamp?) := by
  rw [h.entries, List.map_flatMap, ← h.members_traces, List.filterMap_flatMap]
  exact List.flatMap_congr fun p _ => p.1.map_stamp_entriesAt _

theorem Located.map_offset_stamp (h : Located a j) (hsize : a.code.size < UInt32.size) :
    a.log.entries.toList.map (fun e => (e.offset.toNat, e.stamp)) =
      (j.traces a.table a.options.elideDeadLoads).reverse.flatMap fun p =>
        (p.1.members.filterMap (·.source.stamp?)).map (p.2.start, ·) := by
  rw [h.entries, List.map_flatMap]
  refine List.flatMap_congr fun p hp => ?_
  rw [← p.1.map_stamp_entriesAt p.2.start, List.map_map]
  refine List.map_congr_left fun e he => ?_
  rw [Function.comp_apply, (h.toNat_offset hsize (List.mem_reverse.mp hp) he).1]

/-- After any run that keeps positions, the log holds the positions of the instructions that were
accepted with one, in the order of writing. Each lies at the start of the instruction in the code
that was written with it or took the place of the one that was, and no two lie at one offset. -/
theorem positions_follow_instructions (t : OpcodeTable) (elide : Bool) (calls : List Call)
    (hsmall : (Assembler.new t ⟨elide, .record⟩).StaysSmall calls) :
    let a := (Assembler.new t ⟨elide, .record⟩).after calls
    let j := (Assembler.new t ⟨elide, .record⟩).journal calls
    let entries := a.log.entries.toList
    entries.map PositionEntry.stamp =
      (j.reverse.flatMap (·.written)).filterMap (·.source.stamp?) ∧
    Journal.Tiles a.code.size j.listing ∧
    (∃ distance, a.code.toList = render t distance j.listing ∧
      ∀ e ∈ j.listing, (∀ label, e.request.link ≠ .forward label) → distance e = none) ∧
    (j.traces t elide).map Prod.snd = j.listing ∧
    (∀ p ∈ j.traces t elide, p.1.instruction = p.2.instruction) ∧
    (j.traces t elide).reverse.flatMap (·.1.members) = j.reverse.flatMap (·.written) ∧
    entries.map (fun e => (e.offset.toNat, e.stamp)) =
      (j.traces t elide).reverse.flatMap (fun p =>
        (p.1.members.filterMap (·.source.stamp?)).map (p.2.start, ·)) ∧
    entries.Pairwise (fun d e => d.offset < e.offset) ∧
    ∀ e ∈ entries, e.offset.toNat < a.offset := by
  intro a j entries
  obtain ⟨htable, hoptions, h⟩ : a.table = t ∧ a.options = ⟨elide, .record⟩ ∧ Located a j :=
    journal_invariant (P := fun a j => a.table = t ∧ a.options = ⟨elide, .record⟩ ∧ Located a j)
      (fun h => h.2.2.consistent)
      (fun h he => ⟨he.table.trans h.1, he.options.trans h.2.1, h.2.2.note he⟩) calls
      ⟨rfl, rfl, located_new t elide⟩ hsmall
  have hsize : a.code.size < UInt32.size := hsmall.size_after
  have helide : a.options.elideDeadLoads = elide := by rw [hoptions]
  have hspelled : Spelled a j := spelled_journal t ⟨elide, .record⟩ hsmall
  obtain ⟨distance, hcode, hfilled⟩ := hspelled.code
  rw [← htable, ← helide]
  refine ⟨h.map_stamp, h.tiles, ⟨distance, hcode, fun e he => (hfilled e he).eq_none⟩,
    h.map_snd_traces, fun p hp => h.instruction_eq hp, h.members_traces, h.map_offset_stamp hsize,
    h.pairwise_offset hsize, fun e he => ?_⟩
  have he : e ∈ a.log.entries.toList := he
  rw [h.entries] at he
  obtain ⟨p, hp, he⟩ := List.mem_flatMap.mp he
  obtain ⟨hoffset, hlt⟩ := h.toNat_offset hsize (List.mem_reverse.mp hp) he
  rw [hoffset]
  exact hlt

/-- A position that is taken over, and one that must stay apart from it. -/
def takenOver : List Call :=
  [.write (.bare .star .single [1]),
   .write ((Instruction.bare .ldaSmi .single [1]).withSource (.statement 4)),
   .write (.bare .ldaTrue .single []),
   .write ((Instruction.bare .ldaFalse .single []).withSource (.expression 20)),
   .write ((Instruction.bare .ret .single []).withSource (.statement 7)),
   .write ((Instruction.bare .nop .single []).withSource (.statement 8))]

theorem positions_follow_instructions_takenOver :
    (Assembler.new .standard ⟨true, .record⟩).StaysSmall takenOver ∧
    ((Assembler.new .standard ⟨true, .record⟩).after takenOver).code = #[32, 1, 21, 22, 96] ∧
    ((Assembler.new .standard ⟨true, .record⟩).after takenOver).log.entries =
      #[⟨2, 4, true⟩, ⟨3, 20, false⟩, ⟨4, 7, true⟩] ∧
    (((Assembler.new .standard ⟨true, .record⟩).journal takenOver).reverse.flatMap
      (·.written)).filterMap (·.source.stamp?) = [⟨4, true⟩, ⟨20, false⟩, ⟨7, true⟩] := by
  have hsmall : (Assembler.new .standard ⟨true, .record⟩).StaysSmall takenOver := by decide
  obtain ⟨hstamps, -⟩ := positions_follow_instructions .standard true takenOver hsmall
  exact ⟨hsmall, by decide, by decide, hstamps.symm⟩

end Assembler
end BytecodeAssembler
