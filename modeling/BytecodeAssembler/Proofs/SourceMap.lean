import BytecodeAssembler.SourceMap

/-! # What a source map keeps and finds

A recording log takes an offer exactly if its offset does not fall behind the one kept last.
`Recorded` states this rule along the offers alone, and the log follows it. So its entries are ordered,
and on an ordered table halving finds what going through the entries from the last one on would find:
`find?_eq_lastAtMost?`.
-/
namespace BytecodeAssembler

namespace PositionTable
variable {t : PositionTable} {o : UInt32} {e : PositionEntry} {test : Nat → Bool}

/-- No entry starts in front of an earlier one. -/
def Ordered (t : PositionTable) : Prop := t.entries.toList.Pairwise fun d e => d.offset ≤ e.offset

theorem startsBy_iff {index : Nat} :
    t.startsBy o index ↔ ∃ e, t.entries[index]? = some e ∧ e.offset ≤ o := by
  simp [startsBy, Option.any_eq_true]

/-- In an ordered table the entries that start by an offset stand in front of those that do not. -/
theorem Ordered.startsBy_of_le (h : t.Ordered) {i j : Nat} (hij : i ≤ j) (hj : t.startsBy o j) :
    t.startsBy o i := by
  obtain ⟨e, he, hoffset⟩ := startsBy_iff.mp hj
  rcases Nat.eq_or_lt_of_le hij with rfl | hlt
  · exact hj
  · obtain ⟨hjsize, rfl⟩ := Array.getElem?_eq_some_iff.mp he
    have hisize : i < t.entries.size := Nat.lt_trans hlt hjsize
    refine startsBy_iff.mpr ⟨t.entries[i], Array.getElem?_eq_getElem hisize, ?_⟩
    have hle : t.entries[i].offset ≤ t.entries[j].offset :=
      List.pairwise_iff_getElem.mp h i j hisize hjsize hlt
    exact UInt32.le_trans hle hoffset

/-- Halving ends at the last index that passes the test, or at the first one if none passes. What
carries it: the base passes or is the first index, and nothing behind the window passes. -/
theorem narrow_spec (hdown : ∀ i j, i ≤ j → test j → test i) {base size : Nat}
    (hbase : base = 0 ∨ test base) (hbeyond : ∀ i, base + size ≤ i → test i = false) :
    (narrow test base size = 0 ∨ test (narrow test base size)) ∧
      ∀ i, narrow test base size < i → test i = false := by
  induction size using Nat.strongRecOn generalizing base with
  | ind size ih =>
    rw [narrow]
    split
    next hsmall => exact ⟨hbase, fun i hi => hbeyond i (by omega)⟩
    next hlarge =>
      have hless : size - size / 2 < size := by omega
      dsimp only
      split
      next hmid => exact ih _ hless (.inr hmid) fun i hi => hbeyond i (by omega)
      next hmid =>
        refine ih _ hless hbase fun i hi => ?_
        have hbehind : base + size / 2 ≤ i := by omega
        exact Bool.eq_false_iff.mpr fun hi => hmid (hdown _ _ hbehind hi)

theorem lastAtMost?_eq_some_iff : t.lastAtMost? o = some e ↔ ∃ front behind,
    t.entries.toList = front ++ e :: behind ∧ e.offset ≤ o ∧ ∀ d ∈ behind, o < d.offset := by
  rw [lastAtMost?, List.find?_eq_some_iff_append]
  constructor
  · rintro ⟨hle, front, behind, hsplit, hnot⟩
    refine ⟨behind.reverse, front.reverse, ?_, by simpa using hle, by simpa using hnot⟩
    rw [← List.reverse_reverse t.entries.toList, hsplit]
    simp
  · rintro ⟨front, behind, hsplit, hle, hnot⟩
    refine ⟨by simpa using hle, behind.reverse, front.reverse, by simp [hsplit], by simpa using hnot⟩

theorem lastAtMost?_eq_none_iff :
    t.lastAtMost? o = none ↔ ∀ e ∈ t.entries.toList, o < e.offset := by
  simp [lastAtMost?, List.find?_eq_none]

theorem lastAtMost?_of_index {index : Nat} (he : t.entries[index]? = some e) (hle : e.offset ≤ o)
    (hbeyond : ∀ i, index < i → t.startsBy o i = false) : t.lastAtMost? o = some e := by
  obtain ⟨hsize, rfl⟩ := Array.getElem?_eq_some_iff.mp he
  have hsplit : t.entries.toList = t.entries.toList.take index ++
      t.entries[index] :: t.entries.toList.drop (index + 1) := by
    rw [← Array.getElem_toList, List.getElem_cons_drop, List.take_append_drop]
  refine lastAtMost?_eq_some_iff.mpr ⟨_, _, hsplit, hle, fun d hd => ?_⟩
  obtain ⟨k, hk⟩ := List.mem_iff_getElem?.mp hd
  rw [List.getElem?_drop, Array.getElem?_toList] at hk
  have hnot := hbeyond (index + 1 + k) (by omega)
  exact UInt32.not_le.mp fun hd => Bool.false_ne_true (hnot.symm.trans (startsBy_iff.mpr ⟨d, hk, hd⟩))

theorem lastAtMost?_of_startsBy_eq_false (h : ∀ i, t.startsBy o i = false) :
    t.lastAtMost? o = none := by
  refine lastAtMost?_eq_none_iff.mpr fun e he => ?_
  obtain ⟨i, hi⟩ := List.mem_iff_getElem?.mp he
  rw [Array.getElem?_toList] at hi
  exact UInt32.not_le.mp fun hle =>
    Bool.false_ne_true ((h i).symm.trans (startsBy_iff.mpr ⟨e, hi, hle⟩))

/-- On an ordered table halving finds the last entry that starts by the offset. -/
theorem Ordered.find?_eq_lastAtMost? (h : t.Ordered) (o : UInt32) :
    t.find? o = t.lastAtMost? o := by
  have hend : ∀ i, 0 + t.length ≤ i → t.startsBy o i = false := by
    intro i hi
    rw [Nat.zero_add] at hi
    simp [startsBy, Array.getElem?_eq_none hi]
  obtain ⟨hindex, hbeyond⟩ :=
    narrow_spec (fun _ _ hij hj => h.startsBy_of_le hij hj) (.inl rfl) hend
  unfold find?
  generalize narrow (t.startsBy o) 0 t.length = index at hindex hbeyond
  dsimp only
  split
  next hstarts =>
    obtain ⟨e, he, hle⟩ := startsBy_iff.mp hstarts
    rw [he, lastAtMost?_of_index he hle hbeyond]
  next hstarts =>
    obtain rfl : index = 0 := hindex.resolve_right hstarts
    rw [if_pos rfl]
    refine (lastAtMost?_of_startsBy_eq_false fun i => ?_).symm
    rcases Nat.eq_zero_or_pos i with rfl | hpos
    · exact Bool.eq_false_iff.mpr hstarts
    · exact hbeyond i hpos

end PositionTable

namespace PositionLog

/-- A source position that a log is asked to keep for an offset. -/
structure Offer where
  offset : UInt32
  position : SourcePosition
  deriving DecidableEq

def Offer.entry (offer : Offer) : PositionEntry :=
  ⟨offer.offset, offer.position.position, offer.position.isStatement⟩

/-- The answers to a sequence of offers, and the log behind them. One that is refused leaves the log
as it was. -/
def addAll (log : PositionLog) : List Offer → List (Except AssemblyError Unit) × PositionLog
  | [] => ([], log)
  | offer :: offers =>
    match log.add offer.offset offer.position with
    | .error e => ((.error e :: (log.addAll offers).1), (log.addAll offers).2)
    | .ok next => (.ok () :: (next.addAll offers).1, (next.addAll offers).2)

/-- The answers to a sequence of offers and the entries they leave behind one at the offset `last`, by
the rule that offsets never fall. -/
inductive Recorded :
    Option UInt32 → List Offer → List (Except AssemblyError Unit) → List PositionEntry → Prop
  | nil (last : Option UInt32) : Recorded last [] [] []
  | kept {last : Option UInt32} {offer : Offer} {offers : List Offer}
    {answers : List (Except AssemblyError Unit)} {entries : List PositionEntry}
    (h : ∀ l ∈ last, l ≤ offer.offset) (hrest : Recorded (some offer.offset) offers answers entries) :
    Recorded last (offer :: offers) (.ok () :: answers) (offer.entry :: entries)
  | refused {last : UInt32} {offer : Offer} {offers : List Offer}
    {answers : List (Except AssemblyError Unit)} {entries : List PositionEntry}
    (h : offer.offset < last) (hrest : Recorded (some last) offers answers entries) :
    Recorded (some last) (offer :: offers)
      (.error (.positionOrder offer.offset last) :: answers) entries

def last? (log : PositionLog) : Option UInt32 := log.entries.back?.map (·.offset)

variable {log : PositionLog} {offer : Offer}

theorem add_omit (hm : log.mode = .omit) (offer : Offer) :
    log.add offer.offset offer.position = .ok log := by
  simp [add, later?, push, hm]

theorem add_of_le (hm : log.mode = .record) (h : ∀ l ∈ log.last?, l ≤ offer.offset) :
    log.add offer.offset offer.position =
      .ok { log with entries := log.entries.push offer.entry } := by
  have hlater : log.later? offer.offset = none := by
    simp only [later?, hm, Option.filter_eq_none_iff]
    intro l hl
    simpa using h l hl
  simp [add, push, hm, hlater, Offer.entry]

theorem add_of_lt (hm : log.mode = .record) {l : UInt32} (hl : log.last? = some l)
    (h : offer.offset < l) :
    log.add offer.offset offer.position = .error (.positionOrder offer.offset l) := by
  have hlater : log.later? offer.offset = some l := by
    simp only [later?, hm]
    rw [Option.filter_eq_some_iff]
    exact ⟨hl, by simpa using h⟩
  simp [add, hlater]

theorem addAll_omit (hm : log.mode = .omit) (offers : List Offer) :
    log.addAll offers = (offers.map fun _ => .ok (), log) := by
  induction offers with
  | nil => rfl
  | cons offer offers ih => simp only [addAll, add_omit hm, ih, List.map_cons]

/-- What a recording log answers and keeps is what the rule says. -/
theorem recorded_addAll (log : PositionLog) (hm : log.mode = .record) (offers : List Offer) :
    ∃ entries, (log.addAll offers).2.entries.toList = log.entries.toList ++ entries ∧
      Recorded log.last? offers (log.addAll offers).1 entries := by
  induction offers generalizing log with
  | nil => exact ⟨[], by simp [addAll], .nil _⟩
  | cons offer offers ih =>
    rcases Classical.em (∀ l ∈ log.last?, l ≤ offer.offset) with hkept | hbehind
    · have hlast : ({ log with entries := log.entries.push offer.entry } : PositionLog).last? =
          some offer.offset := by simp [last?, Offer.entry]
      obtain ⟨entries, hentries, hrecorded⟩ :=
        ih { log with entries := log.entries.push offer.entry } hm
      rw [hlast] at hrecorded
      simp only [addAll, add_of_le hm hkept]
      exact ⟨offer.entry :: entries, by simpa using hentries, .kept hkept hrecorded⟩
    · simp only [Classical.not_forall, UInt32.not_le] at hbehind
      obtain ⟨l, hl, hlt⟩ := hbehind
      have hl : log.last? = some l := hl
      obtain ⟨entries, hentries, hrecorded⟩ := ih log hm
      simp only [addAll, add_of_lt hm hl hlt]
      rw [hl] at hrecorded ⊢
      exact ⟨entries, hentries, .refused hlt hrecorded⟩

theorem recorded_empty (offers : List Offer) :
    Recorded none offers ((empty .record).addAll offers).1
      ((empty .record).addAll offers).2.entries.toList := by
  obtain ⟨entries, hentries, hrecorded⟩ := recorded_addAll (empty .record) rfl offers
  have hentries : ((empty .record).addAll offers).2.entries.toList = entries := hentries
  rw [hentries]
  exact hrecorded

/-- What is kept by the rule is ordered, and none of it falls behind what was kept before. -/
theorem Recorded.ordered {last : Option UInt32} {offers : List Offer}
    {answers : List (Except AssemblyError Unit)} {entries : List PositionEntry}
    (h : Recorded last offers answers entries) :
    entries.Pairwise (fun d e => d.offset ≤ e.offset) ∧ ∀ l ∈ last, ∀ e ∈ entries, l ≤ e.offset := by
  induction h with
  | nil => exact ⟨.nil, by simp⟩
  | @kept last offer _ _ entries h _ ih =>
    obtain ⟨hpairwise, hbehind⟩ := ih
    have hentry : ∀ e ∈ entries, offer.offset ≤ e.offset := hbehind _ rfl
    refine ⟨.cons hentry hpairwise, fun l hl e he => ?_⟩
    rcases List.mem_cons.mp he with rfl | he
    · exact h l hl
    · exact UInt32.le_trans (h l hl) (hentry e he)
  | refused _ _ ih => exact ih

theorem ordered_addAll (mode : PositionMode) (offers : List Offer) :
    ((empty mode).addAll offers).2.table.Ordered := by
  cases mode with
  | «omit» =>
    rw [addAll_omit rfl]
    exact .nil
  | record => exact (recorded_empty offers).ordered.1

/-- An offset may be offered twice. One that falls behind is refused, and does not count for the next. -/
example : (empty .record).addAll [⟨6, ⟨1, true⟩⟩, ⟨2, ⟨3, true⟩⟩, ⟨6, ⟨9, false⟩⟩] =
    ([.ok (), .error (.positionOrder 2 6), .ok ()], ⟨.record, #[⟨6, 1, true⟩, ⟨6, 9, false⟩]⟩) := by
  rfl

end PositionLog
end BytecodeAssembler
