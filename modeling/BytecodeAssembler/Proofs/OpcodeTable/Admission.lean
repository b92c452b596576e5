import BytecodeAssembler.Proofs.Encoding
import BytecodeAssembler.Proofs.OpcodeTable
import Mathlib.Data.List.Nodup

/-! # Which lists of declarations make a table, and what the table answers

`Descriptor.Faulty` and `Admissible` say of declarations what the search for a defect looks for, without
the search. A list is refused for its first faulty declaration, and within it for the first kind of
fault; if none is faulty, for the scale prefix that is missing. A list that is accepted declares each
opcode once, so a table answers from the declaration of the opcode it is asked about, and the order of
the list makes no difference.
-/
namespace BytecodeAssembler
variable {d : Descriptor} {ds es front : List Descriptor} {seen : List Opcode} {o : Opcode}
  {e : InstructionError} {t : OpcodeTable}

theorem Opcode.isScalePrefix_iff : o.isScalePrefix ↔ o = .wide ∨ o = .extraWide := by
  cases o <;> decide

namespace Descriptor

/-- The declaration stands behind those in `front` and is reported for a fault: for the first in this
list of which there is one. -/
inductive Faulty (front : List Descriptor) (d : Descriptor) : InstructionError → Prop
  | duplicate {c : Descriptor} (hc : c ∈ front) (hsame : c.opcode = d.opcode) :
    Faulty front d (.duplicateOpcode d.opcode)
  | tooMany (hnew : ∀ c ∈ front, c.opcode ≠ d.opcode) (hlong : maxOperands < d.operands.length) :
    Faulty front d (.tooManyOperands d.opcode d.operands.length maxOperands)
  | prefixed (hnew : ∀ c ∈ front, c.opcode ≠ d.opcode) (hfew : d.operands.length ≤ maxOperands)
    (hscale : d.opcode.isScalePrefix) (hsome : d.operands ≠ []) :
    Faulty front d (.malformedPrefix (.withOperands d.opcode))
  | unsized {index : Nat} (hnew : ∀ c ∈ front, c.opcode ≠ d.opcode)
    (hfew : d.operands.length ≤ maxOperands) (hbare : d.opcode.isScalePrefix → d.operands = [])
    (hhere : d.operands[index]? = some .none) (hfirst : ∀ k ∈ d.operands.take index, k ≠ .none) :
    Faulty front d (.unsizedOperand d.opcode index)

theorem findIdx?_unsized_eq_some_iff {ks : List OperandKind} {index : Nat} :
    ks.findIdx? unsized = some index ↔
      ks[index]? = some .none ∧ ∀ k ∈ ks.take index, k ≠ .none := by
  rw [List.findIdx?_eq_some_iff_getElem]
  constructor
  · rintro ⟨hlt, hhere, hfirst⟩
    refine ⟨?_, fun k hk hnone => ?_⟩
    · rw [List.getElem?_eq_getElem hlt, unsized_iff.mp hhere]
    · obtain ⟨n, hn, rfl⟩ := List.mem_take_iff_getElem.mp hk
      exact hfirst n (by omega) (unsized_iff.mpr hnone)
  · rintro ⟨hhere, hfirst⟩
    obtain ⟨hlt, hkind⟩ := List.getElem?_eq_some_iff.mp hhere
    refine ⟨hlt, unsized_iff.mpr hkind, fun n hn hunsized => ?_⟩
    exact hfirst _ (List.mem_take_iff_getElem.mpr ⟨n, by omega, rfl⟩) (unsized_iff.mp hunsized)

theorem faulty_of_defect? (hseen : ∀ o, o ∈ seen ↔ ∃ c ∈ front, c.opcode = o)
    (h : d.defect? seen = some e) : d.Faulty front e := by
  unfold defect? at h
  split at h
  next hdup =>
    cases h
    obtain ⟨c, hc, hsame⟩ := (hseen _).mp hdup
    exact .duplicate hc hsame
  next hfresh =>
    have hnew : ∀ c ∈ front, c.opcode ≠ d.opcode :=
      fun c hc hsame => hfresh ((hseen _).mpr ⟨c, hc, hsame⟩)
    split at h
    next hlong =>
      cases h
      exact .tooMany hnew hlong
    next hlong =>
      have hfew := Nat.not_lt.mp hlong
      split at h
      next hprefix =>
        cases h
        obtain ⟨hscale, hsome⟩ := Bool.and_eq_true_iff.mp hprefix
        exact .prefixed hnew hfew hscale (by simpa using hsome)
      next hprefix =>
        obtain ⟨index, hindex, rfl⟩ := Option.map_eq_some_iff.mp h
        obtain ⟨hhere, hfirst⟩ := findIdx?_unsized_eq_some_iff.mp hindex
        exact .unsized hnew hfew (by simpa using hprefix) hhere hfirst

theorem Faulty.defect?_eq_some (hseen : ∀ o, o ∈ seen ↔ ∃ c ∈ front, c.opcode = o)
    (h : d.Faulty front e) : d.defect? seen = some e := by
  have hfresh : (∀ c ∈ front, c.opcode ≠ d.opcode) → d.opcode ∉ seen := by
    intro hnew hdup
    obtain ⟨c, hc, hsame⟩ := (hseen _).mp hdup
    exact hnew c hc hsame
  unfold defect?
  cases h with
  | duplicate hc hsame => rw [if_pos ((hseen _).mpr ⟨_, hc, hsame⟩)]
  | tooMany hnew hlong => rw [if_neg (hfresh hnew), if_pos hlong]
  | prefixed hnew hfew hscale hsome =>
    rw [if_neg (hfresh hnew), if_neg (Nat.not_lt.mpr hfew), if_pos (by simpa [hscale] using hsome)]
  | unsized hnew hfew hbare hhere hfirst =>
    rw [if_neg (hfresh hnew), if_neg (Nat.not_lt.mpr hfew), if_neg (by simpa using hbare),
      findIdx?_unsized_eq_some_iff.mpr ⟨hhere, hfirst⟩, Option.map_some]

end Descriptor

namespace OpcodeTable

/-- No opcode is declared twice and no declaration has a fault of its own. -/
structure Admissible (ds : List Descriptor) : Prop where
  nodup : (ds.map (·.opcode)).Nodup
  few : ∀ d ∈ ds, d.operands.length ≤ maxOperands
  bare : ∀ d ∈ ds, d.opcode.isScalePrefix → d.operands = []
  sized : ∀ d ∈ ds, ∀ k ∈ d.operands, k ≠ .none

theorem Admissible.cons_iff : Admissible (d :: ds) ↔
    (∀ c ∈ ds, c.opcode ≠ d.opcode) ∧ d.operands.length ≤ maxOperands ∧
      (d.opcode.isScalePrefix → d.operands = []) ∧ (∀ k ∈ d.operands, k ≠ .none) ∧
      Admissible ds := by
  constructor
  · rintro ⟨hnodup, hfew, hbare, hsized⟩
    obtain ⟨hnew, hnodup⟩ := List.nodup_cons.mp hnodup
    rw [List.forall_mem_cons] at hfew hbare hsized
    have hnew : ∀ c ∈ ds, c.opcode ≠ d.opcode :=
      fun c hc hsame => hnew (List.mem_map.mpr ⟨c, hc, hsame⟩)
    exact ⟨hnew, hfew.1, hbare.1, hsized.1, hnodup, hfew.2, hbare.2, hsized.2⟩
  · rintro ⟨hnew, hfew, hbare, hsized, h⟩
    have hnot : d.opcode ∉ ds.map (·.opcode) := by
      intro hmem
      obtain ⟨c, hc, hsame⟩ := List.mem_map.mp hmem
      exact hnew c hc hsame
    exact ⟨List.nodup_cons.mpr ⟨hnot, h.nodup⟩, List.forall_mem_cons.mpr ⟨hfew, h.few⟩,
      List.forall_mem_cons.mpr ⟨hbare, h.bare⟩, List.forall_mem_cons.mpr ⟨hsized, h.sized⟩⟩

theorem Admissible.perm (h : Admissible ds) (hperm : ds.Perm es) : Admissible es where
  nodup := (hperm.map _).nodup_iff.mp h.nodup
  few d hd := h.few d (hperm.mem_iff.mpr hd)
  bare d hd := h.bare d (hperm.mem_iff.mpr hd)
  sized d hd := h.sized d (hperm.mem_iff.mpr hd)

theorem declarationDefect?_eq_none_iff : declarationDefect? seen ds = none ↔
    (∀ d ∈ ds, d.opcode ∉ seen) ∧ Admissible ds := by
  induction ds generalizing seen with
  | nil => simpa [declarationDefect?] using ⟨.nil, by simp, by simp, by simp⟩
  | cons d ds ih =>
    rw [declarationDefect?, Option.or_eq_none_iff, Descriptor.defect?_eq_none_iff, ih,
      Admissible.cons_iff, List.forall_mem_cons]
    simp only [List.mem_cons, not_or, forall_and]
    constructor
    · rintro ⟨⟨hfresh, hfew, hbare, hsized⟩, ⟨hnew, hrest⟩, h⟩
      exact ⟨⟨hfresh, hrest⟩, hnew, hfew, hbare, hsized, h⟩
    · rintro ⟨⟨hfresh, hrest⟩, hnew, hfew, hbare, hsized, h⟩
      exact ⟨⟨hfresh, hfew, hbare, hsized⟩, ⟨hnew, hrest⟩, h⟩

/-- The search stops at the first declaration with a defect. -/
theorem declarationDefect?_eq_some_iff : declarationDefect? seen ds = some e ↔
    ∃ front d behind, ds = front ++ d :: behind ∧ declarationDefect? seen front = none ∧
      d.defect? ((front.map (·.opcode)).reverse ++ seen) = some e := by
  induction ds generalizing seen with
  | nil => simp [declarationDefect?]
  | cons d ds ih =>
    cases hd : d.defect? seen with
    | some e' =>
      simp only [declarationDefect?, hd, Option.some_or, Option.some.injEq]
      constructor
      · rintro rfl
        exact ⟨[], d, ds, rfl, rfl, hd⟩
      · rintro ⟨front, d', behind, hsplit, hnone, hdefect⟩
        cases front with
        | nil =>
          obtain ⟨rfl, -⟩ := List.cons.inj hsplit
          exact Option.some.inj (hd.symm.trans hdefect)
        | cons c front =>
          obtain ⟨rfl, -⟩ := List.cons.inj hsplit
          simp [declarationDefect?, hd] at hnone
    | none =>
      simp only [declarationDefect?, hd, Option.none_or, ih]
      constructor
      · rintro ⟨front, d', behind, rfl, hnone, hdefect⟩
        exact ⟨d :: front, d', behind, rfl, by simp [declarationDefect?, hd, hnone],
          by simpa using hdefect⟩
      · rintro ⟨front, d', behind, hsplit, hnone, hdefect⟩
        cases front with
        | nil =>
          obtain ⟨rfl, -⟩ := List.cons.inj hsplit
          simp [hd] at hdefect
        | cons c front =>
          obtain ⟨rfl, rfl⟩ := List.cons.inj hsplit
          refine ⟨front, d', behind, rfl, ?_, by simpa using hdefect⟩
          simpa [declarationDefect?, hd] using hnone

def Declares (ds : List Descriptor) (o : Opcode) : Prop := ∃ d ∈ ds, d.opcode = o

theorem any_opcode_iff : ds.any (·.opcode == o) ↔ Declares ds o := by simp [Declares]

theorem missingPrefix?_eq : missingPrefix? ds =
    if ds.any (·.opcode == .wide) then
      if ds.any (·.opcode == .extraWide) then none
      else some (.malformedPrefix (.undeclared .extraWide))
    else some (.malformedPrefix (.undeclared .wide)) := by
  have hprefixes : scalePrefixes = [.wide, .extraWide] := rfl
  rw [missingPrefix?, hprefixes, List.find?_cons, List.find?_cons, List.find?_nil]
  cases ds.any (·.opcode == .wide) <;> cases ds.any (·.opcode == .extraWide) <;> rfl

theorem missingPrefix?_eq_none_iff :
    missingPrefix? ds = none ↔ Declares ds .wide ∧ Declares ds .extraWide := by
  rw [missingPrefix?_eq, ← any_opcode_iff, ← any_opcode_iff]
  cases ds.any (·.opcode == .wide) <;> cases ds.any (·.opcode == .extraWide) <;> decide

theorem missingPrefix?_eq_some_iff : missingPrefix? ds = some e ↔
    ¬Declares ds .wide ∧ e = .malformedPrefix (.undeclared .wide) ∨
      Declares ds .wide ∧ ¬Declares ds .extraWide ∧
        e = .malformedPrefix (.undeclared .extraWide) := by
  rw [missingPrefix?_eq, ← any_opcode_iff, ← any_opcode_iff]
  cases ds.any (·.opcode == .wide) with
  | false => simp [@eq_comm _ e]
  | true => cases ds.any (·.opcode == .extraWide) <;> simp [@eq_comm _ e]

/-- A list is refused for its first faulty declaration, or else for a scale prefix it lacks. -/
inductive Refused (ds : List Descriptor) : InstructionError → Prop
  | faulty {front behind : List Descriptor} {d : Descriptor} {e : InstructionError}
    (hds : ds = front ++ d :: behind) (hfront : Admissible front) (hd : d.Faulty front e) :
    Refused ds e
  | noWide (hds : Admissible ds) (h : ¬Declares ds .wide) :
    Refused ds (.malformedPrefix (.undeclared .wide))
  | noExtraWide (hds : Admissible ds) (hwide : Declares ds .wide) (h : ¬Declares ds .extraWide) :
    Refused ds (.malformedPrefix (.undeclared .extraWide))

theorem admissible_iff : Admissible ds ↔ declarationDefect? [] ds = none := by
  simp [declarationDefect?_eq_none_iff]

theorem firstFault_iff : declarationDefect? [] ds = some e ↔ ∃ front d behind,
    ds = front ++ d :: behind ∧ Admissible front ∧ d.Faulty front e := by
  have hseen : ∀ (front : List Descriptor) o,
      o ∈ (front.map (·.opcode)).reverse ++ [] ↔ ∃ c ∈ front, c.opcode = o := by simp
  rw [declarationDefect?_eq_some_iff]
  constructor
  · rintro ⟨front, d, behind, hds, hnone, hd⟩
    exact ⟨front, d, behind, hds, admissible_iff.mpr hnone, d.faulty_of_defect? (hseen front) hd⟩
  · rintro ⟨front, d, behind, hds, hfront, hd⟩
    exact ⟨front, d, behind, hds, admissible_iff.mp hfront, hd.defect?_eq_some (hseen front)⟩

theorem defect?_eq_some_iff : defect? ds = some e ↔ Refused ds e := by
  rw [defect?, Option.or_eq_some_iff, firstFault_iff, ← admissible_iff, missingPrefix?_eq_some_iff]
  constructor
  · rintro (⟨front, d, behind, hds, hfront, hd⟩ | ⟨hds, ⟨h, rfl⟩ | ⟨hwide, h, rfl⟩⟩)
    · exact .faulty hds hfront hd
    · exact .noWide hds h
    · exact .noExtraWide hds hwide h
  · intro h
    cases h with
    | faulty hds hfront hd => exact .inl ⟨_, _, _, hds, hfront, hd⟩
    | noWide hds h => exact .inr ⟨hds, .inl ⟨h, rfl⟩⟩
    | noExtraWide hds hwide h => exact .inr ⟨hds, .inr ⟨hwide, h, rfl⟩⟩

theorem defect?_eq_none_iff :
    defect? ds = none ↔ Admissible ds ∧ Declares ds .wide ∧ Declares ds .extraWide := by
  rw [defect?, Option.or_eq_none_iff, ← admissible_iff, missingPrefix?_eq_none_iff]

theorem ofDescriptors_eq_error_iff : ofDescriptors ds = .error e ↔ defect? ds = some e := by
  unfold ofDescriptors
  split
  next h => simp [h]
  next h => simp [h]

theorem ofDescriptors_eq_ok_iff :
    ofDescriptors ds = .ok t ↔ defect? ds = none ∧ t.descriptors = ds := by
  unfold ofDescriptors
  split
  next h => simp [h]
  next h =>
    rw [Except.ok.injEq, and_iff_right h]
    constructor
    · rintro rfl
      rfl
    · rintro rfl
      rfl

theorem exists_ofDescriptors_iff : (∃ t, ofDescriptors ds = .ok t) ↔ defect? ds = none := by
  simp only [ofDescriptors_eq_ok_iff]
  exact ⟨fun ⟨_, h, _⟩ => h, fun h => ⟨⟨ds, h⟩, h, rfl⟩⟩

/-- All that a table says of an opcode. -/
structure Answers where
  contains : Bool
  kinds : Except InstructionError (List OperandKind)
  count : Except InstructionError Nat
  widths : Scale → Except InstructionError (List Width)
  use : Except InstructionError AccumulatorUse
  size : Scale → Except InstructionError Nat

def answers (t : OpcodeTable) (o : Opcode) : Answers :=
  ⟨t.contains o, t.operandKinds o, t.operandCount o, t.operandWidths o, t.accumulatorUse o,
    t.instructionSize o⟩

namespace Answers

/-- What a declaration says of its opcode. -/
def declared (d : Descriptor) : Answers where
  contains := true
  kinds := .ok d.operands
  count := .ok d.operands.length
  widths s := .ok (d.operands.map (·.width s))
  use := .ok d.use
  size s := .ok ((if s = .single then 0 else 1) + 1 + Width.total (d.operands.map (·.width s)))

def unknown (o : Opcode) : Answers where
  contains := false
  kinds := .error (.unknownOpcode o)
  count := .error (.unknownOpcode o)
  widths _ := .error (.unknownOpcode o)
  use := .error (.unknownOpcode o)
  size _ := .error (.unknownOpcode o)

end Answers

theorem eq_of_opcode_eq {c : Descriptor} (h : (ds.map (·.opcode)).Nodup) (hc : c ∈ ds)
    (hd : d ∈ ds) (hsame : c.opcode = d.opcode) : c = d := List.inj_on_of_nodup_map h hc hd hsame

theorem find?_of_mem (h : Admissible t.descriptors) (hd : d ∈ t.descriptors) :
    t.find? d.opcode = some d := by
  cases hfind : t.find? d.opcode with
  | none =>
    rw [find?, List.find?_eq_none] at hfind
    simpa using hfind d hd
  | some c =>
    have hc : c ∈ t.descriptors := List.mem_of_find?_eq_some hfind
    rw [eq_of_opcode_eq h.nodup hc hd (opcode_of_find? hfind)]

theorem answers_of_find? (h : t.find? o = some d) : t.answers o = .declared d := by
  have hlookup := lookup_eq_ok_iff.mpr h
  have hwidths : t.operandWidths o = (Answers.declared d).widths := by
    funext s
    exact operandWidths_eq_ok_iff.mpr ⟨d, hlookup, rfl⟩
  have hsize : t.instructionSize o = (Answers.declared d).size := by
    funext s
    rw [instructionSize_of_lookup hlookup]
    cases s <;> rfl
  simp only [answers, hwidths, hsize, contains, h, operandKinds, operandCount, accumulatorUse,
    hlookup, Except.map]
  rfl

theorem answers_of_find?_eq_none (h : t.find? o = none) : t.answers o = .unknown o := by
  have hlookup : t.lookup o = .error (.unknownOpcode o) := by simp [lookup, h]
  have hwidths : t.operandWidths o = (Answers.unknown o).widths := by
    funext s
    simp only [operandWidths, hlookup, Except.map, Answers.unknown]
  have hsize : t.instructionSize o = (Answers.unknown o).size := by
    funext s
    simp only [instructionSize, hwidths, Except.map, Answers.unknown]
  simp only [answers, hwidths, hsize, contains, h, operandKinds, operandCount, accumulatorUse,
    hlookup, Except.map]
  rfl

theorem find?_eq_none_iff : t.find? o = none ↔ ¬Declares t.descriptors o := by
  simp [find?, Declares]

/-- Two tables that declare the same give the same answers, whatever the order. -/
theorem answers_eq_of_perm {t u : OpcodeTable} (ht : Admissible t.descriptors)
    (hperm : t.descriptors.Perm u.descriptors) (o : Opcode) : u.answers o = t.answers o := by
  by_cases h : Declares t.descriptors o
  · obtain ⟨d, hd, rfl⟩ := h
    rw [answers_of_find? (find?_of_mem ht hd),
      answers_of_find? (find?_of_mem (ht.perm hperm) (hperm.mem_iff.mp hd))]
  · have hu : ¬Declares u.descriptors o := by
      rintro ⟨d, hd, hsame⟩
      exact h ⟨d, hperm.mem_iff.mpr hd, hsame⟩
    rw [answers_of_find?_eq_none (find?_eq_none_iff.mpr h),
      answers_of_find?_eq_none (find?_eq_none_iff.mpr hu)]

/-- Where no opcode is declared twice, the declarations of the prefixes are the ones to look at. -/
theorem prefixes_bare_iff (h : (ds.map (·.opcode)).Nodup) :
    ((∀ d ∈ ds, d.opcode.isScalePrefix → d.operands = []) ∧ Declares ds .wide ∧
      Declares ds .extraWide) ↔
    (∃ d ∈ ds, d.opcode = .wide ∧ d.operands = []) ∧
      ∃ d ∈ ds, d.opcode = .extraWide ∧ d.operands = [] := by
  constructor
  · rintro ⟨hbare, ⟨c, hc, hwide⟩, ⟨d, hd, hextra⟩⟩
    exact ⟨⟨c, hc, hwide, hbare c hc (by rw [hwide]; rfl)⟩,
      ⟨d, hd, hextra, hbare d hd (by rw [hextra]; rfl)⟩⟩
  · rintro ⟨⟨c, hc, hwide, hcbare⟩, ⟨d, hd, hextra, hdbare⟩⟩
    refine ⟨fun b hb hscale => ?_, ⟨c, hc, hwide⟩, ⟨d, hd, hextra⟩⟩
    rcases Opcode.isScalePrefix_iff.mp hscale with hopcode | hopcode
    · rw [eq_of_opcode_eq h hb hc (hopcode.trans hwide.symm), hcbare]
    · rw [eq_of_opcode_eq h hb hd (hopcode.trans hextra.symm), hdbare]

/-- A list of declarations makes a table exactly if it declares no opcode twice, no declaration has too
many operands or one that takes no bytes, and both scale prefixes are declared without operands. Any
other list is refused for its first fault. A table says of each opcode what its declaration says and
knows no other, and in whatever order the declarations stand, they make a table with these answers. -/
theorem admitted_and_answered (ds : List Descriptor) :
    ((∃ t, ofDescriptors ds = .ok t) ↔
      (ds.map (·.opcode)).Nodup ∧
      (∀ d ∈ ds, d.operands.length ≤ maxOperands ∧ ∀ k ∈ d.operands, k ≠ .none) ∧
      (∃ d ∈ ds, d.opcode = .wide ∧ d.operands = []) ∧
      ∃ d ∈ ds, d.opcode = .extraWide ∧ d.operands = []) ∧
    (∀ e, ofDescriptors ds = .error e ↔ Refused ds e) ∧
    ∀ t, ofDescriptors ds = .ok t →
      (∀ d ∈ ds, t.answers d.opcode = .declared d) ∧
      (∀ o, ¬Declares ds o → t.answers o = .unknown o) ∧
      ∀ es, ds.Perm es → ∃ u, ofDescriptors es = .ok u ∧ ∀ o, u.answers o = t.answers o := by
  refine ⟨?_, fun e => by rw [ofDescriptors_eq_error_iff, defect?_eq_some_iff], fun t ht => ?_⟩
  · rw [exists_ofDescriptors_iff, defect?_eq_none_iff]
    constructor
    · rintro ⟨⟨hnodup, hfew, hbare, hsized⟩, hprefixes⟩
      obtain ⟨hwide, hextra⟩ := (prefixes_bare_iff hnodup).mp ⟨hbare, hprefixes⟩
      exact ⟨hnodup, fun d hd => ⟨hfew d hd, hsized d hd⟩, hwide, hextra⟩
    · rintro ⟨hnodup, hown, hwide, hextra⟩
      obtain ⟨hbare, hprefixes⟩ := (prefixes_bare_iff hnodup).mpr ⟨hwide, hextra⟩
      exact ⟨⟨hnodup, fun d hd => (hown d hd).1, hbare, fun d hd => (hown d hd).2⟩, hprefixes⟩
  · obtain ⟨hnone, rfl⟩ := ofDescriptors_eq_ok_iff.mp ht
    obtain ⟨hds, hwide, hextra⟩ := defect?_eq_none_iff.mp hnone
    refine ⟨fun d hd => answers_of_find? (find?_of_mem hds hd),
      fun o ho => answers_of_find?_eq_none (find?_eq_none_iff.mpr ho), fun es hperm => ?_⟩
    have hdeclares : ∀ o, Declares t.descriptors o → Declares es o :=
      fun o ⟨d, hd, hsame⟩ => ⟨d, hperm.mem_iff.mp hd, hsame⟩
    have hes : defect? es = none :=
      defect?_eq_none_iff.mpr ⟨hds.perm hperm, hdeclares _ hwide, hdeclares _ hextra⟩
    exact ⟨⟨es, hes⟩, ofDescriptors_eq_ok_iff.mpr ⟨hes, rfl⟩, answers_eq_of_perm hds hperm⟩

/-- The prefixes may stand last and in any order. -/
theorem admitted_and_answered_prefixesLast :
    let ds : List Descriptor :=
      [⟨.ldaSmi, .write, [.imm]⟩, ⟨.extraWide, .none, []⟩, ⟨.wide, .none, []⟩]
    ∃ t u, ofDescriptors ds = .ok t ∧ ofDescriptors ds.reverse = .ok u ∧
      t.instructionSize .ldaSmi .quad = .ok 6 ∧ u.instructionSize .ldaSmi .quad = .ok 6 ∧
      u.accumulatorUse .ret = .error (.unknownOpcode .ret) := by
  intro ds
  obtain ⟨haccepted, -, htable⟩ := admitted_and_answered ds
  obtain ⟨t, ht⟩ := haccepted.mpr (by decide)
  obtain ⟨hown, hother, hperm⟩ := htable t ht
  obtain ⟨u, hu, hsame⟩ := hperm ds.reverse (List.reverse_perm ds).symm
  have hsmi : t.answers .ldaSmi = .declared ⟨.ldaSmi, .write, [.imm]⟩ :=
    hown ⟨.ldaSmi, .write, [.imm]⟩ List.mem_cons_self
  have hret : t.answers .ret = .unknown .ret := hother .ret (by simp [Declares, ds])
  refine ⟨t, u, ht, hu, ?_, ?_, congrArg Answers.use ((hsame .ret).trans hret)⟩
  · exact congrFun (congrArg Answers.size hsmi) .quad
  · exact congrFun (congrArg Answers.size ((hsame .ldaSmi).trans hsmi)) .quad

/-- The declaration that comes first is reported, though a later one repeats an opcode and both prefixes
are missing. -/
example : defect? [⟨.mov, .none, [.reg, .none]⟩, ⟨.ret, .read, []⟩, ⟨.ret, .read, []⟩] =
    some (.unsizedOperand .mov 1) := by decide

end OpcodeTable
end BytecodeAssembler
