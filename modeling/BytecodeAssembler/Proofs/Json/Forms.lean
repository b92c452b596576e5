import BytecodeAssembler.Json.Form
import BytecodeAssembler.Proofs.Json.Documents
import Mathlib.Data.List.Nodup

/-! # Forms read back

A form is lawful if its documents are well-formed and each stands for the value it was made from;
values of a lawful form read back from their text. Forms are lawful part by part: a record is if its
fields are, for no two of them have one name.
-/
namespace BytecodeAssembler.JsonForm

class Lawful (α : Type) [JsonForm α] : Prop where
  wellFormed : ∀ x : α, (toJson x).WellFormed
  ofJson?_toJson : ∀ x : α, ofJson? (toJson x) = some x

open Lawful

theorem parse?_render {α : Type} [JsonForm α] [Lawful α] (x : α) : parse? (render x) = some x := by
  rw [parse?, render, Json.text, String.toList_ofList, Json.ofChars?_chars (wellFormed x),
    Option.bind_some, ofJson?_toJson]

/-! ## Names and numbers -/

theorem wellFormed_ofText (s : String) : (Json.ofText s).WellFormed :=
  .string (Json.isRaw_escape s.toList) (Json.isEscaped_escape s.toList)

theorem wellFormed_ofInt (n : Int) : (Json.ofInt n).WellFormed :=
  .number (Json.isNumber_intLiteral n)

theorem lawful_ofNames {α : Type} {all : List α} {name : α → String}
    (h : ∀ x, all.find? (name · == name x) = some x) : @Lawful α (ofNames all name) :=
  letI := ofNames all name
  { wellFormed := fun x => wellFormed_ofText (name x)
    ofJson?_toJson := fun x => by
      have htext : nullaryName? (Json.ofText (name x)) = some (name x) := Json.text?_ofText (name x)
      show (nullaryName? (Json.ofText (name x))).bind _ = some x
      rw [htext, Option.bind_some]
      exact h x }

theorem natBelow?_ofInt {bound n : Nat} (h : n < bound) :
    natBelow? bound (Json.ofInt n) = some n := by
  have hn : 0 ≤ (n : Int) ∧ (n : Int) < bound := by omega
  rw [natBelow?, Json.int?_ofInt, Option.bind_some, if_pos hn, Int.toNat_natCast]

instance : Lawful Bool where
  wellFormed := .bool
  ofJson?_toJson _ := rfl

instance : Lawful UInt8 where
  wellFormed n := wellFormed_ofInt n.toNat
  ofJson?_toJson n := by
    show (natBelow? UInt8.size (Json.ofInt n.toNat)).map UInt8.ofNat = some n
    rw [natBelow?_ofInt n.toNat_lt, Option.map_some, UInt8.ofNat_toNat]

instance : Lawful UInt32 where
  wellFormed n := wellFormed_ofInt n.toNat
  ofJson?_toJson n := by
    show (natBelow? UInt32.size (Json.ofInt n.toNat)).map UInt32.ofNat = some n
    rw [natBelow?_ofInt n.toNat_lt, Option.map_some, UInt32.ofNat_toNat]

instance : Lawful Int32 where
  wellFormed n := wellFormed_ofInt n.toInt
  ofJson?_toJson n := by
    have hlow := n.le_toInt
    have hhigh := n.toInt_lt
    show (Json.ofInt n.toInt).int?.bind _ = some n
    rw [Json.int?_ofInt, Option.bind_some, if_pos ⟨hlow, hhigh⟩, Int32.ofInt_toInt]

instance : Lawful PositionMode := lawful_ofNames fun m => by
  cases m with
  | record | «omit» => rfl

/-! ## Arrays and records -/

theorem mapM_map {α β γ : Type} {f : α → β} {g : β → Option γ} {h : α → γ} {xs : List α}
    (hx : ∀ x ∈ xs, g (f x) = some (h x)) : (xs.map f).mapM g = some (xs.map h) := by
  induction xs with
  | nil => rfl
  | cons x xs ih =>
    obtain ⟨hfirst, hrest⟩ := List.forall_mem_cons.mp hx
    rw [List.map_cons, List.mapM_cons, hfirst, ih hrest]
    rfl

instance {α : Type} [JsonForm α] [Lawful α] : Lawful (Array α) where
  wellFormed xs := by
    refine .array fun j hj => ?_
    obtain ⟨x, -, rfl⟩ := List.mem_map.mp hj
    exact wellFormed x
  ofJson?_toJson xs := by
    have hitems : (xs.toList.map toJson).mapM ofJson? = some (xs.toList.map id) :=
      mapM_map fun x _ => ofJson?_toJson x
    show ((xs.toList.map toJson).mapM ofJson?).map List.toArray = some xs
    rw [hitems, List.map_id, Option.map_some]

theorem wellFormed_record {fields : List (String × Json)}
    (h : ∀ f ∈ fields, f.2.WellFormed) : (record fields).WellFormed := by
  refine .object ?_ ?_
  · intro m hm
    obtain ⟨f, -, rfl⟩ := List.mem_map.mp hm
    exact ⟨Json.isRaw_escape _, Json.isEscaped_escape _⟩
  · intro m hm
    obtain ⟨f, hf, rfl⟩ := List.mem_map.mp hm
    exact h f hf

theorem member?_eq_some {fields : List (String × Json)} (hnodup : (fields.map Prod.fst).Nodup)
    {f : String × Json} (hf : f ∈ fields) : member? fields f.1 = some f.2 := by
  have hfilter : fields.filter (·.1 == f.1) = [f] := by
    induction fields with
    | nil => cases hf
    | cons g fields ih =>
      obtain ⟨hg, hnodup⟩ := List.nodup_cons.mp hnodup
      rcases List.mem_cons.mp hf with rfl | hf
      · have hrest : fields.filter (·.1 == f.1) = [] := by
          rw [List.filter_eq_nil_iff]
          intro m hm hname
          rw [← eq_of_beq hname] at hg
          exact hg (List.mem_map_of_mem hm)
        rw [List.filter_cons_of_pos (by simp), hrest]
      · have hne : g.1 ≠ f.1 := fun hname => hg (hname ▸ List.mem_map_of_mem hf)
        rw [List.filter_cons_of_neg (by simpa using hne), ih hnodup hf]
  rw [member?, hfilter]

/-- A record is read by its names: the values come in the order of the fields. -/
theorem fields?_record {names : List String} {values : List Json} (hnodup : names.Nodup)
    (hlength : names.length = values.length) :
    fields? names (record (names.zip values)) = some values := by
  have hnames : (names.zip values).map Prod.fst = names := List.map_fst_zip hlength.le
  have hread : ((names.zip values).map fun f => (f.1.toList.flatMap Json.escapeChar, f.2)).mapM
      (fun m => (Json.text? (.string m.1)).map (·, m.2)) = some ((names.zip values).map id) := by
    refine mapM_map fun f _ => ?_
    have htext : Json.text? (.string (f.1.toList.flatMap Json.escapeChar)) = some f.1 :=
      Json.text?_ofText f.1
    rw [htext]
    rfl
  have hfound : ((names.zip values).map Prod.fst).mapM (member? (names.zip values)) =
      some ((names.zip values).map Prod.snd) :=
    mapM_map fun f hf => member?_eq_some (by rwa [hnames]) hf
  rw [hnames, List.map_snd_zip hlength.ge] at hfound
  rw [List.map_id] at hread
  rw [record, fields?, hread]
  exact hfound

theorem bind_fields?_record {α : Type} (names : List String) (values : List Json)
    {f : List Json → Option α} {x : α} (hnodup : names.Nodup)
    (hlength : names.length = values.length) (hf : f values = some x) :
    (fields? names (record (names.zip values))).bind f = some x := by
  rw [fields?_record hnodup hlength, Option.bind_some, hf]

instance : Lawful SourceInfo where
  wellFormed s := by
    cases s with
    | absent => exact wellFormed_ofText _
    | expression p => exact wellFormed_record (by simp [wellFormed p])
    | statement p => exact wellFormed_record (by simp [wellFormed p])
  ofJson?_toJson s := by
    have hname : ∀ name : String,
        Json.text? (.string (name.toList.flatMap Json.escapeChar)) = some name := Json.text?_ofText
    cases s with
    | absent => exact if_pos (hname "Invalid")
    | expression p =>
      have hnone : nullaryName? (toJson (SourceInfo.expression p)) = none := rfl
      have hother : nullaryName? (toJson (SourceInfo.expression p)) ≠ some "Invalid" := by simp [hnone]
      refine (if_neg hother).trans ?_
      show (Json.text? (.string ("Expression".toList.flatMap Json.escapeChar))).bind _ = _
      rw [hname, Option.bind_some]
      simp [ofJson?_toJson]
    | statement p =>
      have hnone : nullaryName? (toJson (SourceInfo.statement p)) = none := rfl
      have hother : nullaryName? (toJson (SourceInfo.statement p)) ≠ some "Invalid" := by simp [hnone]
      refine (if_neg hother).trans ?_
      show (Json.text? (.string ("Statement".toList.flatMap Json.escapeChar))).bind _ = _
      rw [hname, Option.bind_some]
      simp [ofJson?_toJson]

instance : Lawful SourcePosition where
  wellFormed p := wellFormed_record (by simp [wellFormed])
  ofJson?_toJson p := by
    apply bind_fields?_record ["position", "is_statement"] [toJson p.position, toJson p.isStatement]
    · decide
    · rfl
    · simp [ofJson?_toJson]

instance : Lawful PositionEntry where
  wellFormed e := wellFormed_record (by simp [wellFormed])
  ofJson?_toJson e := by
    apply bind_fields?_record ["bytecode_offset", "source_position", "is_statement"]
      [toJson e.offset, toJson e.position, toJson e.isStatement]
    · decide
    · rfl
    · simp [ofJson?_toJson]

instance : Lawful PositionTable where
  wellFormed t := wellFormed_record (by simp [wellFormed])
  ofJson?_toJson t := by
    apply bind_fields?_record ["entries"] [toJson t.entries]
    · decide
    · rfl
    · simp [ofJson?_toJson]

instance : Lawful Options where
  wellFormed o := wellFormed_record (by simp [wellFormed])
  ofJson?_toJson o := by
    apply bind_fields?_record ["elide_noneffectful_bytecodes", "source_positions"]
      [toJson o.elideDeadLoads, toJson o.positions]
    · decide
    · rfl
    · simp [ofJson?_toJson]

instance : Lawful Bytecode where
  wellFormed b := wellFormed_record (by simp [wellFormed])
  ofJson?_toJson b := by
    apply bind_fields?_record ["bytecodes", "source_positions"] [toJson b.code, toJson b.positions]
    · decide
    · rfl
    · simp [ofJson?_toJson]

/-- What is written as text is read back as it was: assembled code with its positions, in order or
not, and each part of it, the source of an instruction and the options of an assembler. -/
theorem texts_read_back :
    (∀ b : Bytecode, parse? (render b) = some b) ∧
    (∀ t : PositionTable, parse? (render t) = some t) ∧
    (∀ e : PositionEntry, parse? (render e) = some e) ∧
    (∀ p : SourcePosition, parse? (render p) = some p) ∧
    (∀ s : SourceInfo, parse? (render s) = some s) ∧
    ∀ o : Options, parse? (render o) = some o :=
  ⟨parse?_render, parse?_render, parse?_render, parse?_render, parse?_render, parse?_render⟩

example : render (⟨#[21, 96], ⟨#[⟨1, -7, true⟩]⟩⟩ : Bytecode) =
    "\x7b\"bytecodes\":[21,96],\"source_positions\":\x7b\"entries\":[\x7b" ++
      "\"bytecode_offset\":1,\"source_position\":-7,\"is_statement\":true\x7d]\x7d\x7d" := by
  cbv

end BytecodeAssembler.JsonForm
