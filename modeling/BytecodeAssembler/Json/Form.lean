import BytecodeAssembler.Json.Reader
import BytecodeAssembler.Assembler.State

/-! # JSON forms

How the types of the library are written as JSON and read back. A record is an object with its
fields in order; it is read from an object that has each field once, whatever else it has, or from
the array of the fields. A value without data is its name, or an object that gives the name null.
-/
namespace BytecodeAssembler

class JsonForm (α : Type) where
  toJson : α → Json
  ofJson? : Json → Option α

namespace JsonForm

def render {α : Type} [JsonForm α] (x : α) : String := (toJson x).text

def parse? {α : Type} [JsonForm α] (s : String) : Option α := (Json.ofChars? s.toList).bind ofJson?

def nullaryName? : Json → Option String
  | .object [(name, .null)] => Json.text? (.string name)
  | j => j.text?

@[reducible] def ofNames {α : Type} (all : List α) (name : α → String) : JsonForm α where
  toJson x := .ofText (name x)
  ofJson? j := (nullaryName? j).bind fun s => all.find? (name · == s)

def natBelow? (bound : Nat) (j : Json) : Option Nat :=
  j.int?.bind fun n => if 0 ≤ n ∧ n < bound then some n.toNat else none

def record (fields : List (String × Json)) : Json :=
  .object (fields.map fun f => (f.1.toList.flatMap Json.escapeChar, f.2))

/-- The member of this name, if there is exactly one. -/
def member? (members : List (String × Json)) (name : String) : Option Json :=
  match members.filter (·.1 == name) with
  | [m] => some m.2
  | _ => none

/-- The values of the named fields, in the order of the names. -/
def fields? (names : List String) : Json → Option (List Json)
  | .array items => if items.length = names.length then some items else none
  | .object members => do
    let members ← members.mapM fun m => (Json.text? (.string m.1)).map (·, m.2)
    names.mapM (member? members)
  | _ => none

instance : JsonForm Bool where
  toJson := .bool
  ofJson?
    | .bool b => some b
    | _ => none

instance : JsonForm UInt8 where
  toJson n := .ofInt n.toNat
  ofJson? j := (natBelow? UInt8.size j).map UInt8.ofNat

instance : JsonForm UInt16 where
  toJson n := .ofInt n.toNat
  ofJson? j := (natBelow? UInt16.size j).map UInt16.ofNat

instance : JsonForm UInt32 where
  toJson n := .ofInt n.toNat
  ofJson? j := (natBelow? UInt32.size j).map UInt32.ofNat

instance : JsonForm Int32 where
  toJson n := .ofInt n.toInt
  ofJson? j := j.int?.bind fun n =>
    if -2147483648 ≤ n ∧ n < 2147483648 then some (Int32.ofInt n) else none

instance {α : Type} [JsonForm α] : JsonForm (Array α) where
  toJson xs := .array (xs.toList.map toJson)
  ofJson?
    | .array items => (items.mapM ofJson?).map List.toArray
    | _ => none

instance : JsonForm Opcode := ofNames Opcode.all Opcode.name
instance : JsonForm AccumulatorUse := ofNames AccumulatorUse.all AccumulatorUse.name
instance : JsonForm Scale := ofNames Scale.all Scale.name
instance : JsonForm Width := ofNames Width.all Width.name
instance : JsonForm OperandKind := ofNames OperandKind.all OperandKind.name
instance : JsonForm PositionMode := ofNames PositionMode.all PositionMode.name

instance : JsonForm Register where
  toJson r := toJson r.index
  ofJson? j := (ofJson? j).map Register.mk

instance : JsonForm SourceInfo where
  toJson
    | .absent => .ofText "Invalid"
    | .expression p => record [("Expression", toJson p)]
    | .statement p => record [("Statement", toJson p)]
  ofJson? j :=
    if nullaryName? j = some "Invalid" then some .absent
    else match j with
      | .object [(name, value)] => do
        let name ← Json.text? (.string name)
        if name = "Expression" then return .expression (← ofJson? value)
        if name = "Statement" then return .statement (← ofJson? value)
        none
      | _ => none

instance : JsonForm SourcePosition where
  toJson p := record [("position", toJson p.position), ("is_statement", toJson p.isStatement)]
  ofJson? j := do
    match ← fields? ["position", "is_statement"] j with
    | [position, isStatement] => return ⟨← ofJson? position, ← ofJson? isStatement⟩
    | _ => none

instance : JsonForm PositionEntry where
  toJson e := record [("bytecode_offset", toJson e.offset), ("source_position", toJson e.position),
    ("is_statement", toJson e.isStatement)]
  ofJson? j := do
    match ← fields? ["bytecode_offset", "source_position", "is_statement"] j with
    | [offset, position, isStatement] =>
      return ⟨← ofJson? offset, ← ofJson? position, ← ofJson? isStatement⟩
    | _ => none

instance : JsonForm PositionTable where
  toJson t := record [("entries", toJson t.entries)]
  ofJson? j := do
    match ← fields? ["entries"] j with
    | [entries] => return ⟨← ofJson? entries⟩
    | _ => none

instance : JsonForm Options where
  toJson o := record [("elide_noneffectful_bytecodes", toJson o.elideDeadLoads),
    ("source_positions", toJson o.positions)]
  ofJson? j := do
    match ← fields? ["elide_noneffectful_bytecodes", "source_positions"] j with
    | [elide, positions] => return ⟨← ofJson? elide, ← ofJson? positions⟩
    | _ => none

instance : JsonForm Bytecode where
  toJson b := record [("bytecodes", toJson b.code), ("source_positions", toJson b.positions)]
  ofJson? j := do
    match ← fields? ["bytecodes", "source_positions"] j with
    | [code, positions] => return ⟨← ofJson? code, ← ofJson? positions⟩
    | _ => none

end JsonForm
end BytecodeAssembler
