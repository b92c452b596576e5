import BytecodeAssembler.Json.Token

/-! # Reading JSON documents

The tokens are read one at a time with a stack of the arrays and objects that are still open, so
documents of any depth can be read.
-/
namespace BytecodeAssembler.Json

/-- An open array with its items so far, or an open object with its members so far and the name of
the member being read; both in reverse. -/
inductive Container
  | array (rev : List Json)
  | object (rev : List (List Char × Json)) (name : List Char)

/-- What may come next. -/
inductive Due
  | value
  /-- The first item of the innermost array, or its end. -/
  | item
  /-- A name; or, before the first, the end of the object. -/
  | name (rev : List (List Char × Json))
  | colon (rev : List (List Char × Json)) (name : List Char)
  /-- The value is complete, so its container goes on or ends. -/
  | next (value : Json)

structure Reader where
  containers : List Container
  due : Due

namespace Reader

def readValue (open_ : List Container) : Token → Option Reader
  | .scalar v => some ⟨open_, .next v⟩
  | .string raw => some ⟨open_, .next (.string raw)⟩
  | .openArray => some ⟨.array [] :: open_, .item⟩
  | .openObject => some ⟨open_, .name []⟩
  | _ => none

def readNext (value : Json) : List Container → Token → Option Reader
  | .array rev :: open_, .comma => some ⟨.array (value :: rev) :: open_, .value⟩
  | .array rev :: open_, .closeArray => some ⟨open_, .next (.array (value :: rev).reverse)⟩
  | .object rev name :: open_, .comma => some ⟨open_, .name ((name, value) :: rev)⟩
  | .object rev name :: open_, .closeObject =>
    some ⟨open_, .next (.object ((name, value) :: rev).reverse)⟩
  | _, _ => none

def step (r : Reader) (t : Token) : Option Reader :=
  match r.due, t with
  | .value, t => readValue r.containers t
  | .item, .closeArray => some ⟨r.containers.tail, .next (.array [])⟩
  | .item, t => readValue r.containers t
  | .name [], .closeObject => some ⟨r.containers, .next (.object [])⟩
  | .name rev, .string name => some ⟨r.containers, .colon rev name⟩
  | .colon rev name, .colon => some ⟨.object rev name :: r.containers, .value⟩
  | .next v, t => readNext v r.containers t
  | _, _ => none

def finish : Reader → Option Json
  | ⟨[], .next v⟩ => some v
  | _ => none

end Reader

def ofTokens? (ts : List Token) : Option Json :=
  (ts.foldlM Reader.step ⟨[], .value⟩).bind Reader.finish

/-- The document that a text holds, with nothing but blanks around it. -/
def ofChars? (cs : List Char) : Option Json := (Token.ofChars? cs).bind ofTokens?

end BytecodeAssembler.Json
