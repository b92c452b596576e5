/-! # JSON documents

A document keeps its numbers and strings as they are written, a string without its quotes. So every
document has one compact text, and what a literal means is asked separately.
-/
namespace BytecodeAssembler

inductive Json
  | null
  | bool (b : Bool)
  | number (literal : List Char)
  | string (raw : List Char)
  | array (items : List Json)
  | object (members : List (List Char × Json))
  deriving Inhabited

namespace Json

def chars : Json → List Char
  | .null => ['n', 'u', 'l', 'l']
  | .bool true => ['t', 'r', 'u', 'e']
  | .bool false => ['f', 'a', 'l', 's', 'e']
  | .number literal => literal
  | .string raw => '"' :: raw ++ ['"']
  | .array items => '[' :: [','].intercalate (items.map fun j => chars j) ++ [']']
  | .object members =>
    '\x7b' :: [','].intercalate (members.map fun m => '"' :: m.1 ++ '"' :: ':' :: chars m.2) ++
      ['\x7d']
decreasing_by
  · rename_i h
    have := List.sizeOf_lt_of_mem h
    simp; omega
  · rename_i h
    have := List.sizeOf_lt_of_mem h
    cases m
    simp at this ⊢; omega

def text (j : Json) : String := .ofList j.chars

end Json
end BytecodeAssembler
