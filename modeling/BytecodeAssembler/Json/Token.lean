import BytecodeAssembler.Json.Literal

/-! # JSON tokens

The text is cut into tokens one character at a time. A run of characters that are neither blank nor
punctuation nor quoted is one word, and only a number or one of the three names is a word.
-/
namespace BytecodeAssembler.Json

inductive Token
  | openArray | closeArray | openObject | closeObject | comma | colon
  | string (raw : List Char)
  | scalar (value : Json)

namespace Token

def isBlank (c : Char) : Bool := c == ' ' || c == '\n' || c == '\t' || c == '\r'

def punctuation? : Char → Option Token
  | '[' => some .openArray
  | ']' => some .closeArray
  | '\x7b' => some .openObject
  | '\x7d' => some .closeObject
  | ',' => some .comma
  | ':' => some .colon
  | _ => none

def ofWord? (w : List Char) : Option Token :=
  if w == ['n', 'u', 'l', 'l'] then some (.scalar .null)
  else if w == ['t', 'r', 'u', 'e'] then some (.scalar (.bool true))
  else if w == ['f', 'a', 'l', 's', 'e'] then some (.scalar (.bool false))
  else if isNumber w then some (.scalar (.number w))
  else none

def ofQuoted? (raw : List Char) : Option Token :=
  if isEscaped raw then some (.string raw) else none

/-- What the character read last belongs to, with its characters so far in reverse. -/
inductive Scan
  | between
  | word (rev : List Char)
  | quoted (rev : List Char)
  | escape (rev : List Char)

/-- The tokens read so far in reverse, and the one being read. -/
structure Lexer where
  tokens : List Token
  scan : Scan

namespace Lexer

/-- Reads a character that begins something new. -/
def begin (tokens : List Token) (c : Char) : Lexer :=
  if isBlank c then ⟨tokens, .between⟩
  else if c == '"' then ⟨tokens, .quoted []⟩
  else match punctuation? c with
    | some t => ⟨t :: tokens, .between⟩
    | none => ⟨tokens, .word [c]⟩

def endsWord (c : Char) : Bool := isBlank c || c == '"' || (punctuation? c).isSome

def step (l : Lexer) (c : Char) : Option Lexer :=
  match l.scan with
  | .between => some (begin l.tokens c)
  | .word rev =>
    if endsWord c then (ofWord? rev.reverse).map fun t => begin (t :: l.tokens) c
    else some ⟨l.tokens, .word (c :: rev)⟩
  | .quoted rev =>
    if c == '"' then (ofQuoted? rev.reverse).map fun t => ⟨t :: l.tokens, .between⟩
    else if c.toNat < 32 then none
    else if c == '\\' then some ⟨l.tokens, .escape (c :: rev)⟩
    else some ⟨l.tokens, .quoted (c :: rev)⟩
  | .escape rev => some ⟨l.tokens, .quoted (c :: rev)⟩

def finish (l : Lexer) : Option (List Token) :=
  match l.scan with
  | .between => some l.tokens.reverse
  | .word rev => (ofWord? rev.reverse).map fun t => (t :: l.tokens).reverse
  | .quoted _ | .escape _ => none

end Lexer

def ofChars? (cs : List Char) : Option (List Token) :=
  (cs.foldlM Lexer.step ⟨[], .between⟩).bind Lexer.finish

end Token
end BytecodeAssembler.Json
