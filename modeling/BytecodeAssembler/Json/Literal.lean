import BytecodeAssembler.Json.Document

/-! # JSON literals

The grammar of numbers and of escapes in strings, and the integers and texts that literals stand
for. An integer is written without fraction and exponent, and zero without a sign.
-/
namespace BytecodeAssembler.Json

/-- An integer part has a digit, and no zero in front of others. -/
def isIntegerPart : List Char → Bool
  | [] => false
  | ['0'] => true
  | c :: cs => c != '0' && (c :: cs).all Char.isDigit

def isDigits (cs : List Char) : Bool := !cs.isEmpty && cs.all Char.isDigit

def isExponent : List Char → Bool
  | '+' :: cs | '-' :: cs => isDigits cs
  | cs => isDigits cs

/-- What follows the integer part of a number. -/
def isNumberTail : List Char → Bool
  | [] => true
  | '.' :: cs =>
    isDigits (cs.takeWhile Char.isDigit) &&
      match cs.dropWhile Char.isDigit with
      | [] => true
      | c :: cs => (c == 'e' || c == 'E') && isExponent cs
  | c :: cs => (c == 'e' || c == 'E') && isExponent cs

def isUnsignedNumber (cs : List Char) : Bool :=
  isIntegerPart (cs.takeWhile Char.isDigit) && isNumberTail (cs.dropWhile Char.isDigit)

def isNumber : List Char → Bool
  | '-' :: cs => isUnsignedNumber cs
  | cs => isUnsignedNumber cs

def natLiteral? (cs : List Char) : Option Nat :=
  if isIntegerPart cs then some (Nat.ofDigitChars 10 cs 0) else none

def intLiteral? : List Char → Option Int
  | '-' :: cs => (natLiteral? cs).bind fun n => if n = 0 then none else some (-n)
  | cs => (natLiteral? cs).map Int.ofNat

def intLiteral : Int → List Char
  | .ofNat n => Nat.toDigits 10 n
  | .negSucc n => '-' :: Nat.toDigits 10 (n + 1)

def hexDigit? (c : Char) : Option Nat :=
  if c.isDigit then some (c.toNat - 48)
  else if 'a' ≤ c ∧ c ≤ 'f' then some (c.toNat - 87)
  else if 'A' ≤ c ∧ c ≤ 'F' then some (c.toNat - 55)
  else none

/-- The 16-bit unit that four hexadecimal digits spell. -/
def unit? (a b c d : Char) : Option Nat := do
  return ((← hexDigit? a) * 16 + (← hexDigit? b)) * 256 + ((← hexDigit? c) * 16 + (← hexDigit? d))

def escapes : List (Char × Char) :=
  [('"', '"'), ('\\', '\\'), ('/', '/'), ('b', '\x08'), ('f', '\x0c'), ('n', '\n'), ('r', '\r'),
   ('t', '\t')]

/-- Every backslash begins an escape. -/
def isEscaped : List Char → Bool
  | '\\' :: 'u' :: a :: b :: c :: d :: cs => (unit? a b c d).isSome && isEscaped cs
  | '\\' :: c :: cs => (escapes.lookup c).isSome && isEscaped cs
  | '\\' :: [] => false
  | _ :: cs => isEscaped cs
  | [] => true

/-- Two units of a surrogate pair make one character; a surrogate alone makes none. -/
def unescape? : List Char → Option (List Char)
  | '\\' :: 'u' :: a :: b :: c :: d :: cs => do
    let high ← unit? a b c d
    if 0xD800 ≤ high ∧ high < 0xDC00 then
      match cs with
      | '\\' :: 'u' :: a :: b :: c :: d :: cs =>
        let low ← unit? a b c d
        if 0xDC00 ≤ low ∧ low < 0xE000 then
          (unescape? cs).map (Char.ofNat (0x10000 + (high - 0xD800) * 0x400 + (low - 0xDC00)) :: ·)
        else none
      | _ => none
    else if 0xDC00 ≤ high ∧ high < 0xE000 then none
    else (unescape? cs).map (Char.ofNat high :: ·)
  | '\\' :: c :: cs => (escapes.lookup c).bind fun e => (unescape? cs).map (e :: ·)
  | '\\' :: [] => none
  | c :: cs => (unescape? cs).map (c :: ·)
  | [] => some []

/-- A quote and a backslash are escaped, and so are control characters. -/
def escapeChar (c : Char) : List Char :=
  if c == '"' then ['\\', '"']
  else if c == '\\' then ['\\', '\\']
  else if c.toNat < 32 then
    match escapes.find? (·.2 == c) with
    | some (e, _) => ['\\', e]
    | none =>
      ['\\', 'u', '0', '0', Nat.digitChar (c.toNat / 16), Nat.digitChar (c.toNat % 16)]
  else [c]

def ofText (s : String) : Json := .string (s.toList.flatMap escapeChar)

def ofInt (n : Int) : Json := .number (intLiteral n)

def text? : Json → Option String
  | .string raw => (unescape? raw).map String.ofList
  | _ => none

def int? : Json → Option Int
  | .number literal => intLiteral? literal
  | _ => none

end BytecodeAssembler.Json
