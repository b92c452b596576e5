import BytecodeAssembler.AssemblyError

/-! # Source maps

A source map lists, by rising code offset, which source position the code at an offset comes from.
`PositionTable.find?` looks an offset up by halving; `PositionTable.lastAtMost?` states the answer
for an ordered table. A `PositionLog` collects the entries and refuses one behind a later offset.
-/
namespace BytecodeAssembler

structure SourcePosition where
  position : Int32
  isStatement : Bool
  deriving DecidableEq, Inhabited

structure PositionEntry where
  offset : UInt32
  position : Int32
  isStatement : Bool
  deriving DecidableEq, Inhabited

/-- Entries in the order they were recorded. A table that was read back may be out of order. -/
structure PositionTable where
  entries : Array PositionEntry
  deriving DecidableEq, Inhabited

namespace PositionTable

def length (t : PositionTable) : Nat := t.entries.size

def isEmpty (t : PositionTable) : Bool := t.entries.isEmpty

def startsBy (t : PositionTable) (offset : UInt32) (index : Nat) : Bool :=
  t.entries[index]?.any fun e => e.offset ≤ offset

/-- Halves the window of `size` indexes from `base` on until one is left, keeping the upper half
whenever its first index passes the test. -/
def narrow (test : Nat → Bool) (base size : Nat) : Nat :=
  if size ≤ 1 then base
  else
    let half := size / 2
    narrow test (if test (base + half) then base + half else base) (size - half)
termination_by size

/-- The entry that covers an offset: the last one that starts there or before. -/
def find? (t : PositionTable) (offset : UInt32) : Option PositionEntry :=
  let index := narrow (t.startsBy offset) 0 t.length
  if t.startsBy offset index then t.entries[index]? else
    if index = 0 then none else t.entries[index - 1]?

/-- The last entry, in table order, that starts at the offset or before. -/
def lastAtMost? (t : PositionTable) (offset : UInt32) : Option PositionEntry :=
  t.entries.toList.reverse.find? fun e => e.offset ≤ offset

end PositionTable

/-- Whether a log keeps the positions it is given. -/
inductive PositionMode
  | record | omit
  deriving DecidableEq, Inhabited

namespace PositionMode

def all : List PositionMode := [.record, .omit]

def name : PositionMode → String
  | .record => "Record" | .omit => "Omit"

end PositionMode

structure PositionLog where
  mode : PositionMode
  entries : Array PositionEntry
  deriving DecidableEq, Inhabited

namespace PositionLog

def empty (mode : PositionMode) : PositionLog := ⟨mode, #[]⟩

/-- The offset recorded last, if one in front of it would be out of order. -/
def later? (log : PositionLog) (offset : UInt32) : Option UInt32 :=
  match log.mode with
  | .omit => none
  | .record => (log.entries.back?.map (·.offset)).filter (offset < ·)

def push (log : PositionLog) (offset : UInt32) (p : SourcePosition) : PositionLog :=
  match log.mode with
  | .omit => log
  | .record => { log with entries := log.entries.push ⟨offset, p.position, p.isStatement⟩ }

/-- Offsets never fall from one kept entry to the next. -/
def add (log : PositionLog) (offset : UInt32) (p : SourcePosition) :
    Except AssemblyError PositionLog :=
  match log.later? offset with
  | some last => .error (.positionOrder offset last)
  | none => .ok (log.push offset p)

def table (log : PositionLog) : PositionTable := ⟨log.entries⟩

end PositionLog
end BytecodeAssembler
