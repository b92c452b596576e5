import BytecodeAssembler.AssemblyError

/-! # The state of a register pool

A pool holds one node for each tracked register. Nodes live in numbered slots, and a freed slot is
the first to be used again. Registers that hold the same value form a class, whose nodes are linked
into a ring by slot. A step that meets a slot without a node stops there, and what it changed before
stays changed.
-/
namespace BytecodeAssembler

abbrev Slot := Nat
abbrev ClassId := UInt32

namespace RegisterPool

structure Node where
  register : Register
  classId : ClassId
  materialized : Bool
  allocated : Bool
  needsFlush : Bool
  next : Slot
  prev : Slot
  deriving DecidableEq

inductive Fault
  | stale (slot : Slot)
  | internal (fault : InternalFault)
  deriving DecidableEq

def Fault.message : Fault → String
  | .stale s => s!"stale register info handle {handleText s}"
  | .internal fault => (AssemblyError.internal fault).message

end RegisterPool

structure RegisterPool where
  slots : Array (Option RegisterPool.Node)
  /-- Freed slots, the latest first. -/
  free : List Slot
  index : List (Register × Slot)
  nextClass : ClassId
  deriving DecidableEq

namespace RegisterPool

abbrev Step := EStateM Fault RegisterPool

def empty : RegisterPool := ⟨#[], [], [], 0⟩

instance : Inhabited RegisterPool := ⟨empty⟩

def length (p : RegisterPool) : Nat := p.index.length

def isEmpty (p : RegisterPool) : Bool := p.index.isEmpty

def slotOf? (p : RegisterPool) (r : Register) : Option Slot := p.index.lookup r

def node? (p : RegisterPool) (s : Slot) : Option Node := p.slots[s]?.join

def isLive (p : RegisterPool) (s : Slot) : Bool := (p.node? s).isSome

def node (p : RegisterPool) (s : Slot) : Except Fault Node :=
  match p.node? s with
  | some n => .ok n
  | none => .error (.stale s)

def nodes (p : RegisterPool) : List (Slot × Node) :=
  p.slots.toList.zipIdx.filterMap fun (n, s) => n.map (s, ·)

def setNode (p : RegisterPool) (s : Slot) (n : Option Node) : RegisterPool :=
  { p with slots := p.slots.setIfInBounds s n }

theorem node?_setNode (p : RegisterPool) (s t : Slot) (n : Option Node) :
    (p.setNode s n).node? t = if s = t ∧ t < p.slots.size then n else p.node? t := by
  simp only [node?, setNode, Array.getElem?_setIfInBounds]
  by_cases hst : s = t
  · by_cases ht : t < p.slots.size <;> simp [hst, ht]
  · simp [hst]

theorem isLive_iff {p : RegisterPool} {s : Slot} : p.isLive s ↔ ∃ n, p.node? s = some n := by
  simp [isLive, Option.isSome_iff_exists]

namespace Step

def node (s : Slot) : Step Node := do
  match (← get).node s with
  | .ok n => pure n
  | .error e => throw e

def update (s : Slot) (f : Node → Node) : Step Unit := do
  let n ← node s
  modify (·.setNode s (some (f n)))

theorem run_node (s : Slot) (p : RegisterPool) :
    (node s).run p = match p.node? s with
      | some n => .ok n p
      | none => .error (.stale s) p := by
  simp only [node, RegisterPool.node, EStateM.run_bind, EStateM.run_get]
  cases p.node? s <;> rfl

theorem run_update (s : Slot) (f : Node → Node) (p : RegisterPool) :
    (update s f).run p = match p.node? s with
      | some n => .ok () (p.setNode s (some (f n)))
      | none => .error (.stale s) p := by
  simp only [update, EStateM.run_bind, run_node]
  cases p.node? s <;> rfl

end Step
end RegisterPool
end BytecodeAssembler
