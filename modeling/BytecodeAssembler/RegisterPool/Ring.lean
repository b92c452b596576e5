import BytecodeAssembler.RegisterPool.State

/-! # Rings of a register pool

The members of a class are met by following `next` around its ring. The queries answer which of them
can stand in for a register.
-/
namespace BytecodeAssembler.RegisterPool

/-- The nodes from `s` on until `next` leads back to `start`, at most `bound` of them. -/
def ringFrom (p : RegisterPool) (start : Slot) : Nat → Slot → Except Fault (List (Slot × Node))
  | 0, _ => .ok []
  | bound + 1, s => do
    let n ← p.node s
    if n.next = start then return [(s, n)]
    return (s, n) :: (← ringFrom p start bound n.next)

/-- The ring of a node from that node on. A ring that closes has at most one node per slot. -/
def ring (p : RegisterPool) (s : Slot) : Except Fault (List (Slot × Node)) :=
  p.ringFrom s (p.slots.size + 1) s

def members (p : RegisterPool) (s : Slot) : Except Fault (List Slot) :=
  (p.ring s).map (·.map (·.1))

def sameClass (p : RegisterPool) (s t : Slot) : Except Fault Bool := do
  let n ← p.node s
  let m ← p.node t
  return n.classId == m.classId

/-- Another node of the class, or the node itself if it is alone. -/
def equivalent (p : RegisterPool) (s : Slot) : Except Fault Slot := (p.node s).map (·.next)

def materialized? (p : RegisterPool) (s : Slot) : Except Fault (Option Slot) :=
  (p.ring s).map fun ms => (ms.find? (·.2.materialized)).map (·.1)

def materializedOtherThan? (p : RegisterPool) (s : Slot) (r : Register) :
    Except Fault (Option Slot) :=
  (p.ring s).map fun ms =>
    (ms.find? fun m => m.2.materialized && m.2.register != r).map (·.1)

/-- The allocated node with the lowest register, the first of them if there are several. There is none
as soon as a node is materialized. `best` is the best of the nodes passed so far. -/
def cheapest? (best : Option (Slot × Node)) : List (Slot × Node) → Option (Slot × Node)
  | [] => best
  | m :: ms =>
    if m.2.materialized then none
    else if m.2.allocated && best.all fun b => m.2.register < b.2.register then
      cheapest? (some m) ms
    else cheapest? best ms

/-- The node of the class to materialize next: the cheapest of the others, unless one of them is
materialized already. -/
def toMaterialize? (p : RegisterPool) (s : Slot) : Except Fault (Option Slot) :=
  (p.ring s).map fun ms => (cheapest? none ms.tail).map (·.1)

end BytecodeAssembler.RegisterPool
