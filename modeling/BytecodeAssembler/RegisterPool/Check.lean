import BytecodeAssembler.RegisterPool.State

/-! # Checking a register pool

The check passes through the nodes by rising slot and reports the first damage: a link that is dead
or not linked back, a ring of two classes, a ring that does not close, a class of two rings.
-/
namespace BytecodeAssembler.RegisterPool

def linkDefect? (p : RegisterPool) (s : Slot) (n : Node) : Option RingDefect :=
  match p.node? n.next, p.node? n.prev with
  | some next, some prev =>
    if next.prev ≠ s ∨ prev.next ≠ s then some (.notLinkedBack s)
    else if next.classId ≠ n.classId then some (.mixedClasses s n.next)
    else none
  | _, _ => some (.deadLink s)

/-- The least slot on the way from `cursor` to `start`, or the way's defect if it does not get there
in `bound` steps. -/
def leastOnRing (p : RegisterPool) (start : Slot) :
    Nat → Slot → Slot → Except RingDefect Slot
  | bound, least, cursor =>
    if cursor = start then .ok least
    else
      match bound, p.node? cursor with
      | 0, _ => .error (.neverCloses start)
      | _ + 1, none => .error (.broken start)
      | bound + 1, some n =>
        leastOnRing p start bound (if cursor < least then cursor else least) n.next

/-- Checks the nodes in order. The least slot of a ring stands for it, and `seen` holds the ring of
each class met so far. -/
def checkNodes (p : RegisterPool) :
    List (ClassId × Slot) → List (Slot × Node) → Except RingDefect Unit
  | _, [] => .ok ()
  | seen, (s, n) :: rest =>
    match p.linkDefect? s n with
    | some d => .error d
    | none => do
      let least ← p.leastOnRing s p.length s n.next
      match seen.lookup n.classId with
      | some other =>
        if other = least then checkNodes p seen rest else .error (.splitClass n.classId)
      | none => checkNodes p ((n.classId, least) :: seen) rest

def check (p : RegisterPool) : Except AssemblyError Unit :=
  (p.checkNodes [] p.nodes).mapError .corruptRing

end BytecodeAssembler.RegisterPool
