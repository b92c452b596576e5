import BytecodeAssembler.RegisterPool.State

/-! # Operations on a register pool

Tracking and releasing registers, and moving a node from one ring to another. A node that moves is
unlinked first, so its old ring closes behind it; a node that joins a class comes right behind the
node it joins.
-/
namespace BytecodeAssembler.RegisterPool

namespace Step

/-- Class ids count up and start over after the largest. -/
def freshClass : Step ClassId := do
  let id := (← get).nextClass
  modify fun p => { p with nextClass := id + 1 }
  return id

/-- Takes the slot freed last, or a new one. -/
def takeSlot : Step Slot := do
  match (← get).free with
  | s :: rest =>
    modify fun p => { p with free := rest }
    return s
  | [] =>
    let s := (← get).slots.size
    modify fun p => { p with slots := p.slots.push none }
    return s

def insert (r : Register) (id : ClassId) (materialized allocated : Bool) : Step Slot := do
  if ((← get).slotOf? r).isSome then throw (.internal (.alreadyTracked r))
  let s ← takeSlot
  modify (·.setNode s (some ⟨r, id, materialized, allocated, false, s, s⟩))
  modify fun p => { p with index := (r, s) :: p.index }
  return s

/-- Links the neighbours of a node to each other. Its own links stay. -/
def unlink (s : Slot) : Step Unit := do
  let n ← node s
  update n.next fun m => { m with prev := n.prev }
  update n.prev fun m => { m with next := n.next }

def free (s : Slot) : Step Unit := do
  unlink s
  let n ← node s
  modify fun p => { p with index := p.index.filter (·.1 != n.register) }
  modify (·.setNode s none)
  modify fun p => { p with free := s :: p.free }

/-- Moves a node to the class of `target`, right behind it, as a copy. -/
def join (s target : Slot) : Step Unit := do
  if s = target then
    update s fun n => { n with materialized := false }
  else
    unlink s
    let after := (← node target).next
    update s fun n => { n with prev := target, next := after }
    update target fun n => { n with next := s }
    update after fun n => { n with prev := s }
    let id := (← node target).classId
    update s fun n => { n with classId := id, materialized := false }

def split (s : Slot) (id : ClassId) (materialized : Bool) : Step Unit := do
  unlink s
  update s fun n => { n with next := s, prev := s }
  update s fun n => { n with classId := id, materialized := materialized }

def setMaterialized (s : Slot) (b : Bool) : Step Unit :=
  update s fun n => { n with materialized := b }

def setAllocated (s : Slot) (b : Bool) : Step Unit :=
  update s fun n => { n with allocated := b }

def setNeedsFlush (s : Slot) (b : Bool) : Step Unit :=
  update s fun n => { n with needsFlush := b }

end Step

inductive Call
  | freshClass
  | insert (r : Register) (id : ClassId) (materialized allocated : Bool)
  | free (s : Slot)
  | join (s target : Slot)
  | split (s : Slot) (id : ClassId) (materialized : Bool)
  | setMaterialized (s : Slot) (b : Bool)
  | setAllocated (s : Slot) (b : Bool)
  | setNeedsFlush (s : Slot) (b : Bool)
  deriving DecidableEq

inductive Reply
  | done
  | classId (id : ClassId)
  | slot (s : Slot)
  deriving DecidableEq

def Call.perform : Call → Step Reply
  | .freshClass => do return .classId (← Step.freshClass)
  | .insert r id materialized allocated => do
    return .slot (← Step.insert r id materialized allocated)
  | .free s => do Step.free s; return .done
  | .join s target => do Step.join s target; return .done
  | .split s id materialized => do Step.split s id materialized; return .done
  | .setMaterialized s b => do Step.setMaterialized s b; return .done
  | .setAllocated s b => do Step.setAllocated s b; return .done
  | .setNeedsFlush s b => do Step.setNeedsFlush s b; return .done

def step (p : RegisterPool) (c : Call) : Except Fault Reply × RegisterPool :=
  match c.perform.run p with
  | .ok r p => (.ok r, p)
  | .error e p => (.error e, p)

def run (p : RegisterPool) : List Call → List (Except Fault Reply) × RegisterPool
  | [] => ([], p)
  | c :: cs =>
    let (r, p) := p.step c
    let (rs, p) := run p cs
    (r :: rs, p)

end BytecodeAssembler.RegisterPool
