import BytecodeAssembler.Proofs.RegisterPool.Updates
import Mathlib.Data.List.Nodup

/-! # Slots, free list and index

In a pool that is well stored the index lists the register of each live node with its slot, and the
free list the slots without a node. Adjusting nodes keeps this as long as they keep their registers;
the steps that track and release registers keep it too.
-/
namespace BytecodeAssembler.RegisterPool
variable {p : RegisterPool} {s t : Slot} {n : Node} {r : Register}

theorem mem_nodes : (s, n) ∈ p.nodes ↔ p.node? s = some n := by
  simp only [nodes, List.mem_filterMap, node?, Prod.exists, List.mem_zipIdx_iff_getElem?,
    Array.getElem?_toList, Option.map_eq_some_iff, Prod.mk.injEq, Option.join_eq_some_iff]
  constructor
  · rintro ⟨_, _, hs, m, rfl, rfl, rfl⟩
    exact hs
  · intro hs
    exact ⟨some n, s, hs, n, rfl, rfl, rfl⟩

structure Stored (p : RegisterPool) : Prop where
  mem_index : ∀ r s, (r, s) ∈ p.index ↔ ∃ n, p.node? s = some n ∧ n.register = r
  registers : (p.index.map (·.1)).Nodup
  mem_free : ∀ s, s ∈ p.free ↔ s < p.slots.size ∧ p.node? s = none
  free : p.free.Nodup

theorem stored_empty : Stored empty := by
  refine ⟨?_, .nil, ?_, .nil⟩
  · intro r s
    simp [empty, node?]
  · intro s
    simp [empty]

theorem Stored.slot_unique (h : Stored p) (hs : (r, s) ∈ p.index) (ht : (r, t) ∈ p.index) :
    s = t := by
  have hpair := List.inj_on_of_nodup_map h.registers hs ht rfl
  exact congrArg Prod.snd hpair

theorem Stored.adjust (h : Stored p) (s : Slot) {f : Node → Node}
    (hf : ∀ n, (f n).register = n.register) : Stored (p.adjust s f) := by
  refine ⟨?_, ?_, ?_, ?_⟩
  · intro r t
    rw [index_adjust, h.mem_index, node?_adjust]
    split
    next hts => cases p.node? t <;> simp [hf]
    next => rfl
  · rw [index_adjust]
    exact h.registers
  · intro t
    rw [free_adjust, h.mem_free, size_adjust, node?_adjust]
    split
    · rw [Option.map_eq_none_iff]
    · rfl
  · rw [free_adjust]
    exact h.free

theorem Stored.bypass (h : Stored p) (n : Node) : Stored (p.bypass n) := by
  unfold RegisterPool.bypass
  refine Stored.adjust (Stored.adjust h _ ?_) _ ?_
  · exact fun _ => rfl
  · exact fun _ => rfl

theorem Stored.splice (h : Stored p) (s t y : Slot) (id : ClassId) :
    Stored (p.splice s t y id) := by
  unfold RegisterPool.splice
  refine Stored.adjust (Stored.adjust (Stored.adjust (Stored.adjust h _ ?_) _ ?_) _ ?_) _ ?_
  · exact fun _ => rfl
  · exact fun _ => rfl
  · exact fun _ => rfl
  · exact fun _ => rfl

theorem Stored.isolate (h : Stored p) (s : Slot) (id : ClassId) (b : Bool) :
    Stored (p.isolate s id b) := by
  unfold RegisterPool.isolate
  refine Stored.adjust (Stored.adjust h _ ?_) _ ?_
  · exact fun _ => rfl
  · exact fun _ => rfl

def drop (p : RegisterPool) (s : Slot) (r : Register) : RegisterPool :=
  { p.setNode s none with index := p.index.filter (·.1 != r), free := s :: p.free }

theorem node?_drop (p : RegisterPool) (s : Slot) (r : Register) (t : Slot) :
    (p.drop s r).node? t = if t = s then none else p.node? t := by
  show (p.setNode s none).node? t = _
  rw [node?_setNode]
  by_cases hts : t = s
  · subst hts
    by_cases hlt : t < p.slots.size
    · simp [hlt]
    · simp [hlt, node?]
  · simp [hts, Ne.symm hts]

theorem Stored.drop (h : Stored p) (hn : p.node? s = some n) : Stored (p.drop s n.register) := by
  have hs : (n.register, s) ∈ p.index := (h.mem_index _ _).mpr ⟨n, hn, rfl⟩
  refine ⟨?_, ?_, ?_, ?_⟩
  · intro r t
    show (r, t) ∈ p.index.filter (·.1 != n.register) ↔ _
    rw [List.mem_filter, node?_drop, h.mem_index]
    by_cases hts : t = s
    · subst hts
      simp only [hn, Option.some.injEq, exists_eq_left', ↓reduceIte, bne_iff_ne, ne_eq,
        reduceCtorEq, false_and, exists_false, iff_false, not_and, Decidable.not_not]
      exact Eq.symm
    · simp only [hts, ↓reduceIte, bne_iff_ne, ne_eq, and_iff_left_iff_imp]
      rintro ⟨m, hm, rfl⟩ hsame
      exact hts (h.slot_unique ((h.mem_index _ _).mpr ⟨m, hm, hsame⟩) hs)
  · exact h.registers.sublist (List.filter_sublist.map _)
  · intro t
    show t ∈ s :: p.free ↔ t < (p.setNode s none).slots.size ∧ _
    rw [List.mem_cons, node?_drop, h.mem_free]
    have hlt := lt_size_of_node? hn
    by_cases hts : t = s
    · simp [hts, setNode, hlt]
    · simp [hts, setNode]
  · refine List.nodup_cons.mpr ⟨fun hfree => ?_, h.free⟩
    rw [h.mem_free, hn] at hfree
    cases hfree.2

theorem run_free (h : Rings p) (hn : p.node? s = some n) :
    (Step.free s).run p = .ok () ((p.bypass n).drop s n.register) := by
  obtain ⟨n', hn', hr⟩ := exists_node?_bypass hn n
  simp [Step.free, EStateM.run_bind, run_unlink h hn, run_node_of_node? hn', hr, drop, setNode]

theorem RingsBut.drop (h : RingsBut p s) (r : Register) : Rings (p.drop s r) := by
  refine RingsOn.congr h ?_ ?_ ?_
  · intro u hu
    simp [next?, node?_drop, hu]
  · intro u hu
    simp [prev?, node?_drop, hu]
  · intro u id
    by_cases hu : u = s
    · simp [class?, node?_drop, hu]
    · simp [class?, node?_drop, hu]

def reserve (p : RegisterPool) : Slot × RegisterPool :=
  match p.free with
  | s :: rest => (s, { p with free := rest })
  | [] => (p.slots.size, { p with slots := p.slots.push none })

theorem run_takeSlot (p : RegisterPool) : Step.takeSlot.run p = .ok p.reserve.1 p.reserve.2 := by
  unfold Step.takeSlot reserve
  cases hf : p.free with
  | nil => simp only [EStateM.run_bind, EStateM.run_get, EStateM.run_modify, EStateM.run_pure, hf]
  | cons s rest =>
    simp only [EStateM.run_bind, EStateM.run_get, EStateM.run_modify, EStateM.run_pure, hf]

theorem node?_reserve (p : RegisterPool) (t : Slot) : p.reserve.2.node? t = p.node? t := by
  unfold reserve
  split
  · rfl
  · simp only [node?, Array.getElem?_push]
    split
    next h => simp [h]
    next => rfl

@[simp] theorem nextClass_reserve (p : RegisterPool) : p.reserve.2.nextClass = p.nextClass := by
  unfold reserve
  split <;> rfl

theorem Stored.reserve_empty (h : Stored p) :
    p.reserve.1 < p.reserve.2.slots.size ∧ p.node? p.reserve.1 = none := by
  unfold reserve
  split
  next s rest hf => exact (h.mem_free s).mp (by simp [hf])
  next => simp [node?]

theorem Stored.free_reserve (h : Stored p) : p.reserve.2.free.Nodup ∧ ∀ t,
    t ∈ p.reserve.2.free ↔ t ≠ p.reserve.1 ∧ t < p.reserve.2.slots.size ∧ p.node? t = none := by
  unfold reserve
  split
  next s rest hf =>
    have hnodup := h.free
    rw [hf] at hnodup
    obtain ⟨hs, hrest⟩ := List.nodup_cons.mp hnodup
    refine ⟨hrest, fun t => ?_⟩
    rw [← h.mem_free, hf, List.mem_cons]
    constructor
    · intro ht
      refine ⟨?_, .inr ht⟩
      rintro rfl
      exact hs ht
    · rintro ⟨hne, ht⟩
      exact ht.resolve_left hne
  next hf =>
    refine ⟨h.free, fun t => ?_⟩
    rw [h.mem_free, Array.size_push]
    constructor
    · rintro ⟨hlt, ht⟩
      exact ⟨hlt.ne, Nat.lt_succ_of_lt hlt, ht⟩
    · rintro ⟨hne, hlt, ht⟩
      exact ⟨Nat.lt_of_le_of_ne (Nat.le_of_lt_succ hlt) hne, ht⟩

/-- The pool after a node was put into the empty slot `s`. -/
def enter (p : RegisterPool) (s : Slot) (n : Node) : RegisterPool :=
  { p.setNode s (some n) with index := (n.register, s) :: p.index }

theorem Stored.node?_enter (h : Stored p) (n : Node) (t : Slot) :
    (p.reserve.2.enter p.reserve.1 n).node? t =
      if t = p.reserve.1 then some n else p.node? t := by
  obtain ⟨hlt, -⟩ := h.reserve_empty
  show (p.reserve.2.setNode p.reserve.1 (some n)).node? t = _
  rw [node?_setNode, node?_reserve]
  by_cases ht : t = p.reserve.1
  · simp [ht, hlt]
  · simp [ht, Ne.symm ht]

theorem Stored.enter (h : Stored p) (hr : p.slotOf? n.register = none) :
    Stored (p.reserve.2.enter p.reserve.1 n) := by
  obtain ⟨-, hempty⟩ := h.reserve_empty
  have hnode := h.node?_enter n
  have hindex : (p.reserve.2.enter p.reserve.1 n).index =
      (n.register, p.reserve.1) :: p.index := by
    unfold RegisterPool.enter reserve
    split <;> rfl
  have hnew : ∀ s, (n.register, s) ∉ p.index := by
    intro s hs
    have hne := List.lookup_eq_none_iff.mp hr _ hs
    simp at hne
  refine ⟨?_, ?_, ?_, ?_⟩
  · intro r t
    rw [hindex, List.mem_cons, hnode, h.mem_index]
    by_cases ht : t = p.reserve.1
    · simp [ht, hempty, eq_comm]
    · simp [ht]
  · rw [hindex, List.map_cons, List.nodup_cons]
    refine ⟨fun hmem => ?_, h.registers⟩
    obtain ⟨⟨r, s⟩, hs, rfl⟩ := List.mem_map.mp hmem
    exact hnew s hs
  · intro t
    have hsize : (p.reserve.2.enter p.reserve.1 n).slots.size = p.reserve.2.slots.size :=
      Array.size_setIfInBounds
    show t ∈ p.reserve.2.free ↔ _
    rw [hsize, hnode, h.free_reserve.2]
    by_cases ht : t = p.reserve.1
    · simp [ht]
    · simp [ht]
  · exact h.free_reserve.1

/-- A register that is not tracked is entered in the reserved slot, linked to itself. -/
theorem run_insert (hr : p.slotOf? r = none) (id : ClassId) (b allocated : Bool) :
    (Step.insert r id b allocated).run p = .ok p.reserve.1
      (p.reserve.2.enter p.reserve.1
        ⟨r, id, b, allocated, false, p.reserve.1, p.reserve.1⟩) := by
  simp only [Step.insert, EStateM.run_bind, EStateM.run_get, hr, Option.isSome_none,
    Bool.false_eq_true, ↓reduceIte, EStateM.run_pure, run_takeSlot, EStateM.run_modify]
  rfl

theorem run_insert_of_tracked (hr : (p.slotOf? r).isSome) (id : ClassId) (b allocated : Bool) :
    (Step.insert r id b allocated).run p = .error (.internal (.alreadyTracked r)) p := by
  simp [Step.insert, EStateM.run_bind, hr]

theorem Rings.enter (hrings : Rings p) (h : Stored p) (hid : ∀ s, p.class? s ≠ some n.classId)
    (hnext : n.next = p.reserve.1) (hprev : n.prev = p.reserve.1) :
    Rings (p.reserve.2.enter p.reserve.1 n) := by
  obtain ⟨-, hempty⟩ := h.reserve_empty
  have hnode := h.node?_enter n
  have hbut : RingsBut p p.reserve.1 := by
    refine RingsOn.congr hrings (fun _ _ => rfl) (fun _ _ => rfl) fun u id => ?_
    constructor
    · rintro ⟨-, hu⟩
      exact ⟨trivial, hu⟩
    · rintro ⟨-, hu⟩
      refine ⟨?_, hu⟩
      rintro rfl
      simp [class?, hempty] at hu
  refine RingsBut.alone hbut ⟨?_, ?_⟩ ?_ ?_ ?_ ?_ fun u _ => hid u
  · simp [next?, hnode, hnext]
  · simp [prev?, hnode, hprev]
  · intro u hu
    simp [next?, hnode, hu]
  · intro u hu
    simp [prev?, hnode, hu]
  · intro u hu
    simp [class?, hnode, hu]
  · simp [class?, hnode]

end BytecodeAssembler.RegisterPool
