import BytecodeAssembler.Proofs.RegisterPool.Classes
import BytecodeAssembler.RegisterPool.Operations

/-! # What the steps do

Each step that moves nodes, as a function on pools: its run where the nodes it touches are live, and
what becomes of the rings. A step is a sequence of adjustments of single nodes, so its links are read
off by cases on the slot.
-/
namespace BytecodeAssembler.RegisterPool
variable {p : RegisterPool} {s t : Slot} {n m : Node} {id : ClassId}

def adjust (p : RegisterPool) (s : Slot) (f : Node → Node) : RegisterPool :=
  match p.node? s with
  | some n => p.setNode s (some (f n))
  | none => p

theorem lt_size_of_node? (h : p.node? s = some n) : s < p.slots.size := by
  by_contra hs
  simp [node?, hs] at h

theorem node?_adjust (p : RegisterPool) (s : Slot) (f : Node → Node) (t : Slot) :
    (p.adjust s f).node? t = if t = s then (p.node? t).map f else p.node? t := by
  unfold adjust
  cases hs : p.node? s with
  | none =>
    by_cases hts : t = s
    · simp [hts, hs]
    · simp [hts]
  | some n =>
    have hlt := lt_size_of_node? hs
    rw [node?_setNode]
    by_cases hts : t = s
    · simp [hts, hs, hlt]
    · simp [hts, Ne.symm hts]

theorem class?_adjust (p : RegisterPool) (s : Slot) {f : Node → Node}
    (hf : ∀ n, (f n).classId = n.classId) (t : Slot) : (p.adjust s f).class? t = p.class? t := by
  simp only [class?, node?_adjust]
  split
  · simp [Function.comp_def, hf]
  · rfl

@[simp] theorem size_adjust (p : RegisterPool) (s : Slot) (f : Node → Node) :
    (p.adjust s f).slots.size = p.slots.size := by
  unfold adjust
  split
  · simp [setNode]
  · rfl

@[simp] theorem free_adjust (p : RegisterPool) (s : Slot) (f : Node → Node) :
    (p.adjust s f).free = p.free := by
  unfold adjust
  split <;> rfl

@[simp] theorem index_adjust (p : RegisterPool) (s : Slot) (f : Node → Node) :
    (p.adjust s f).index = p.index := by
  unfold adjust
  split <;> rfl

@[simp] theorem nextClass_adjust (p : RegisterPool) (s : Slot) (f : Node → Node) :
    (p.adjust s f).nextClass = p.nextClass := by
  unfold adjust
  split <;> rfl

@[simp] theorem isLive_adjust (p : RegisterPool) (s : Slot) (f : Node → Node) (t : Slot) :
    (p.adjust s f).isLive t = p.isLive t := by
  simp only [isLive, node?_adjust]
  split
  · exact Option.isSome_map
  · rfl

theorem isLive_of_node? (h : p.node? s = some n) : p.isLive s := isLive_iff.mpr ⟨n, h⟩

theorem Linked.isLive (h : p.Linked s t) : p.isLive s ∧ p.isLive t := by
  obtain ⟨n, hn, -⟩ := Option.map_eq_some_iff.mp h.1
  obtain ⟨m, hm, -⟩ := Option.map_eq_some_iff.mp h.2
  exact ⟨isLive_of_node? hn, isLive_of_node? hm⟩

theorem run_update_of_isLive (h : p.isLive s) (f : Node → Node) :
    (Step.update s f).run p = .ok () (p.adjust s f) := by
  obtain ⟨n, hn⟩ := isLive_iff.mp h
  rw [Step.run_update, adjust, hn]

theorem run_node_of_node? (h : p.node? s = some n) : (Step.node s).run p = .ok n p := by
  rw [Step.run_node, h]

theorem RingsOn.neighbour_nodes {on : Slot → Prop} (h : RingsOn p on) (hs : on s)
    (hn : p.node? s = some n) :
    (∃ y, p.node? n.next = some y ∧ on n.next ∧ y.classId = n.classId ∧ y.prev = s) ∧
      ∃ z, p.node? n.prev = some z ∧ on n.prev ∧ z.classId = n.classId ∧ z.next = s := by
  have hy : p.next? s = some n.next := by simp [next?, hn]
  have hz : p.prev? s = some n.prev := by simp [prev?, hn]
  have hid : p.class? s = some n.classId := by simp [class?, hn]
  obtain ⟨⟨hyon, hyclass⟩, hzon, hzclass⟩ := h.neighbours hs hy hz
  obtain ⟨⟨-, hyback⟩, hzback, -⟩ := h.linked hs hy hz
  rw [hid] at hyclass hzclass
  obtain ⟨y, hynode, hyid⟩ := Option.map_eq_some_iff.mp hyclass
  obtain ⟨z, hznode, hzid⟩ := Option.map_eq_some_iff.mp hzclass
  simp only [prev?, hynode, Option.map_some, Option.some.injEq] at hyback
  simp only [next?, hznode, Option.map_some, Option.some.injEq] at hzback
  exact ⟨⟨y, hynode, hyon, hyid, hyback⟩, z, hznode, hzon, hzid, hzback⟩

theorem RingsOn.linked_neighbours {on : Slot → Prop} (h : RingsOn p on) (hs : on s)
    (hn : p.node? s = some n) : p.Linked s n.next ∧ p.Linked n.prev s := by
  have hy : p.next? s = some n.next := by simp [next?, hn]
  have hz : p.prev? s = some n.prev := by simp [prev?, hn]
  exact h.linked hs hy hz

/-- The pool after the neighbours of `n` were linked to each other. -/
def bypass (p : RegisterPool) (n : Node) : RegisterPool :=
  (p.adjust n.next fun m => { m with prev := n.prev }).adjust n.prev fun m =>
    { m with next := n.next }

theorem node?_bypass (p : RegisterPool) (n : Node) (t : Slot) :
    (p.bypass n).node? t = (p.node? t).map fun m =>
      { m with
        next := if t = n.prev then n.next else m.next
        prev := if t = n.next then n.prev else m.prev } := by
  simp only [bypass, node?_adjust]
  cases p.node? t with
  | none => simp
  | some m => split <;> split <;> simp_all

@[simp] theorem class?_bypass (p : RegisterPool) (n : Node) (t : Slot) :
    (p.bypass n).class? t = p.class? t := by
  simp [class?, node?_bypass, Function.comp_def]

theorem exists_node?_bypass (hm : p.node? t = some m) (n : Node) :
    ∃ m', (p.bypass n).node? t = some m' ∧ m'.register = m.register := by
  rw [node?_bypass, hm]
  exact ⟨_, rfl, rfl⟩

@[simp] theorem isLive_bypass (p : RegisterPool) (n : Node) (t : Slot) :
    (p.bypass n).isLive t = p.isLive t := by
  simp [bypass]

theorem run_unlink_of_isLive (hn : p.node? s = some n) (hy : p.isLive n.next)
    (hz : p.isLive n.prev) : (Step.unlink s).run p = .ok () (p.bypass n) := by
  simp [Step.unlink, EStateM.run_bind, run_node_of_node? hn, run_update_of_isLive, hy, hz, bypass]

theorem run_unlink (h : Rings p) (hn : p.node? s = some n) :
    (Step.unlink s).run p = .ok () (p.bypass n) := by
  obtain ⟨⟨y, hy, -⟩, z, hz, -⟩ := h.neighbour_nodes trivial hn
  exact run_unlink_of_isLive hn (isLive_of_node? hy) (isLive_of_node? hz)

theorem next?_bypass_of_ne (hu : t ≠ n.prev) : (p.bypass n).next? t = p.next? t := by
  simp [next?, node?_bypass, hu, Function.comp_def]

theorem prev?_bypass_of_ne (hu : t ≠ n.next) : (p.bypass n).prev? t = p.prev? t := by
  simp [prev?, node?_bypass, hu, Function.comp_def]

theorem linked_bypass (hnext : p.isLive n.next) (hprev : p.isLive n.prev) :
    (p.bypass n).Linked n.prev n.next := by
  obtain ⟨y, hy⟩ := isLive_iff.mp hnext
  obtain ⟨z, hz⟩ := isLive_iff.mp hprev
  constructor
  · simp [next?, node?_bypass, hz]
  · simp [prev?, node?_bypass, hy]

theorem Ring.bypass {c : List Slot} (hc : Ring p c) (h : Rings p) (hn : p.node? s = some n) :
    Ring (p.bypass n) (c.erase s) := by
  obtain ⟨hsy, hzs⟩ := h.linked_neighbours trivial hn
  exact hc.erase hsy hzs (linked_bypass hsy.isLive.2 hzs.isLive.1)
    (fun _ => next?_bypass_of_ne) fun _ => prev?_bypass_of_ne

theorem RingsBut.bypass (h : Rings p) (hn : p.node? s = some n) : RingsBut (p.bypass n) s := by
  obtain ⟨hsy, hzs⟩ := h.linked_neighbours trivial hn
  exact .of_unlink h hsy.1 hzs.2 (linked_bypass hsy.isLive.2 hzs.isLive.1)
    (fun _ => next?_bypass_of_ne) (fun _ => prev?_bypass_of_ne) (class?_bypass p n)

/-- The pool after `s` was linked in between `t` and `y` and took the class `id`, as a copy. -/
def splice (p : RegisterPool) (s t y : Slot) (id : ClassId) : RegisterPool :=
  (((p.adjust s fun n => { n with prev := t, next := y }).adjust t fun n =>
    { n with next := s }).adjust y fun n => { n with prev := s }).adjust s fun n =>
      { n with classId := id, materialized := false }

theorem node?_splice (p : RegisterPool) {s t y : Slot} (id : ClassId) (hst : s ≠ t) (hsy : s ≠ y)
    (u : Slot) :
    (p.splice s t y id).node? u = (p.node? u).map fun m =>
      { m with
        next := if u = s then y else if u = t then s else m.next
        prev := if u = s then t else if u = y then s else m.prev
        classId := if u = s then id else m.classId
        materialized := if u = s then false else m.materialized } := by
  simp only [splice, node?_adjust]
  cases p.node? u with
  | none => simp
  | some m =>
    by_cases hus : u = s
    · subst hus
      simp [hst, hsy]
    · by_cases hut : u = t <;> by_cases huy : u = y <;> simp_all

theorem class?_splice (p : RegisterPool) {s t y : Slot} (id : ClassId) (hst : s ≠ t) (hsy : s ≠ y)
    (u : Slot) : (p.splice s t y id).class? u =
      if u = s then (p.class? u).map fun _ => id else p.class? u := by
  rw [class?, node?_splice p id hst hsy, class?]
  split <;> simp [*, Function.comp_def]

section
variable {y u : Slot}

theorem next?_splice_of_ne (hst : s ≠ t) (hsy : s ≠ y) (hus : u ≠ s) (hut : u ≠ t) :
    (p.splice s t y id).next? u = p.next? u := by
  simp [next?, p.node?_splice id hst hsy, hus, hut, Function.comp_def]

theorem prev?_splice_of_ne (hst : s ≠ t) (hsy : s ≠ y) (hus : u ≠ s) (huy : u ≠ y) :
    (p.splice s t y id).prev? u = p.prev? u := by
  simp [prev?, p.node?_splice id hst hsy, hus, huy, Function.comp_def]

theorem linked_splice (hst : s ≠ t) (hsy : s ≠ y) (hs : p.isLive s) (ht : p.isLive t)
    (hy : p.isLive y) : (p.splice s t y id).Linked t s ∧ (p.splice s t y id).Linked s y := by
  have hnode := p.node?_splice id hst hsy
  obtain ⟨n, hn⟩ := isLive_iff.mp hs
  obtain ⟨m, hm⟩ := isLive_iff.mp ht
  obtain ⟨k, hk⟩ := isLive_iff.mp hy
  refine ⟨⟨?_, ?_⟩, ?_, ?_⟩
  · simp [next?, hnode, hm, hst.symm]
  · simp [prev?, hnode, hn]
  · simp [next?, hnode, hn]
  · simp [prev?, hnode, hk, hsy.symm]

end

/-- The step that joins a class takes the slot behind `t` and the class of `t` once `s` is
unlinked. -/
theorem run_join (h : Rings p) (hn : p.node? s = some n) (hst : s ≠ t)
    (hm : (p.bypass n).node? t = some m) :
    (Step.join s t).run p = .ok () ((p.bypass n).splice s t m.next m.classId) := by
  have hbut : RingsBut (p.bypass n) s := RingsBut.bypass h hn
  obtain ⟨⟨y, hy, -⟩, -⟩ := hbut.neighbour_nodes hst.symm hm
  have hlives : (p.bypass n).isLive s := by simpa using isLive_of_node? hn
  have hlivet := isLive_of_node? hm
  have hlivey := isLive_of_node? hy
  -- `s` takes the class that `t` has after the links were set, which is the one it had before
  obtain ⟨m', hm', hid⟩ : ∃ m', ((((p.bypass n).adjust s fun n =>
      { n with prev := t, next := m.next }).adjust t fun n =>
      { n with next := s }).adjust m.next fun n => { n with prev := s }).node? t = some m' ∧
      m'.classId = m.classId := by
    simp only [node?_adjust, hst.symm, hm, ↓reduceIte, Option.map_some]
    split
    · exact ⟨_, rfl, rfl⟩
    · exact ⟨_, rfl, rfl⟩
  simp [Step.join, hst, EStateM.run_bind, run_unlink h hn, run_node_of_node? hm,
    run_update_of_isLive, hlives, hlivet, hlivey, run_node_of_node? hm', hid, splice]

theorem run_join_self (hs : p.isLive s) :
    (Step.join s s).run p = .ok () (p.adjust s fun n => { n with materialized := false }) := by
  rw [Step.join, if_pos rfl, run_update_of_isLive hs]

theorem RingsBut.linked_behind (h : RingsBut p s) (hm : p.node? t = some m) (hts : t ≠ s) :
    p.Linked t m.next ∧ s ≠ m.next := by
  obtain ⟨⟨y, -, hys, -⟩, -⟩ := h.neighbour_nodes hts hm
  exact ⟨(h.linked_neighbours hts hm).1, hys.symm⟩

theorem RingsBut.splice (h : RingsBut p s) (hn : p.node? s = some n) (hm : p.node? t = some m)
    (hts : t ≠ s) : Rings (p.splice s t m.next m.classId) := by
  obtain ⟨hty, hsy⟩ := h.linked_behind hm hts
  obtain ⟨hin, hout⟩ :=
    linked_splice hts.symm hsy (isLive_of_node? hn) (isLive_of_node? hm) hty.isLive.2
  have hclass := p.class?_splice m.classId hts.symm hsy
  have hid : p.class? t = some m.classId := by simp [class?, hm]
  refine RingsBut.join h hts hid hty hin hout
    (fun _ => next?_splice_of_ne hts.symm hsy) (fun _ => prev?_splice_of_ne hts.symm hsy) ?_ ?_
  · intro u hus
    rw [hclass, if_neg hus]
  · rw [hclass, if_pos rfl, class?, hn, Option.map_some, Option.map_some]

/-- The ring of `t`, read from `t` on, once `s` was linked in. -/
theorem RingsBut.ring_splice {xs : List Slot} (h : RingsBut p s) (hs : p.isLive s)
    (hm : p.node? t = some m) (hts : t ≠ s) (hc : Ring p (t :: xs)) (hout : s ∉ t :: xs) :
    Ring (p.splice s t m.next id) (t :: s :: xs) := by
  obtain ⟨hty, hsy⟩ := h.linked_behind hm hts
  obtain ⟨hin, hbehind⟩ := linked_splice hts.symm hsy hs hty.isLive.1 hty.isLive.2
  exact hc.insert_behind hout hty.1 hin hbehind (fun _ => next?_splice_of_ne hts.symm hsy)
    fun _ => prev?_splice_of_ne hts.symm hsy

theorem RingsBut.ring_splice_elsewhere {c : List Slot} (h : RingsBut p s)
    (hm : p.node? t = some m) (hts : t ≠ s) (hc : Ring p c) (hs : s ∉ c) (ht : t ∉ c) :
    Ring (p.splice s t m.next id) c := by
  obtain ⟨hty, hsy⟩ := h.linked_behind hm hts
  exact hc.pass_by hs ht hty (fun _ => next?_splice_of_ne hts.symm hsy)
    fun _ => prev?_splice_of_ne hts.symm hsy

/-- The pool after `s` was put into a ring and a class of its own. -/
def isolate (p : RegisterPool) (s : Slot) (id : ClassId) (materialized : Bool) : RegisterPool :=
  (p.adjust s fun n => { n with next := s, prev := s }).adjust s fun n =>
    { n with classId := id, materialized := materialized }

theorem node?_isolate (p : RegisterPool) (s : Slot) (id : ClassId) (b : Bool) (u : Slot) :
    (p.isolate s id b).node? u = (p.node? u).map fun m =>
      if u = s then { m with classId := id, materialized := b, next := s, prev := s } else m := by
  simp only [isolate, node?_adjust]
  cases p.node? u with
  | none => simp
  | some m => by_cases hus : u = s <;> simp [hus]

theorem class?_isolate (p : RegisterPool) (s : Slot) (id : ClassId) (b : Bool) (u : Slot) :
    (p.isolate s id b).class? u = if u = s then (p.class? u).map fun _ => id else p.class? u := by
  rw [class?, node?_isolate, class?]
  split <;> simp [*, Function.comp_def]

theorem run_split (h : Rings p) (hn : p.node? s = some n) (id : ClassId) (b : Bool) :
    (Step.split s id b).run p = .ok () ((p.bypass n).isolate s id b) := by
  have hlives := isLive_of_node? hn
  simp [Step.split, EStateM.run_bind, run_unlink h hn, run_update_of_isLive, hlives, isolate]

theorem RingsBut.isolate (h : RingsBut p s) (hn : p.node? s = some n) (b : Bool)
    (hfresh : ∀ u, u ≠ s → p.class? u ≠ some id) : Rings (p.isolate s id b) := by
  refine RingsBut.alone h ⟨?_, ?_⟩ ?_ ?_ ?_ ?_ hfresh
  · simp [next?, node?_isolate, hn]
  · simp [prev?, node?_isolate, hn]
  · intro u hus
    simp [next?, node?_isolate, hus]
  · intro u hus
    simp [prev?, node?_isolate, hus]
  · intro u hus
    rw [class?_isolate, if_neg hus]
  · rw [class?_isolate, if_pos rfl, class?, hn, Option.map_some, Option.map_some]

end BytecodeAssembler.RegisterPool
