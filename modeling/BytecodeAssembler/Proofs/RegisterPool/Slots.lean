import BytecodeAssembler.Proofs.RegisterPool.Faults
import Mathlib.Data.List.Range
import Mathlib.Data.List.Perm.Subperm

/-! # The slots of a pool

A slot holds a node, whose register leads back to it, or it is free. So a pool has as many slots as
live nodes and free slots together; and as a new slot is made only where none is free, it never has
more slots than there are registers. All this holds after any calls, also where some of them stopped
at a slot without a node.
-/
namespace BytecodeAssembler.RegisterPool
variable {p : RegisterPool} {r : Register} {s t : Slot} {n m : Node}

theorem Stored.slotOf?_eq_some_iff (h : Stored p) :
    p.slotOf? r = some s ↔ ∃ n, p.node? s = some n ∧ n.register = r := by
  rw [← h.mem_index]
  constructor
  · intro hs
    obtain ⟨before, behind, hindex, -⟩ := List.lookup_eq_some_iff.mp hs
    rw [hindex]
    exact List.mem_append_right _ List.mem_cons_self
  · intro hs
    have htracked : (p.slotOf? r).isSome := List.lookup_isSome_iff.mpr ⟨(r, s), hs, beq_self_eq_true r⟩
    obtain ⟨t, ht⟩ := Option.isSome_iff_exists.mp htracked
    obtain ⟨before, behind, hindex, -⟩ := List.lookup_eq_some_iff.mp ht
    have hmem : (r, t) ∈ p.index := by
      rw [hindex]
      exact List.mem_append_right _ List.mem_cons_self
    rw [ht, h.slot_unique hmem hs]

theorem Stored.slotOf?_register (h : Stored p) (hn : p.node? s = some n) :
    p.slotOf? n.register = some s := h.slotOf?_eq_some_iff.mpr ⟨n, hn, rfl⟩

theorem Stored.slot_of_register (h : Stored p) (hn : p.node? s = some n) (hm : p.node? t = some m)
    (hsame : n.register = m.register) : s = t := by
  have hs := h.slotOf?_register hn
  rw [hsame, h.slotOf?_register hm] at hs
  exact (Option.some.inj hs).symm

/-- The slots that the index leads to are the live ones. -/
theorem Stored.perm_live (h : Stored p) :
    (p.index.map (·.2)).Perm ((List.range p.slots.size).filter p.isLive) := by
  have hindex : (p.index.map (·.2)).Nodup := by
    refine List.Nodup.map_on ?_ h.registers.of_map
    rintro ⟨r, s⟩ hr ⟨r', s'⟩ hr' rfl
    obtain ⟨n, hn, rfl⟩ := (h.mem_index _ _).mp hr
    obtain ⟨m, hm, rfl⟩ := (h.mem_index _ _).mp hr'
    rw [Option.some.inj (hn.symm.trans hm)]
  refine (List.perm_ext_iff_of_nodup hindex (List.nodup_range.filter _)).mpr fun s => ?_
  rw [List.mem_filter, List.mem_range, isLive_iff]
  constructor
  · intro hs
    obtain ⟨⟨r, _⟩, hmem, rfl⟩ := List.mem_map.mp hs
    obtain ⟨n, hn, -⟩ := (h.mem_index _ _).mp hmem
    exact ⟨lt_size_of_node? hn, n, hn⟩
  · rintro ⟨-, n, hn⟩
    exact List.mem_map.mpr ⟨(n.register, s), (h.mem_index _ _).mpr ⟨n, hn, rfl⟩, rfl⟩

theorem Stored.perm_free (h : Stored p) :
    p.free.Perm ((List.range p.slots.size).filter fun s => !p.isLive s) := by
  refine (List.perm_ext_iff_of_nodup h.free (List.nodup_range.filter _)).mpr fun s => ?_
  rw [h.mem_free, List.mem_filter, List.mem_range]
  simp [isLive]

theorem Stored.length_eq (h : Stored p) :
    p.length = ((List.range p.slots.size).filter p.isLive).length := by
  rw [← h.perm_live.length_eq, List.length_map]
  rfl

/-- A slot is live or free, and not both. -/
theorem Stored.size_slots (h : Stored p) : p.slots.size = p.length + p.free.length := by
  have hsplit := List.length_eq_length_filter_add (l := List.range p.slots.size) p.isLive
  rw [List.length_range, ← h.length_eq, ← h.perm_free.length_eq] at hsplit
  exact hsplit

theorem length_le_of_nodup {rs : List Register} (h : rs.Nodup) : rs.length ≤ UInt16.size := by
  have hinj : Function.Injective fun r : Register => r.index.toNat := by
    rintro ⟨i⟩ ⟨j⟩ hij
    exact congrArg Register.mk (UInt16.toNat_inj.mp hij)
  have hsub : rs.map (·.index.toNat) ⊆ List.range UInt16.size := by
    intro k hk
    obtain ⟨r, -, rfl⟩ := List.mem_map.mp hk
    exact List.mem_range.mpr r.index.toNat_lt
  simpa using ((h.map hinj).subperm hsub).length_le

theorem Stored.length_le (h : Stored p) : p.length ≤ UInt16.size := by
  simpa [RegisterPool.length] using length_le_of_nodup h.registers

/-- A well stored pool with no more slots than there are registers. -/
structure Bounded (p : RegisterPool) : Prop extends Stored p where
  size_le : p.slots.size ≤ UInt16.size

theorem free_enter (p : RegisterPool) (n : Node) :
    (p.reserve.2.enter p.reserve.1 n).free = p.free.tail := by
  unfold enter reserve
  cases p.free with
  | nil => rfl
  | cons => rfl

theorem size_enter_of_free (hfree : p.free ≠ []) (n : Node) :
    (p.reserve.2.enter p.reserve.1 n).slots.size = p.slots.size := by
  unfold enter reserve
  cases h : p.free with
  | nil => exact absurd h hfree
  | cons => simp [setNode]

/-- A slot is made only where none is free, and then every slot holds a register of its own. -/
theorem Bounded.enter (h : Bounded p) (hr : p.slotOf? n.register = none) :
    Bounded (p.reserve.2.enter p.reserve.1 n) := by
  have hstored := h.toStored.enter hr
  refine ⟨hstored, ?_⟩
  by_cases hfree : p.free = []
  · rw [hstored.size_slots, free_enter, hfree]
    exact hstored.length_le
  · rw [size_enter_of_free hfree]
    exact h.size_le

theorem enduring_bounded : Enduring Bounded where
  adjust h s _ hf := ⟨h.toStored.adjust s hf, (size_adjust ..).trans_le h.size_le⟩
  drop h hn := ⟨h.toStored.drop hn, by simpa [RegisterPool.drop, setNode] using h.size_le⟩
  enter h hr := h.enter hr
  draw h id := ⟨enduring_stored.draw h.toStored id, h.size_le⟩

theorem bounded_empty : Bounded empty := ⟨stored_empty, Nat.zero_le _⟩

theorem Bounded.toNat_ofNat (h : Bounded p) (hs : s < p.slots.size) :
    (UInt32.ofNat s).toNat = s := by
  have hlt : s < UInt16.size := hs.trans_le h.size_le
  exact UInt32.toNat_ofNat_of_lt' (hlt.trans (by decide))

/-- After any calls, faults included, the index leads from each register that is tracked to the one
slot that holds it, the free list has each empty slot once, and the pool counts its live slots. A
register is inserted, into a slot that was empty, unless it is tracked already, and no pool comes to
more than 65536 slots, so that every slot can be named by a word of 32 bits. -/
theorem storage_survives_faults (calls : List Call) :
    let p := empty.after calls
    (∀ r s, p.slotOf? r = some s ↔ ∃ n, p.node? s = some n ∧ n.register = r) ∧
    (∀ s t n m, p.node? s = some n → p.node? t = some m → n.register = m.register → s = t) ∧
    (∀ s n, p.node? s = some n → p.slotOf? n.register = some s) ∧
    (p.free.Nodup ∧ ∀ s, s ∈ p.free ↔ s < p.slots.size ∧ p.node? s = none) ∧
    p.length = ((List.range p.slots.size).filter p.isLive).length ∧
    (∀ r id b allocated,
      (p.slotOf? r).isSome ∧
        p.step (.insert r id b allocated) = (.error (.internal (.alreadyTracked r)), p) ∨
      p.slotOf? r = none ∧ ∃ s q, p.step (.insert r id b allocated) = (.ok (.slot s), q) ∧
        p.node? s = none ∧ q.node? s = some ⟨r, id, b, allocated, false, s, s⟩) ∧
    p.slots.size ≤ 65536 ∧ ∀ s < p.slots.size, (UInt32.ofNat s).toNat = s := by
  intro p
  have h : Bounded p := enduring_bounded.after bounded_empty calls
  refine ⟨fun r s => h.slotOf?_eq_some_iff, fun s t n m => h.slot_of_register,
    fun s n => h.slotOf?_register, ⟨h.free, h.mem_free⟩, h.length_eq, ?_, h.size_le,
    fun s => h.toNat_ofNat⟩
  intro r id b allocated
  cases hr : p.slotOf? r with
  | some s =>
    have htracked : (p.slotOf? r).isSome := Option.isSome_of_eq_some hr
    exact .inl ⟨rfl, step_insert_of_tracked htracked id b allocated⟩
  | none =>
    obtain ⟨-, hempty⟩ := h.reserve_empty
    refine .inr ⟨rfl, _, _, step_insert hr id b allocated, hempty, ?_⟩
    rw [h.node?_enter, if_pos rfl]

/-- Joining a slot that was never used stops halfway, and releasing a slot twice stops at once; the
slot is free once all the same, and the next one to be used. -/
example :
    let p := empty.after [.insert ⟨7⟩ 0 true true, .insert ⟨8⟩ 1 true true, .join 1 5, .free 1, .free 1]
    p.free = [1] ∧ p.length = 1 ∧ (p.step (.insert ⟨7⟩ 2 true true)).1 =
      .error (.internal (.alreadyTracked ⟨7⟩)) ∧
      (p.step (.insert ⟨9⟩ 2 true true)).1 = .ok (.slot 1) := by
  decide

end BytecodeAssembler.RegisterPool
