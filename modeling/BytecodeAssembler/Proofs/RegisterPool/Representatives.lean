import BytecodeAssembler.Proofs.RegisterPool.Checking
import BytecodeAssembler.Proofs.RegisterPool.Slots
import Mathlib.Data.List.MinMax

/-! # Which node stands in for a class

The node to materialize next is looked for on one way round the ring. Where the way begins and in
which order it meets the others depends on how the class came about. The answer does not: of two
allocated nodes the one with the lower register is better, no two nodes have one register, and a
materialized node ends the search wherever it is met.
-/
namespace BytecodeAssembler.RegisterPool

/-- What makes a node fit to stand in for another one of its class. -/
structure Mate where
  register : Register
  materialized : Bool
  allocated : Bool
  deriving DecidableEq

def Node.toMate (n : Node) : Mate := ⟨n.register, n.materialized, n.allocated⟩

/-- The node in `t`, if it is another one of the class of `s`. -/
def mate? (p : RegisterPool) (s t : Slot) : Option Mate :=
  if t ≠ s ∧ p.class? t = p.class? s then (p.node? t).map Node.toMate else none

/-- None of the mates is materialized, and of the allocated ones `t` has the lowest register. -/
structure StandsIn (mates : Slot → Option Mate) (t : Slot) : Prop where
  needed : ∀ u k, mates u = some k → k.materialized = false
  lowest : ∃ m, mates t = some m ∧ m.allocated ∧
    ∀ u k, mates u = some k → k.allocated → u ≠ t → m.register < k.register

variable {p : RegisterPool} {s t : Slot} {n : Node} {k : Mate} {ms : List (Slot × Node)}

theorem mate?_eq_some_iff : p.mate? s t = some k ↔
    ∃ m, (t ≠ s ∧ p.node? t = some m ∧ p.class? t = p.class? s) ∧ m.toMate = k := by
  unfold mate?
  split
  next h => simp [h]
  next h =>
    simp only [reduceCtorEq, false_iff, not_exists, not_and]
    exact fun m hm => absurd ⟨hm.1, hm.2.2⟩ h

theorem lt_size_of_mate? (h : p.mate? s t = some k) : t < p.slots.size := by
  obtain ⟨m, ⟨-, hm, -⟩, -⟩ := mate?_eq_some_iff.mp h
  exact lt_size_of_node? hm

/-- The mates of `s` are the nodes in `ms`. -/
structure ListsMates (p : RegisterPool) (s : Slot) (ms : List (Slot × Node)) : Prop where
  nodes : ∀ e ∈ ms, p.node? e.1 = some e.2
  mates : ∀ t k, p.mate? s t = some k ↔ ∃ m, (t, m) ∈ ms ∧ m.toMate = k

/-- Behind a node the way round its ring meets its mates. -/
theorem Sound.listsMates (h : Sound p) (hn : p.node? s = some n) :
    ∃ ms, p.ring s = .ok ((s, n) :: ms) ∧ p.ListsMates s ms := by
  have hid : p.class? s = some n.classId := by rw [class?, hn, Option.map_some]
  obtain ⟨xs, hring, hmem⟩ := h.exists_ring hn
  obtain ⟨es, hes, hmap, hnodes⟩ := hring.entries
  obtain ⟨⟨_, m⟩, ms, rfl, rfl, rfl⟩ := List.map_eq_cons_iff.mp hmap
  obtain ⟨hhead, hrest⟩ := List.forall_mem_cons.mp hnodes
  obtain rfl : m = n := Option.some.inj (hhead.symm.trans hn)
  refine ⟨ms, hes, hrest, fun t k => ?_⟩
  rw [mate?_eq_some_iff]
  refine exists_congr fun m' => and_congr_left fun _ => ?_
  constructor
  · rintro ⟨hts, hm', hclass⟩
    have hmet := List.mem_of_ne_of_mem hts ((hmem t).mpr (hclass.trans hid))
    obtain ⟨⟨_, _⟩, he, rfl⟩ := List.mem_map.mp hmet
    rwa [← Option.some.inj ((hrest _ he).symm.trans hm')]
  · intro ht
    have hmet : t ∈ ms.map (·.1) := List.mem_map.mpr ⟨_, ht, rfl⟩
    refine ⟨?_, hrest _ ht, ((hmem t).mp (List.mem_cons_of_mem _ hmet)).trans hid.symm⟩
    rintro rfl
    exact (List.nodup_cons.mp hring.nodup).1 hmet

theorem cheapest?_eq_none (h : ∃ e ∈ ms, e.2.materialized) (best : Option (Slot × Node)) :
    cheapest? best ms = none := by
  induction ms generalizing best with
  | nil => simp at h
  | cons m ms ih =>
    unfold cheapest?
    by_cases hm : m.2.materialized
    · rw [if_pos hm]
    · have hrest : ∃ e ∈ ms, e.2.materialized := by simpa [hm] using h
      rw [if_neg hm, ih hrest, ih hrest, ite_self]

/-- The search goes on from the best node passed so far as a search for the least register does. -/
theorem cheapest?_eq_foldl (h : ∀ e ∈ ms, e.2.materialized = false) (best : Option (Slot × Node)) :
    cheapest? best ms = (ms.filter (·.2.allocated)).foldl
      (List.argAux fun e b => e.2.register.index.toNat < b.2.register.index.toNat) best := by
  induction ms generalizing best with
  | nil => rfl
  | cons m ms ih =>
    obtain ⟨hm, hrest⟩ := List.forall_mem_cons.mp h
    unfold cheapest?
    rw [if_neg (by simp [hm])]
    by_cases halloc : m.2.allocated
    · rw [List.filter_cons, if_pos halloc, List.foldl_cons, ih hrest, ih hrest]
      -- the best node so far gives way only to a register strictly lower, as in `argAux`
      cases best with
      | none => simp [halloc, List.argAux]
      | some b =>
        by_cases hlt : m.2.register < b.2.register
        · simp [halloc, hlt, List.argAux, Register.lt_iff_toNat_lt.mp hlt]
        · simp [halloc, hlt, List.argAux, mt Register.lt_iff_toNat_lt.mpr hlt]
    · rw [List.filter_cons, if_neg halloc, if_neg (by simp [halloc]), ih hrest]

theorem cheapest?_eq_argmin (h : ∀ e ∈ ms, e.2.materialized = false) :
    cheapest? none ms = (ms.filter (·.2.allocated)).argmin (·.2.register.index.toNat) :=
  cheapest?_eq_foldl h none

theorem cheapest?_eq_none_iff : cheapest? none ms = none ↔
    (∃ e ∈ ms, e.2.materialized) ∨ ∀ e ∈ ms, e.2.allocated = false := by
  by_cases hmat : ∃ e ∈ ms, e.2.materialized
  · exact iff_of_true (cheapest?_eq_none hmat none) (.inl hmat)
  · have hneeded : ∀ e ∈ ms, e.2.materialized = false := by simpa using hmat
    rw [cheapest?_eq_argmin hneeded, List.argmin_eq_none, List.filter_eq_nil_iff, or_iff_right hmat]
    simp

/-- Where registers tell the nodes apart, only one node is the lowest of the allocated ones. -/
theorem cheapest?_eq_some_iff {e : Slot × Node} (h : ∀ e ∈ ms, e.2.materialized = false)
    (hinj : ∀ e ∈ ms, ∀ e' ∈ ms, e.2.register = e'.2.register → e = e') :
    cheapest? none ms = some e ↔ e ∈ ms ∧ e.2.allocated ∧
      ∀ e' ∈ ms, e'.2.allocated → e' ≠ e → e.2.register < e'.2.register := by
  rw [cheapest?_eq_argmin h]
  constructor
  · intro hleast
    obtain ⟨he, halloc⟩ := List.mem_filter.mp (List.argmin_mem hleast)
    refine ⟨he, halloc, fun e' he' halloc' hne => ?_⟩
    have hle := List.le_of_mem_argmin (List.mem_filter.mpr ⟨he', halloc'⟩) hleast
    exact Register.lt_of_le_of_ne (Register.le_iff_toNat_le.mpr hle) fun hsame =>
      hne (hinj e he e' he' hsame).symm
  · rintro ⟨he, halloc, hlow⟩
    have hmem : e ∈ ms.filter (·.2.allocated) := List.mem_filter.mpr ⟨he, halloc⟩
    cases hleast : (ms.filter (·.2.allocated)).argmin (·.2.register.index.toNat) with
    | none => exact absurd (List.argmin_eq_none.mp hleast) (List.ne_nil_of_mem hmem)
    | some e' =>
      obtain ⟨he', halloc'⟩ := List.mem_filter.mp (List.argmin_mem hleast)
      by_contra hne
      have hlt := hlow e' he' halloc' fun heq => hne (congrArg some heq)
      have hle := List.le_of_mem_argmin hmem hleast
      exact Register.not_lt.mpr (Register.le_iff_toNat_le.mpr hle) hlt

namespace ListsMates
variable (h : p.ListsMates s ms)
include h

theorem mate? (hm : (t, n) ∈ ms) : p.mate? s t = some n.toMate := (h.mates t _).mpr ⟨n, hm, rfl⟩

theorem eq_of_slot {m : Node} (hn : (t, n) ∈ ms) (hm : (t, m) ∈ ms) : n = m :=
  Option.some.inj ((h.nodes _ hn).symm.trans (h.nodes _ hm))

theorem cheapest?_eq_none_iff : cheapest? none ms = none ↔
    (∃ t k, p.mate? s t = some k ∧ k.materialized) ∨
      ∀ t k, p.mate? s t = some k → k.allocated = false := by
  rw [RegisterPool.cheapest?_eq_none_iff]
  refine or_congr ⟨?_, ?_⟩ ⟨?_, ?_⟩
  · rintro ⟨⟨t, m⟩, he, hm⟩
    exact ⟨t, m.toMate, h.mate? he, hm⟩
  · rintro ⟨t, _, ht, hm⟩
    obtain ⟨m, he, rfl⟩ := (h.mates t _).mp ht
    exact ⟨(t, m), he, hm⟩
  · intro hall t k ht
    obtain ⟨m, he, rfl⟩ := (h.mates t k).mp ht
    exact hall _ he
  · rintro hall ⟨t, m⟩ he
    exact hall t m.toMate (h.mate? he)

theorem cheapest?_eq_some_iff (hp : Stored p) (hnone : ∀ e ∈ ms, e.2.materialized = false) :
    (cheapest? none ms).map (·.1) = some t ↔ StandsIn (p.mate? s) t := by
  have hinj : ∀ e ∈ ms, ∀ e' ∈ ms, e.2.register = e'.2.register → e = e' := by
    rintro ⟨u, m⟩ he ⟨v, k⟩ he' hsame
    obtain rfl : u = v := hp.slot_of_register (h.nodes _ he) (h.nodes _ he') hsame
    rw [h.eq_of_slot he he']
  simp only [Option.map_eq_some_iff, RegisterPool.cheapest?_eq_some_iff hnone hinj]
  constructor
  · rintro ⟨⟨t, m⟩, ⟨hm, halloc, hlow⟩, rfl⟩
    refine ⟨fun u k hu => ?_, m.toMate, h.mate? hm, halloc, fun u k hu hk hne => ?_⟩
    · obtain ⟨m', hm', rfl⟩ := (h.mates u k).mp hu
      exact hnone _ hm'
    · obtain ⟨m', hm', rfl⟩ := (h.mates u k).mp hu
      exact hlow _ hm' hk fun heq => hne (congrArg Prod.fst heq)
  · rintro ⟨-, _, ht, halloc, hlow⟩
    obtain ⟨m, hm, rfl⟩ := (h.mates _ _).mp ht
    refine ⟨(t, m), ⟨hm, halloc, ?_⟩, rfl⟩
    rintro ⟨u, k⟩ hu hk hne
    refine hlow u k.toMate (h.mate? hu) hk ?_
    rintro rfl
    exact hne (congrArg (Prod.mk u) (h.eq_of_slot hu hm))

end ListsMates

/-- The answer is told by the mates alone, though the search follows the links. -/
theorem Sound.toMaterialize? (h : Sound p) (hs : p.isLive s) :
    ∃ answer, p.toMaterialize? s = .ok answer ∧
      (answer = none ↔ (∃ t k, p.mate? s t = some k ∧ k.materialized) ∨
        ∀ t k, p.mate? s t = some k → k.allocated = false) ∧
      ∀ t, answer = some t ↔ StandsIn (p.mate? s) t := by
  obtain ⟨n, hn⟩ := isLive_iff.mp hs
  obtain ⟨ms, hring, hms⟩ := h.listsMates hn
  refine ⟨(cheapest? none ms).map (·.1), by rw [RegisterPool.toMaterialize?, hring]; rfl, ?_,
    fun t => ?_⟩
  · rw [Option.map_eq_none_iff, hms.cheapest?_eq_none_iff]
  by_cases hmat : ∃ e ∈ ms, e.2.materialized
  · rw [cheapest?_eq_none hmat]
    constructor
    · intro hsome
      cases hsome
    · intro hin
      obtain ⟨⟨u, m⟩, he, hm⟩ := hmat
      have hneeded : m.materialized = false := hin.needed u m.toMate (hms.mate? he)
      exact absurd (hneeded.symm.trans hm) Bool.false_ne_true
  · exact hms.cheapest?_eq_some_iff h.stored (by simpa using hmat)

/-- In a pool that passes the check, no node stands in for a live one if another node of its class is
materialized, or if no other is allocated. Otherwise it is the one of lowest register among the others
that are allocated. Any other pool that passes the check gives the same answer if the others of the
class are the same there. -/
theorem lowest_allocated_stands_in (calls : List Call)
    (hcheck : (empty.after calls).check = .ok ()) (s : Slot) (hs : (empty.after calls).isLive s) :
    let p := empty.after calls
    ∃ answer, p.toMaterialize? s = .ok answer ∧
      (answer = none ↔ (∃ t m, p.mate? s t = some m ∧ m.materialized) ∨
        ∀ t m, p.mate? s t = some m → m.allocated = false) ∧
      (∀ t, answer = some t ↔ StandsIn (p.mate? s) t) ∧
      ∀ calls', (empty.after calls').check = .ok () → (empty.after calls').isLive s →
        (∀ t, (empty.after calls').mate? s t = p.mate? s t) →
          (empty.after calls').toMaterialize? s = .ok answer := by
  intro p
  have h : Sound p := (stored_empty.after calls).sound_of_check hcheck
  obtain ⟨answer, hanswer, hnone, hin⟩ := h.toMaterialize? hs
  refine ⟨answer, hanswer, hnone, hin, fun calls' hcheck' hs' hmates => ?_⟩
  have h' : Sound (empty.after calls') := (stored_empty.after calls').sound_of_check hcheck'
  obtain ⟨answer', hanswer', -, hin'⟩ := h'.toMaterialize? hs'
  rw [funext hmates] at hin'
  rw [hanswer', Option.ext fun t => (hin' t).trans (hin t).symm]

/-- Registers of one class, merged in the order of their slots and the other way round; the second run
sets flags of the first node as well. -/
def mergedForth : List Call :=
  [.insert ⟨9⟩ 0 true true, .insert ⟨5⟩ 1 false true, .insert ⟨3⟩ 2 false false,
   .insert ⟨4⟩ 3 false true, .join 1 0, .join 2 1, .join 3 2]

def mergedBack : List Call :=
  [.insert ⟨9⟩ 7 false true, .insert ⟨5⟩ 1 true true, .insert ⟨3⟩ 2 true false,
   .insert ⟨4⟩ 3 true true, .join 3 0, .join 2 3, .join 1 2, .setNeedsFlush 0 true,
   .setAllocated 0 false]

theorem lowest_allocated_stands_in_mergedForth :
    let p := empty.after mergedForth
    let q := empty.after mergedBack
    p.check = .ok () ∧ q.check = .ok () ∧ p.members 0 = .ok [0, 1, 2, 3] ∧
      q.members 0 = .ok [0, 3, 2, 1] ∧ (∀ t, q.mate? 0 t = p.mate? 0 t) ∧
      p.toMaterialize? 0 = .ok (some 3) ∧ q.toMaterialize? 0 = .ok (some 3) := by
  intro p q
  have hp : p.check = .ok () := by decide
  have hq : q.check = .ok () := by decide
  have hmates : ∀ t, q.mate? 0 t = p.mate? 0 t := by
    intro t
    by_cases ht : t < 4
    · have hin : ∀ t < 4, q.mate? 0 t = p.mate? 0 t := by decide +kernel
      exact hin t ht
    · have hout : ∀ r : RegisterPool, r.slots.size = 4 → r.mate? 0 t = none := fun r hr =>
        Option.eq_none_iff_forall_ne_some.mpr fun k hk => ht (hr ▸ lt_size_of_mate? hk)
      rw [hout q (by decide), hout p (by decide)]
  obtain ⟨answer, hanswer, -, -, hsame⟩ := lowest_allocated_stands_in mergedForth hp 0 (by decide)
  obtain rfl : some 3 = answer := by
    have hthree : p.toMaterialize? 0 = .ok (some 3) := by decide
    exact Except.ok.inj (hthree.symm.trans hanswer)
  exact ⟨hp, hq, by decide, by decide, hmates, hanswer, hsame mergedBack hq (by decide) hmates⟩

end BytecodeAssembler.RegisterPool
