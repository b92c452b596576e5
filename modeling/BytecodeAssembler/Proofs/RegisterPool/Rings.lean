import BytecodeAssembler.RegisterPool.State
import Mathlib.Data.List.Chain
import Mathlib.Data.List.Rotate

/-! # Rings of linked nodes

A list of slots is a ring of a pool if each node is linked with the one behind it and the last one
with the first. Where the ring is cut open does not matter (`Ring.rotate`), so that a node leaves or
enters a ring at the front. `RingsOn` says that each class is a ring; it may leave out nodes that are
between two rings.
-/
namespace BytecodeAssembler.RegisterPool

def next? (p : RegisterPool) (s : Slot) : Option Slot := (p.node? s).map (·.next)

def prev? (p : RegisterPool) (s : Slot) : Option Slot := (p.node? s).map (·.prev)

def class? (p : RegisterPool) (s : Slot) : Option ClassId := (p.node? s).map (·.classId)

def Linked (p : RegisterPool) (s t : Slot) : Prop := p.next? s = some t ∧ p.prev? t = some s

structure Ring (p : RegisterPool) (c : List Slot) : Prop where
  nodup : c.Nodup
  chain : c.IsChain p.Linked
  closes : ∀ z ∈ c.getLast?, ∀ y ∈ c.head?, p.Linked z y

/-- In a list without duplicates a relation may change at the ends and the chain still hold. -/
theorem isChain_of_inner {α : Type*} {R S : α → α → Prop} {l : List α} (hl : l.Nodup)
    (h : l.IsChain R) (hRS : ∀ u ∈ l, ∀ v ∈ l, (∀ z ∈ l.getLast?, u ≠ z) → (∀ y ∈ l.head?, v ≠ y) →
      R u v → S u v) : l.IsChain S := by
  induction l with
  | nil => exact .nil
  | cons u l ih =>
    cases l with
    | nil => exact .singleton u
    | cons v l =>
      obtain ⟨huv, h⟩ := List.isChain_cons_cons.mp h
      obtain ⟨hu, hl⟩ := List.nodup_cons.mp hl
      have hlast : ∀ z ∈ (u :: v :: l).getLast?, z ∈ v :: l := by
        intro z hz
        rw [List.getLast?_cons_cons] at hz
        exact List.mem_of_getLast? hz
      refine List.isChain_cons_cons.mpr ⟨?_, ih hl h ?_⟩
      · refine hRS u List.mem_cons_self v (by simp) ?_ ?_ huv
        · rintro z hz rfl
          exact hu (hlast u hz)
        · rintro y hy rfl
          obtain rfl : u = v := by simpa using hy
          exact hu List.mem_cons_self
      · intro a ha b hb haz hby
        refine hRS a (List.mem_cons_of_mem _ ha) b (List.mem_cons_of_mem _ hb) ?_ ?_
        · rwa [List.getLast?_cons_cons]
        · rintro y hy rfl
          obtain rfl : u = b := by simpa using hy
          exact hu hb

namespace Ring
variable {p q : RegisterPool} {c xs : List Slot} {s t y z : Slot}

theorem nil : Ring p [] := ⟨.nil, .nil, by simp⟩

theorem rotate (as bs : List Slot) (h : Ring p (as ++ bs)) : Ring p (bs ++ as) := by
  rcases as with _ | ⟨a, as⟩
  · simpa using h
  rcases bs with _ | ⟨b, bs⟩
  · simpa using h
  obtain ⟨hleft, hright, hjoin⟩ := List.isChain_append.mp h.chain
  have hcloses := h.closes
  rw [List.getLast?_append_of_ne_nil _ (by simp)] at hcloses
  refine ⟨List.perm_append_comm.nodup_iff.mp h.nodup,
    List.isChain_append.mpr ⟨hright, hleft, hcloses⟩, ?_⟩
  rw [List.getLast?_append_of_ne_nil _ (by simp)]
  exact hjoin

theorem exists_rotated (h : Ring p c) (hs : s ∈ c) : ∃ xs, Ring p (s :: xs) ∧ s :: xs ~r c := by
  obtain ⟨as, bs, rfl⟩ := List.append_of_mem hs
  have hrot : (s :: bs) ++ as ~r as ++ (s :: bs) := List.isRotated_append
  exact ⟨bs ++ as, h.rotate as (s :: bs), hrot⟩

theorem exists_cons (h : Ring p c) (hs : s ∈ c) :
    ∃ xs, Ring p (s :: xs) ∧ ∀ t, t ∈ s :: xs ↔ t ∈ c := by
  obtain ⟨xs, hring, hrot⟩ := h.exists_rotated hs
  exact ⟨xs, hring, fun t => hrot.mem_iff⟩

theorem next?_last (h : Ring p (xs ++ [s])) : p.next? s = (xs ++ [s]).head? := by
  cases hy : (xs ++ [s]).head? with
  | none => simp at hy
  | some y => exact (h.closes s (by simp) y hy).1

theorem next?_eq (h : Ring p (s :: xs)) : p.next? s = (xs ++ [s]).head? :=
  next?_last (h.rotate [s] xs)

theorem prev?_eq (h : Ring p (s :: xs)) : p.prev? s = (s :: xs).getLast? := by
  cases hz : (s :: xs).getLast? with
  | none => simp at hz
  | some z => exact (h.closes z hz s rfl).2

theorem next?_mem (h : Ring p c) (hs : s ∈ c) (hy : p.next? s = some y) : y ∈ c := by
  obtain ⟨xs, hring, hmem⟩ := h.exists_cons hs
  rw [hring.next?_eq] at hy
  have hy := List.mem_of_head? hy
  exact (hmem y).mp (by simpa [or_comm] using hy)

theorem prev?_mem (h : Ring p c) (hs : s ∈ c) (hz : p.prev? s = some z) : z ∈ c := by
  obtain ⟨xs, hring, hmem⟩ := h.exists_cons hs
  rw [hring.prev?_eq] at hz
  exact (hmem z).mp (List.mem_of_getLast? hz)

theorem congr (h : Ring p c) (hnext : ∀ u ∈ c, q.next? u = p.next? u)
    (hprev : ∀ u ∈ c, q.prev? u = p.prev? u) : Ring q c := by
  refine ⟨h.nodup, ?_, ?_⟩
  · refine h.chain.imp_of_mem_imp fun u v hu hv huv => ?_
    exact ⟨(hnext u hu).trans huv.1, (hprev v hv).trans huv.2⟩
  · intro z hz y hy
    obtain ⟨hzy, hyz⟩ := h.closes z hz y hy
    exact ⟨(hnext z (List.mem_of_getLast? hz)).trans hzy,
      (hprev y (List.mem_of_head? hy)).trans hyz⟩

/-- When the neighbours of a node are linked to each other, its ring closes without it. -/
theorem unlink (h : Ring p (s :: xs)) (hy : p.next? s = some y) (hz : p.prev? s = some z)
    (hlink : q.Linked z y) (hnext : ∀ u, u ≠ z → q.next? u = p.next? u)
    (hprev : ∀ u, u ≠ y → q.prev? u = p.prev? u) : Ring q xs := by
  rw [h.next?_eq] at hy
  rw [h.prev?_eq] at hz
  cases xs with
  | nil => exact .nil
  | cons x xs =>
    obtain rfl : x = y := by simpa using hy
    rw [List.getLast?_cons_cons] at hz
    obtain ⟨-, hchain⟩ := List.isChain_cons_cons.mp h.chain
    refine ⟨h.nodup.of_cons, ?_, ?_⟩
    · refine isChain_of_inner h.nodup.of_cons hchain fun u _ v _ hu hv huv => ?_
      exact ⟨(hnext u (hu z hz)).trans huv.1, (hprev v (hv x rfl)).trans huv.2⟩
    · intro z' hz' y' hy'
      rw [hz] at hz'
      cases hz'
      cases hy'
      exact hlink

/-- When a node is linked in between the last node of a ring and the first, it belongs to the
ring. -/
theorem link (h : Ring p c) (hs : s ∉ c) (hy : c.head? = some y) (hz : c.getLast? = some z)
    (hzs : q.Linked z s) (hsy : q.Linked s y) (hnext : ∀ u ∈ c, u ≠ z → q.next? u = p.next? u)
    (hprev : ∀ u ∈ c, u ≠ y → q.prev? u = p.prev? u) : Ring q (s :: c) := by
  have hchain : c.IsChain q.Linked := by
    refine isChain_of_inner h.nodup h.chain fun u hu v hv huz hvy huv => ?_
    exact ⟨(hnext u hu (huz z hz)).trans huv.1, (hprev v hv (hvy y hy)).trans huv.2⟩
  obtain ⟨c', rfl⟩ : ∃ c', c = y :: c' := by
    obtain ⟨c', hc⟩ := List.head?_eq_some_iff.mp hy
    exact ⟨c', hc⟩
  refine ⟨List.nodup_cons.mpr ⟨hs, h.nodup⟩, List.isChain_cons_cons.mpr ⟨hsy, hchain⟩, ?_⟩
  intro z' hz' s' hs'
  rw [List.getLast?_cons_cons, hz] at hz'
  cases hz'
  cases hs'
  exact hzs

/-- Any ring closes without a node whose neighbours are linked to each other. -/
theorem erase (h : Ring p c) (hsy : p.Linked s y) (hzs : p.Linked z s) (hlink : q.Linked z y)
    (hnext : ∀ u, u ≠ z → q.next? u = p.next? u) (hprev : ∀ u, u ≠ y → q.prev? u = p.prev? u) :
    Ring q (c.erase s) := by
  by_cases hs : s ∈ c
  · obtain ⟨as, bs, rfl⟩ := List.append_of_mem hs
    have hout : s ∉ as := fun has =>
      (List.nodup_append.mp h.nodup).2.2 s has s List.mem_cons_self rfl
    have hring : Ring p (s :: (bs ++ as)) := h.rotate as (s :: bs)
    rw [List.erase_append_right _ hout, List.erase_cons_head]
    exact (hring.unlink hsy.1 hzs.2 hlink hnext hprev).rotate bs as
  -- a ring without `s` has no neighbour of `s` either, so its links are as they were
  · rw [List.erase_of_not_mem hs]
    refine h.congr (fun u hu => hnext u ?_) (fun u hu => hprev u ?_)
    · rintro rfl
      exact hs (h.next?_mem hu hzs.1)
    · rintro rfl
      exact hs (h.prev?_mem hu hsy.2)

theorem insert_behind (h : Ring p (t :: xs)) (hs : s ∉ t :: xs) (hy : p.next? t = some y)
    (hin : q.Linked t s) (hout : q.Linked s y)
    (hnext : ∀ u, u ≠ s → u ≠ t → q.next? u = p.next? u)
    (hprev : ∀ u, u ≠ s → u ≠ y → q.prev? u = p.prev? u) : Ring q (t :: s :: xs) := by
  have hring : Ring p (xs ++ [t]) := h.rotate [t] xs
  have hmem : ∀ u ∈ xs ++ [t], u ≠ s := by
    rintro u hu rfl
    exact hs (by simpa [or_comm] using hu)
  rw [h.next?_eq] at hy
  have hnot : s ∉ xs ++ [t] := fun hsmem => hmem s hsmem rfl
  refine (hring.link hnot hy (by simp) hin hout ?_ ?_).rotate (s :: xs) [t]
  · exact fun u hu hut => hnext u (hmem u hu) hut
  · exact fun u hu huy => hprev u (hmem u hu) huy

/-- A ring stays as it is when a node is linked in elsewhere. -/
theorem pass_by (h : Ring p c) (hs : s ∉ c) (ht : t ∉ c) (hty : p.Linked t y)
    (hnext : ∀ u, u ≠ s → u ≠ t → q.next? u = p.next? u)
    (hprev : ∀ u, u ≠ s → u ≠ y → q.prev? u = p.prev? u) : Ring q c := by
  refine h.congr (fun u hu => hnext u ?_ ?_) (fun u hu => hprev u ?_ ?_)
  · exact fun hus => hs (hus ▸ hu)
  · exact fun hut => ht (hut ▸ hu)
  · exact fun hus => hs (hus ▸ hu)
  · rintro rfl
    exact ht (h.prev?_mem hu hty.2)

theorem singleton (h : p.Linked s s) : Ring p [s] := by
  refine ⟨by simp, .singleton s, ?_⟩
  intro z hz y hy
  cases hz
  cases hy
  exact h

end Ring
end BytecodeAssembler.RegisterPool
