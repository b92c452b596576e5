import BytecodeAssembler.Proofs.RegisterPool.Checking

/-! # Calls as operations on cyclic lists

Where the check passes, the members of a node are its ring read from that node on. A call that moves
a node takes it out of one such list and puts it into another; the lists it is not in and what the
other nodes hold are left alone. `Departed` says so of the ring that a node leaves, and the three
calls that take a node away differ in what becomes of it. A class id that is in use elsewhere does no
harm here, since only links are followed.
-/
namespace BytecodeAssembler.RegisterPool
variable {p q : RegisterPool} {s t u : Slot} {n m : Node} {id : ClassId} {c xs : List Slot}

/-- What a node holds besides its links. -/
def Node.record (n : Node) : Register × ClassId × Bool × Bool × Bool :=
  (n.register, n.classId, n.materialized, n.allocated, n.needsFlush)

def record? (p : RegisterPool) (s : Slot) : Option (Register × ClassId × Bool × Bool × Bool) :=
  (p.node? s).map Node.record

/-- From `p` to `q` the node in `s` left its ring. Its mates are met in the order they were, without
it; the members of the other classes are the same, and so is what the other nodes hold. The members
of the class `spared` are not spoken of. -/
structure Departed (p q : RegisterPool) (s : Slot) (spared : Option ClassId) : Prop where
  mates : ∀ u, u ≠ s → p.isLive u → p.class? u = p.class? s → p.class? u ≠ spared →
    ∃ l, p.members u = .ok l ∧ q.members u = .ok (l.erase s)
  others : ∀ u, p.isLive u → p.class? u ≠ p.class? s → p.class? u ≠ spared →
    ∃ l, p.members u = .ok l ∧ q.members u = .ok l
  records : ∀ u, u ≠ s → q.record? u = p.record? u

/-- The node in `s` went from its ring to the place behind `t`, and took the class of `t` as a
copy. -/
structure Joined (p q : RegisterPool) (s t : Slot) : Prop extends Departed p q s (p.class? t) where
  target : ∃ rest, p.members t = .ok (t :: rest) ∧ q.members t = .ok (t :: s :: rest.erase s) ∧
    ∀ u ∈ t :: s :: rest.erase s, ∃ l, q.members u = .ok l ∧ l ~r t :: s :: rest.erase s
  moved : ∀ n m, p.node? s = some n → p.node? t = some m →
    q.record? s = some (n.register, m.classId, false, n.allocated, n.needsFlush)

/-- The node in `s` went from its ring to one of its own. -/
structure Parted (p q : RegisterPool) (s : Slot) (id : ClassId) (b : Bool) : Prop
    extends Departed p q s none where
  alone : q.members s = .ok [s]
  moved : ∀ n, p.node? s = some n →
    q.node? s = some { n with classId := id, materialized := b, next := s, prev := s }

structure Freed (p q : RegisterPool) (s : Slot) : Prop extends Departed p q s none where
  gone : q.node? s = none

/-- A node that was not there is alone in its ring, and no other node is changed. -/
structure Inserted (p q : RegisterPool) (s : Slot) (n : Node) : Prop where
  fresh : p.node? s = none
  entered : q.node? s = some n
  alone : q.members s = .ok [s]
  nodes : ∀ u, u ≠ s → q.node? u = p.node? u
  others : ∀ u, p.isLive u → ∃ l, p.members u = .ok l ∧ q.members u = .ok l

theorem Ring.congr_node (h : Ring p c) (hnode : ∀ u ∈ c, q.node? u = p.node? u) : Ring q c := by
  refine h.congr (fun u hu => ?_) fun u hu => ?_
  · rw [next?, next?, hnode u hu]
  · rw [prev?, prev?, hnode u hu]

theorem members_alone (hn : p.node? s = some n) (hnext : n.next = s) (hprev : n.prev = s) :
    p.members s = .ok [s] := by
  refine (Ring.singleton ⟨?_, ?_⟩).members
  · simp [next?, hn, hnext]
  · simp [prev?, hn, hprev]

@[simp] theorem record?_bypass (p : RegisterPool) (n : Node) (u : Slot) :
    (p.bypass n).record? u = p.record? u := by
  rw [record?, record?, node?_bypass, Option.map_map]
  rfl

/-- It is enough that the rings that are left when `s` is unlinked stay rings. -/
theorem Sound.departed (h : Sound p) (hn : p.node? s = some n) {spared : Option ClassId}
    (hkeep : ∀ c, Ring (p.bypass n) c → s ∉ c → (∀ u ∈ c, p.class? u ≠ spared) → Ring q c)
    (hrecords : ∀ u, u ≠ s → q.record? u = (p.bypass n).record? u) : Departed p q s spared := by
  have hlists : ∀ u, u ≠ s → p.isLive u → p.class? u ≠ spared → ∃ l, p.members u = .ok l ∧
      q.members u = .ok (l.erase s) ∧ ∀ v, v ∈ l ↔ p.class? v = p.class? u := by
    intro u hus hu hspared
    obtain ⟨k, hk⟩ := isLive_iff.mp hu
    obtain ⟨xs, hring, hmem⟩ := h.exists_ring hk
    have hclass : p.class? u = some k.classId := by simp [class?, hk]
    have hout : s ∉ (u :: xs).erase s := hring.nodup.not_mem_erase
    have hleft : Ring q ((u :: xs).erase s) := by
      refine hkeep _ (hring.bypass h.rings hn) hout fun v hv => ?_
      rwa [(hmem v).mp (List.mem_of_mem_erase hv), ← hclass]
    refine ⟨u :: xs, hring.members, ?_, fun v => by rw [hmem, hclass]⟩
    rw [List.erase_cons_tail (by simpa using hus)] at hleft ⊢
    exact hleft.members
  refine ⟨?_, ?_, fun u hus => ?_⟩
  · intro u hus hu _ hspared
    obtain ⟨l, hp, hq, -⟩ := hlists u hus hu hspared
    exact ⟨l, hp, hq⟩
  · intro u hu hother hspared
    have hus : u ≠ s := fun hus => hother (hus ▸ rfl)
    obtain ⟨l, hp, hq, hmem⟩ := hlists u hus hu hspared
    rw [List.erase_of_not_mem fun hs => hother ((hmem s).mp hs).symm] at hq
    exact ⟨l, hp, hq⟩
  · rw [hrecords u hus, record?_bypass]

/-- Nothing more is needed if no other node is changed once `s` is unlinked. -/
theorem Sound.departed_of_node (h : Sound p) (hn : p.node? s = some n)
    (hnode : ∀ u, u ≠ s → q.node? u = (p.bypass n).node? u) : Departed p q s none := by
  refine h.departed hn (fun c hc hs _ => hc.congr_node fun u hu => hnode u ?_) fun u hus => ?_
  · rintro rfl
    exact hs hu
  · rw [record?, record?, hnode u hus]

theorem Sound.joined (h : Sound p) (hst : s ≠ t) (hs : p.isLive s) (ht : p.isLive t) :
    ∃ q, p.step (.join s t) = (.ok .done, q) ∧ Joined p q s t := by
  obtain ⟨n, hn⟩ := isLive_iff.mp hs
  obtain ⟨m, hm⟩ := isLive_iff.mp ht
  obtain ⟨m', hm'⟩ := isLive_iff.mp ((isLive_bypass p n t).trans ht)
  have hid : m'.classId = m.classId := by
    rw [node?_bypass, hm] at hm'
    cases hm'
    rfl
  have hbut : RingsBut (p.bypass n) s := RingsBut.bypass h.rings hn
  obtain ⟨-, hsy⟩ := hbut.linked_behind hm' hst.symm
  have hnode := (p.bypass n).node?_splice m'.classId hst hsy
  refine ⟨_, step_of_ok rfl (run_join h.rings hn hst hm'), h.departed hn ?_ ?_, ?_, ?_⟩
  · intro c hc hsc hspared
    exact hbut.ring_splice_elsewhere hm' hst.symm hc hsc fun htc => hspared t htc rfl
  · intro u hus
    simp only [record?, hnode, hus, ↓reduceIte, Option.map_map]
    rfl
  · obtain ⟨rest, hring, -⟩ := h.exists_ring hm
    have hleft := hring.bypass h.rings hn
    have hout : s ∉ (t :: rest).erase s := hring.nodup.not_mem_erase
    rw [List.erase_cons_tail (by simpa using hst.symm)] at hleft hout
    have hnew : Ring ((p.bypass n).splice s t m'.next m'.classId) (t :: s :: rest.erase s) :=
      hbut.ring_splice (by simpa using hs) hm' hst.symm hleft hout
    refine ⟨rest, hring.members, hnew.members, fun u hu => ?_⟩
    obtain ⟨xs, hxs, hrot⟩ := hnew.exists_rotated hu
    exact ⟨u :: xs, hxs.members, hrot⟩
  · intro n' k hn' hk
    obtain rfl := Option.some.inj (hn.symm.trans hn')
    obtain rfl := Option.some.inj (hm.symm.trans hk)
    rw [record?, hnode, node?_bypass, hn]
    simp [Node.record, hid]

theorem Sound.parted (h : Sound p) (hs : p.isLive s) (id : ClassId) (b : Bool) :
    ∃ q, p.step (.split s id b) = (.ok .done, q) ∧ Parted p q s id b := by
  obtain ⟨n, hn⟩ := isLive_iff.mp hs
  have hself : ((p.bypass n).isolate s id b).node? s =
      some { n with classId := id, materialized := b, next := s, prev := s } := by
    simp [node?_isolate, node?_bypass, hn]
  refine ⟨_, step_of_ok rfl (run_split h.rings hn id b), h.departed_of_node hn fun u hus => ?_,
    members_alone hself rfl rfl, fun n' hn' => ?_⟩
  · simp [node?_isolate, hus]
  · obtain rfl := Option.some.inj (hn.symm.trans hn')
    exact hself

theorem Sound.freed (h : Sound p) (hs : p.isLive s) :
    ∃ q, p.step (.free s) = (.ok .done, q) ∧ Freed p q s := by
  obtain ⟨n, hn⟩ := isLive_iff.mp hs
  refine ⟨_, step_of_ok rfl (run_free h.rings hn), h.departed_of_node hn fun u hus => ?_, ?_⟩
  · simp [node?_drop, hus]
  · simp [node?_drop]

theorem Sound.inserted (h : Sound p) {r : Register} (hr : p.slotOf? r = none) (id : ClassId)
    (b allocated : Bool) :
    ∃ s q, p.step (.insert r id b allocated) = (.ok (.slot s), q) ∧
      Inserted p q s ⟨r, id, b, allocated, false, s, s⟩ := by
  obtain ⟨-, hempty⟩ := h.stored.reserve_empty
  have hnode := h.stored.node?_enter ⟨r, id, b, allocated, false, p.reserve.1, p.reserve.1⟩
  have hself := hnode p.reserve.1
  rw [if_pos rfl] at hself
  refine ⟨p.reserve.1, _, step_insert hr id b allocated, hempty, hself,
    members_alone hself rfl rfl, ?_, ?_⟩
  · intro u hus
    rw [hnode, if_neg hus]
  · intro u hu
    obtain ⟨k, hk⟩ := isLive_iff.mp hu
    obtain ⟨xs, hring, -⟩ := h.exists_ring hk
    have hkeep : Ring (p.reserve.2.enter p.reserve.1
        ⟨r, id, b, allocated, false, p.reserve.1, p.reserve.1⟩) (u :: xs) := by
      refine hring.congr_node fun v hv => ?_
      obtain ⟨k', hk'⟩ := isLive_iff.mp (hring.isLive hv)
      rw [hnode, if_neg]
      rintro rfl
      simp [hempty] at hk'
    exact ⟨u :: xs, hring.members, hkeep.members⟩

theorem step_join_self (hn : p.node? s = some n) :
    p.step (.join s s) = (.ok .done, p.setNode s (some { n with materialized := false })) := by
  refine step_of_ok rfl ?_
  rw [Step.join, if_pos rfl, Step.run_update, hn]

/-- In a pool that passes the check, whatever calls led to it, a node that joins the class of another
is taken out of its cyclic list and put behind the other; one that is split off or released is taken
out of its list; a new one makes a list of its own. The other lists, and what the other nodes hold besides
their links, stay the same, and an insertion that is refused changes nothing. -/
theorem calls_refine_cyclic_lists (calls : List Call)
    (hcheck : (empty.after calls).check = .ok ()) :
    let p := empty.after calls
    (∀ s t, s ≠ t → p.isLive s → p.isLive t →
      ∃ q, p.step (.join s t) = (.ok .done, q) ∧ Joined p q s t) ∧
    (∀ s n, p.node? s = some n →
      p.step (.join s s) = (.ok .done, p.setNode s (some { n with materialized := false }))) ∧
    (∀ s id b, p.isLive s →
      ∃ q, p.step (.split s id b) = (.ok .done, q) ∧ Parted p q s id b) ∧
    (∀ s, p.isLive s → ∃ q, p.step (.free s) = (.ok .done, q) ∧ Freed p q s) ∧
    (∀ r id b allocated, p.slotOf? r = none →
      ∃ s q, p.step (.insert r id b allocated) = (.ok (.slot s), q) ∧
        Inserted p q s ⟨r, id, b, allocated, false, s, s⟩) ∧
    ∀ r id b allocated, (p.slotOf? r).isSome →
      p.step (.insert r id b allocated) = (.error (.internal (.alreadyTracked r)), p) := by
  intro p
  have h : Sound p := (stored_empty.after calls).sound_of_check hcheck
  refine ⟨fun s t => h.joined, fun s n => step_join_self, fun s id b hs => h.parted hs id b,
    fun s => h.freed, fun r id b allocated hr => h.inserted hr id b allocated,
    fun r id b allocated hr => step_insert_of_tracked hr id b allocated⟩

/-- One of three nodes was to join behind a stale slot and is left between two rings. Once it is split
off, the check passes again. -/
def mended : List Call :=
  [.insert ⟨0⟩ 0 true true, .insert ⟨1⟩ 1 false true, .insert ⟨2⟩ 2 false true, .join 1 0, .join 2 0,
   .join 1 9, .split 1 3 true]

theorem calls_refine_cyclic_lists_mended :
    (empty.after mended).check = .ok () ∧ ∃ q, (empty.after mended).step (.join 0 1) = (.ok .done, q) ∧
      q.members 1 = .ok [1, 0] ∧ q.members 2 = .ok [2] := by
  have hcheck : (empty.after mended).check = .ok () := by decide
  obtain ⟨hjoin, -⟩ := calls_refine_cyclic_lists mended hcheck
  obtain ⟨q, hstep, hjoined⟩ := hjoin 0 1 (by decide) (by decide) (by decide)
  obtain ⟨rest, hbefore, hafter, -⟩ := hjoined.target
  have hrest : (empty.after mended).members 1 = .ok [1] := rfl
  obtain ⟨l, hl, hmate⟩ := hjoined.mates 2 (by decide) (by decide) (by decide) (by decide)
  have hpair : (empty.after mended).members 2 = .ok [2, 0] := rfl
  cases hrest.symm.trans hbefore
  cases hpair.symm.trans hl
  exact ⟨hcheck, q, hstep, hafter, hmate⟩

end BytecodeAssembler.RegisterPool
