import BytecodeAssembler.Proofs.RegisterPool.Rings

/-! # Classes as rings

`RingsOn p on` says that the nodes of each class of which `on` holds form one ring. A node that
changes its class is unlinked first (`RingsBut.of_unlink`), and then put into a ring of its own
(`RingsBut.alone`), linked in behind another node (`RingsBut.join`), or dropped. The lemmas are about
any two pools whose links differ as such a change makes them differ.
-/
namespace BytecodeAssembler.RegisterPool
variable {p q : RegisterPool} {s t y z : Slot} {id : ClassId} {on on' : Slot → Prop}

/-- Each class is a ring of those of its nodes that `on` holds of. -/
def RingsOn (p : RegisterPool) (on : Slot → Prop) : Prop :=
  ∀ id, ∃ c, Ring p c ∧ ∀ t, t ∈ c ↔ on t ∧ p.class? t = some id

abbrev Rings (p : RegisterPool) : Prop := p.RingsOn fun _ => True

/-- Each class is a ring if `s`, which is in no ring, is left out. -/
abbrev RingsBut (p : RegisterPool) (s : Slot) : Prop := p.RingsOn (· ≠ s)

theorem RingsOn.congr (h : RingsOn p on) (hnext : ∀ u, on u → q.next? u = p.next? u)
    (hprev : ∀ u, on u → q.prev? u = p.prev? u)
    (hclass : ∀ u id, on' u ∧ q.class? u = some id ↔ on u ∧ p.class? u = some id) :
    RingsOn q on' := by
  intro id
  obtain ⟨c, hc, hmem⟩ := h id
  refine ⟨c, hc.congr (fun u hu => hnext u ((hmem u).mp hu).1)
    (fun u hu => hprev u ((hmem u).mp hu).1), fun t => ?_⟩
  rw [hmem, hclass]

theorem class?_of_next? (h : p.next? s = some y) : ∃ id, p.class? s = some id := by
  obtain ⟨n, hn, -⟩ := Option.map_eq_some_iff.mp h
  exact ⟨n.classId, by simp [class?, hn]⟩

theorem RingsOn.neighbours (h : RingsOn p on) (hs : on s) (hy : p.next? s = some y)
    (hz : p.prev? s = some z) :
    (on y ∧ p.class? y = p.class? s) ∧ on z ∧ p.class? z = p.class? s := by
  obtain ⟨id, hid⟩ := class?_of_next? hy
  obtain ⟨c, hc, hmem⟩ := h id
  have hsc : s ∈ c := (hmem s).mpr ⟨hs, hid⟩
  rw [hid]
  exact ⟨(hmem y).mp (hc.next?_mem hsc hy), (hmem z).mp (hc.prev?_mem hsc hz)⟩

theorem RingsOn.linked (h : RingsOn p on) (hs : on s) (hy : p.next? s = some y)
    (hz : p.prev? s = some z) : p.Linked s y ∧ p.Linked z s := by
  obtain ⟨id, hid⟩ := class?_of_next? hy
  obtain ⟨c, hc, hmem⟩ := h id
  obtain ⟨xs, hring, -⟩ := hc.exists_cons ((hmem s).mpr ⟨hs, hid⟩)
  constructor
  · have hback : Ring p (xs ++ [s]) := hring.rotate [s] xs
    rw [hring.next?_eq] at hy
    exact hback.closes s (by simp) y hy
  · rw [hring.prev?_eq] at hz
    exact hring.closes z hz s rfl

/-- After a node's neighbours are linked to each other, each class is a ring without the node. -/
theorem RingsBut.of_unlink (h : Rings p) (hy : p.next? s = some y) (hz : p.prev? s = some z)
    (hlink : q.Linked z y) (hnext : ∀ u, u ≠ z → q.next? u = p.next? u)
    (hprev : ∀ u, u ≠ y → q.prev? u = p.prev? u) (hclass : ∀ u, q.class? u = p.class? u) :
    RingsBut q s := by
  obtain ⟨hsy, hzs⟩ := h.linked trivial hy hz
  intro id
  obtain ⟨c, hc, hmem⟩ := h id
  refine ⟨c.erase s, hc.erase hsy hzs hlink hnext hprev, fun t => ?_⟩
  rw [hc.nodup.mem_erase_iff, hmem, hclass, true_and]

theorem RingsBut.alone (h : RingsBut p s) (hs : q.Linked s s)
    (hnext : ∀ u, u ≠ s → q.next? u = p.next? u) (hprev : ∀ u, u ≠ s → q.prev? u = p.prev? u)
    (hclass : ∀ u, u ≠ s → q.class? u = p.class? u) (hid : q.class? s = some id)
    (hfresh : ∀ u, u ≠ s → p.class? u ≠ some id) : Rings q := by
  intro id'
  by_cases hsame : id' = id
  · subst hsame
    refine ⟨[s], .singleton hs, fun t => ?_⟩
    rw [List.mem_singleton]
    refine ⟨?_, fun ⟨_, ht⟩ => by_contra fun hts => ?_⟩
    · rintro rfl
      exact ⟨trivial, hid⟩
    · exact hfresh t hts (hclass t hts ▸ ht)
  · obtain ⟨c, hc, hmem⟩ := h id'
    refine ⟨c, hc.congr (fun u hu => hnext u ((hmem u).mp hu).1)
      (fun u hu => hprev u ((hmem u).mp hu).1), fun t => ?_⟩
    rw [hmem]
    by_cases hts : t = s
    · subst hts
      simp [hid, Ne.symm hsame]
    · simp [hts, hclass t hts]

theorem RingsBut.join (h : RingsBut p s) (hts : t ≠ s) (hid : p.class? t = some id)
    (hty : p.Linked t y) (hin : q.Linked t s) (hout : q.Linked s y)
    (hnext : ∀ u, u ≠ s → u ≠ t → q.next? u = p.next? u)
    (hprev : ∀ u, u ≠ s → u ≠ y → q.prev? u = p.prev? u)
    (hclass : ∀ u, u ≠ s → q.class? u = p.class? u) (hsid : q.class? s = some id) : Rings q := by
  intro id'
  obtain ⟨c, hc, hmem⟩ := h id'
  have hsc : s ∉ c := fun hs => ((hmem s).mp hs).1 rfl
  by_cases hsame : id' = id
  · subst hsame
    obtain ⟨xs, hring, hxs⟩ := hc.exists_cons ((hmem t).mpr ⟨hts, hid⟩)
    have hnot : s ∉ t :: xs := fun hs => hsc ((hxs s).mp hs)
    refine ⟨t :: s :: xs, hring.insert_behind hnot hty.1 hin hout hnext hprev, fun u => ?_⟩
    have hu := (hxs u).trans (hmem u)
    by_cases hus : u = s
    · simp [hus, hsid]
    · simpa [hus, hclass u hus] using hu
  · have htc : t ∉ c := fun ht => hsame (by simpa [hid, eq_comm] using ((hmem t).mp ht).2)
    refine ⟨c, hc.pass_by hsc htc hty hnext hprev, fun u => ?_⟩
    rw [hmem]
    by_cases hus : u = s
    · subst hus
      simp [hsid, Ne.symm hsame]
    · simp [hus, hclass u hus]

end BytecodeAssembler.RegisterPool
