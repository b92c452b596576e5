import BytecodeAssembler.Proofs.RegisterPool.Soundness
import BytecodeAssembler.RegisterPool.Check
import BytecodeAssembler.RegisterPool.Ring
import Mathlib.Data.List.Perm.Subperm
import Mathlib.Order.Bounds.Basic

/-! # Walks around the rings of a sound pool

`Visits` is the walk that follows `next` until it is back, without a bound on its steps. In a sound
pool it comes to an end, passing each node of the class once. The bounded walks of the model and of
the check are long enough to follow it, so that the check finds nothing to report.
-/
namespace BytecodeAssembler.RegisterPool
variable {p : RegisterPool} {s t start : Slot} {n m : Node} {xs l : List Slot}

/-- The slots met from `s` on, up to the one whose node points to `start`. -/
inductive Visits (p : RegisterPool) (start : Slot) : Slot → List Slot → Prop
  | last {s : Slot} {n : Node} (hn : p.node? s = some n) (hnext : n.next = start) :
    Visits p start s [s]
  | step {s : Slot} {n : Node} {l : List Slot} (hn : p.node? s = some n) (hnext : n.next ≠ start)
    (h : Visits p start n.next l) : Visits p start s (s :: l)

theorem visits_of_chain (hchain : (s :: xs).IsChain p.Linked) (hout : start ∉ xs)
    (hclose : ∀ z ∈ (s :: xs).getLast?, p.next? z = some start) : p.Visits start s (s :: xs) := by
  induction xs generalizing s with
  | nil =>
    obtain ⟨n, hn, hnext⟩ := Option.map_eq_some_iff.mp (hclose s rfl)
    exact .last hn hnext
  | cons x xs ih =>
    obtain ⟨⟨hx, -⟩, hrest⟩ := List.isChain_cons_cons.mp hchain
    obtain ⟨n, hn, rfl⟩ := Option.map_eq_some_iff.mp hx
    rw [List.getLast?_cons_cons] at hclose
    refine .step hn ?_ (ih hrest (fun h => hout (List.mem_cons_of_mem _ h)) hclose)
    rintro rfl
    exact hout List.mem_cons_self

theorem Ring.visits (h : Ring p (s :: xs)) : p.Visits s s (s :: xs) :=
  visits_of_chain h.chain (List.nodup_cons.mp h.nodup).1 fun z hz => (h.closes z hz s rfl).1

theorem ringFrom_succ (hn : p.node? s = some n) (start : Slot) (bound : Nat) :
    p.ringFrom start (bound + 1) s =
      if n.next = start then .ok [(s, n)]
      else (p.ringFrom start bound n.next).map ((s, n) :: ·) := by
  simp only [RegisterPool.ringFrom, node, hn, bind, Except.bind]
  split
  · rfl
  · cases p.ringFrom start bound n.next <;> rfl

/-- The bounded walk is the whole walk if the bound allows for its length. -/
theorem Visits.ringFrom (h : p.Visits start s l) {bound : Nat} (hbound : l.length ≤ bound) :
    ∃ ms, p.ringFrom start bound s = .ok ms ∧ ms.map (·.1) = l ∧
      ∀ e ∈ ms, p.node? e.1 = some e.2 := by
  induction h generalizing bound with
  | @last s n hn hnext =>
    cases bound with
    | zero => cases hbound
    | succ bound =>
      exact ⟨[(s, n)], by rw [ringFrom_succ hn, if_pos hnext], rfl, List.forall_mem_singleton.mpr hn⟩
  | @step s n l hn hnext _ ih =>
    cases bound with
    | zero => cases hbound
    | succ bound =>
      obtain ⟨ms, hms, hmap, hnodes⟩ := ih (Nat.le_of_succ_le_succ hbound)
      refine ⟨(s, n) :: ms, ?_, by rw [List.map_cons, hmap], List.forall_mem_cons.mpr ⟨hn, hnodes⟩⟩
      rw [ringFrom_succ hn, if_neg hnext, hms]
      rfl

theorem Sound.exists_ring (h : Sound p) (hn : p.node? s = some n) :
    ∃ xs, Ring p (s :: xs) ∧ ∀ t, t ∈ s :: xs ↔ p.class? t = some n.classId := by
  obtain ⟨c, hc, hmem⟩ := h.rings n.classId
  obtain ⟨xs, hring, hxs⟩ := hc.exists_cons ((hmem s).mpr ⟨trivial, by simp [class?, hn]⟩)
  exact ⟨xs, hring, fun t => by rw [hxs, hmem, true_and]⟩

theorem isLive_of_class? {id : ClassId} (h : p.class? t = some id) : p.isLive t := by
  obtain ⟨m, hm, -⟩ := Option.map_eq_some_iff.mp h
  exact isLive_of_node? hm

theorem Ring.isLive {c : List Slot} (h : Ring p c) (ht : t ∈ c) : p.isLive t := by
  obtain ⟨xs, hring, -⟩ := h.exists_cons ht
  obtain ⟨z, hz⟩ : ∃ z, (t :: xs).getLast? = some z := ⟨_, List.getLast?_eq_some_getLast (by simp)⟩
  exact (hring.closes z hz t rfl).isLive.2

theorem length_le_size (hl : l.Nodup) (hlive : ∀ t ∈ l, p.isLive t) : l.length ≤ p.slots.size := by
  have hsub : l ⊆ List.range p.slots.size := by
    intro t ht
    obtain ⟨n, hn⟩ := isLive_iff.mp (hlive t ht)
    exact List.mem_range.mpr (lt_size_of_node? hn)
  simpa using (hl.subperm hsub).length_le

theorem Stored.length_le_length (h : Stored p) (hl : l.Nodup) (hlive : ∀ t ∈ l, p.isLive t) :
    l.length ≤ p.length := by
  have hsub : l ⊆ p.index.map (·.2) := by
    intro t ht
    obtain ⟨n, hn⟩ := isLive_iff.mp (hlive t ht)
    exact List.mem_map.mpr ⟨(n.register, t), (h.mem_index _ _).mpr ⟨n, hn, rfl⟩, rfl⟩
  simpa [RegisterPool.length] using (hl.subperm hsub).length_le

theorem sameClass_iff (hn : p.node? s = some n) :
    p.isLive t ∧ p.sameClass s t = .ok true ↔ p.class? t = some n.classId := by
  cases hm : p.node? t with
  | none => simp [isLive, class?, hm]
  | some m =>
    have hsame : p.sameClass s t = .ok (n.classId == m.classId) := by
      simp only [sameClass, node, hn, hm]
      rfl
    rw [hsame, class?, hm]
    simp only [isLive_of_node? hm, Except.ok.injEq, beq_iff_eq, true_and, Option.map_some,
      Option.some.injEq]
    exact eq_comm

/-- The nodes met from a node on are those of its ring, cut open at the node. -/
theorem Ring.entries (h : Ring p (s :: xs)) : ∃ ms, p.ring s = .ok ms ∧ ms.map (·.1) = s :: xs ∧
    ∀ e ∈ ms, p.node? e.1 = some e.2 := by
  have hle := length_le_size h.nodup fun _ ht => h.isLive ht
  exact h.visits.ringFrom (hle.trans (Nat.le_succ _))

theorem Ring.members (h : Ring p (s :: xs)) : p.members s = .ok (s :: xs) := by
  obtain ⟨ms, hms, hmap, -⟩ := h.entries
  rw [RegisterPool.members, hms]
  exact congrArg Except.ok hmap

theorem Sound.members (h : Sound p) (hs : p.isLive s) :
    ∃ l, p.Visits s s l ∧ p.members s = .ok l ∧ l.head? = some s ∧ l.Nodup ∧
      ∀ t, t ∈ l ↔ p.isLive t ∧ p.sameClass s t = .ok true := by
  obtain ⟨n, hn⟩ := isLive_iff.mp hs
  obtain ⟨xs, hring, hmem⟩ := h.exists_ring hn
  refine ⟨s :: xs, hring.visits, hring.members, rfl, hring.nodup, fun t => ?_⟩
  rw [hmem, sameClass_iff hn]

theorem leastOnRing_self (p : RegisterPool) (start : Slot) (bound : Nat) (least : Slot) :
    p.leastOnRing start bound least start = .ok least := by
  unfold RegisterPool.leastOnRing
  rw [if_pos rfl]

theorem leastOnRing_succ (hn : p.node? s = some n) (hs : s ≠ start) (bound : Nat)
    (least : Slot) :
    p.leastOnRing start (bound + 1) least s =
      p.leastOnRing start bound (if s < least then s else least) n.next := by
  rw [RegisterPool.leastOnRing.eq_def]
  simp only [hn, if_neg hs]

theorem least_of_smaller {u v m : Slot} (hm : m ∈ (if v < u then v else u) :: l)
    (hle : ∀ t ∈ (if v < u then v else u) :: l, m ≤ t) :
    m ∈ u :: v :: l ∧ ∀ t ∈ u :: v :: l, m ≤ t := by
  simp only [List.mem_cons, forall_eq_or_imp] at hm hle ⊢
  by_cases hlt : v < u
  · rw [if_pos hlt] at hm hle
    exact ⟨.inr hm, hle.1.trans hlt.le, hle.1, hle.2⟩
  · rw [if_neg hlt] at hm hle
    exact ⟨hm.imp_right .inr, hle.1, hle.1.trans (Nat.le_of_not_lt hlt), hle.2⟩

/-- A walk that does not begin at its start finds the least slot on its way, if the bound allows for
its length. -/
theorem Visits.leastOnRing (h : p.Visits start s l) (hout : start ∉ l) {bound : Nat}
    (hbound : l.length ≤ bound) (least : Slot) :
    ∃ m, p.leastOnRing start bound least s = .ok m ∧ m ∈ least :: l ∧ ∀ t ∈ least :: l, m ≤ t := by
  induction h generalizing bound least with
  | @last s n hn hnext =>
    have hs : s ≠ start := fun hs => hout (hs ▸ List.mem_cons_self)
    cases bound with
    | zero => cases hbound
    | succ bound =>
      refine ⟨if s < least then s else least, ?_, least_of_smaller List.mem_cons_self ?_⟩
      · rw [leastOnRing_succ hn hs, hnext, leastOnRing_self]
      · exact fun t ht => (List.mem_singleton.mp ht).ge
  | @step s n l hn hnext _ ih =>
    have hs : s ≠ start := fun hs => hout (hs ▸ List.mem_cons_self)
    cases bound with
    | zero => cases hbound
    | succ bound =>
      obtain ⟨m, hm, hmem, hle⟩ := ih (fun h => hout (List.mem_cons_of_mem _ h))
        (Nat.le_of_succ_le_succ hbound) (if s < least then s else least)
      exact ⟨m, by rw [leastOnRing_succ hn hs, hm], least_of_smaller hmem hle⟩

theorem Sound.linkDefect? (h : Sound p) (hn : p.node? s = some n) : p.linkDefect? s n = none := by
  obtain ⟨⟨y, hy, -, hid, hback⟩, z, hz, -, -, hforth⟩ := h.rings.neighbour_nodes trivial hn
  simp [RegisterPool.linkDefect?, hy, hz, hback, hforth, hid]

theorem Sound.leastOnRing (h : Sound p) (hn : p.node? s = some n) :
    ∃ m, p.leastOnRing s p.length s n.next = .ok m ∧
      IsLeast {t | p.class? t = some n.classId} m := by
  obtain ⟨xs, hring, hmem⟩ := h.exists_ring hn
  have hleast : ∀ m, m ∈ s :: xs → (∀ t ∈ s :: xs, m ≤ t) →
      IsLeast {t | p.class? t = some n.classId} m := by
    intro m hm hle
    exact ⟨(hmem m).mp hm, fun t ht => hle t ((hmem t).mpr ht)⟩
  have hlive : ∀ t ∈ xs, p.isLive t := fun t ht =>
    isLive_of_class? ((hmem t).mp (List.mem_cons_of_mem _ ht))
  have hbound := h.stored.length_le_length hring.nodup.of_cons hlive
  cases xs with
  | nil =>
    have hnext : n.next = s := by simpa [next?, hn] using hring.next?_eq
    exact ⟨s, by rw [hnext, leastOnRing_self], hleast s (by simp) (by simp)⟩
  | cons x xs =>
    obtain ⟨⟨hx, -⟩, hchain⟩ := List.isChain_cons_cons.mp hring.chain
    have hnext : n.next = x := by simpa [next?, hn] using hx
    have hclose : ∀ z ∈ (x :: xs).getLast?, p.next? z = some s := fun z hz =>
      (hring.closes z (by rwa [List.getLast?_cons_cons]) s rfl).1
    obtain ⟨hout, -⟩ := List.nodup_cons.mp hring.nodup
    have hvisits : p.Visits s x (x :: xs) :=
      visits_of_chain hchain (fun h => hout (List.mem_cons_of_mem _ h)) hclose
    obtain ⟨m, hm, hmin, hle⟩ := hvisits.leastOnRing hout hbound s
    exact ⟨m, by rw [hnext, hm], hleast m hmin hle⟩

theorem Sound.checkNodes (h : Sound p) (seen : List (ClassId × Slot))
    (hseen : ∀ id m, seen.lookup id = some m → IsLeast {t | p.class? t = some id} m)
    (ns : List (Slot × Node)) (hns : ∀ e ∈ ns, p.node? e.1 = some e.2) :
    p.checkNodes seen ns = .ok () := by
  induction ns generalizing seen with
  | nil => rfl
  | cons e ns ih =>
    obtain ⟨s, n⟩ := e
    have hn := hns (s, n) List.mem_cons_self
    have hrest : ∀ e ∈ ns, p.node? e.1 = some e.2 := fun e he => hns e (List.mem_cons_of_mem _ he)
    obtain ⟨m, hm, hleast⟩ := h.leastOnRing hn
    simp only [RegisterPool.checkNodes, h.linkDefect? hn, hm, bind, Except.bind]
    cases hlookup : seen.lookup n.classId with
    | some other =>
      have hsame : other = m := (hseen _ _ hlookup).unique hleast
      simp only [hsame, ↓reduceIte]
      exact ih seen hseen hrest
    | none =>
      refine ih _ (fun id m' hid => ?_) hrest
      rw [List.lookup_cons] at hid
      split at hid
      next heq =>
        cases hid
        rw [beq_iff_eq.mp heq]
        exact hleast
      next => exact hseen id m' hid

theorem Sound.check (h : Sound p) : p.check = .ok () := by
  have hnodes := h.checkNodes [] (by simp) p.nodes fun e he => mem_nodes.mp he
  rw [RegisterPool.check, hnodes]
  rfl

/-- In a proper run from the empty pool no call meets a freed slot, and after each call the links of
every node lead to live nodes that point back, the members of a node are the nodes of its class, each
met once on a walk that ends, and the check finds nothing to report. -/
theorem rings_stay_consistent (calls : List Call) (hproper : empty.Proper calls) :
    ∀ pre post, calls = pre ++ post →
      let p := empty.after pre
      (∀ c rest, post = c :: rest → ∀ s, (p.step c).1 ≠ .error (.stale s)) ∧
      (∀ s n, p.node? s = some n → ∃ y z, p.node? n.next = some y ∧ p.node? n.prev = some z ∧
        y.prev = s ∧ z.next = s) ∧
      (∀ s, p.isLive s → ∃ l, p.Visits s s l ∧ p.members s = .ok l ∧ l.head? = some s ∧ l.Nodup ∧
        ∀ t, t ∈ l ↔ p.isLive t ∧ p.sameClass s t = .ok true) ∧
      p.check = .ok () := by
  rintro pre post rfl p
  obtain ⟨hsound, hpost⟩ := sound_empty.after hproper
  refine ⟨?_, ?_, fun s hs => hsound.members hs, hsound.check⟩
  · rintro c rest rfl s
    rcases hsound.step hpost.1 with ⟨r, q, hstep, -⟩ | ⟨r, hstep⟩
    · simp [p, hstep]
    · simp [p, hstep]
  · intro s n hn
    obtain ⟨⟨y, hy, -, -, hback⟩, z, hz, -, -, hforth⟩ :=
      hsound.rings.neighbour_nodes trivial hn
    exact ⟨y, z, hy, hz, hback, hforth⟩

/-- Three registers of one class; one leaves it, another is released, and its slot is used again for
a register that joins the first class. -/
def recycledSlot : List Call :=
  [.insert ⟨0⟩ 0 true true, .insert ⟨1⟩ 1 false true, .insert ⟨2⟩ 2 false true, .join 1 0, .join 2 0,
   .split 1 3 true, .free 0, .insert ⟨3⟩ 4 false true, .join 0 2, .join 0 0]

theorem rings_stay_consistent_recycledSlot :
    empty.Proper recycledSlot ∧ (empty.after recycledSlot).members 2 = .ok [2, 0] ∧
      (empty.after recycledSlot).check = .ok () := by
  have hproper : empty.Proper recycledSlot := by decide
  have hconsistent := rings_stay_consistent recycledSlot hproper recycledSlot [] (by simp)
  exact ⟨hproper, by rfl, hconsistent.2.2.2⟩

end BytecodeAssembler.RegisterPool
