import BytecodeAssembler.Proofs.RegisterPool.Checking
import BytecodeAssembler.Proofs.RegisterPool.Slots

/-! # Looking for a node of a class

A lookup follows `next` from a node until it meets one that will do or is about to come back to where
it began. `Searches` is this loop, with the number of nodes it looks at. In a sound pool these are at
most as many as the class has; the loop stops at the first node that will do, and it comes back only
if there is none in the class, wherever it began.
-/
namespace BytecodeAssembler.RegisterPool
variable {p q : RegisterPool} {good : Node → Bool} {s t u start : Slot} {n : Node}

/-- Following `next` from the node in `s`, the first one met that is good is the one in `t`. -/
inductive FirstMet (p : RegisterPool) (good : Node → Bool) : Slot → Slot → Prop
  | here {s : Slot} {n : Node} (hn : p.node? s = some n) (hgood : good n) : FirstMet p good s s
  | later {s t : Slot} {n : Node} (hn : p.node? s = some n) (hbad : good n = false)
    (h : FirstMet p good n.next t) : FirstMet p good s t

/-- From the node in `s` on, the loop that began at `start` looks at so many nodes before it gives its
answer. -/
inductive Searches (p : RegisterPool) (good : Node → Bool) (start : Slot) :
    Slot → Nat → Option Slot → Prop
  | found {s : Slot} {n : Node} (hn : p.node? s = some n) (hgood : good n) :
    Searches p good start s 1 (some s)
  | back {s : Slot} {n : Node} (hn : p.node? s = some n) (hbad : good n = false)
    (hnext : n.next = start) : Searches p good start s 1 none
  | on {s : Slot} {n : Node} {k : Nat} {answer : Option Slot} (hn : p.node? s = some n)
    (hbad : good n = false) (hnext : n.next ≠ start) (h : Searches p good start n.next k answer) :
    Searches p good start s (k + 1) answer

/-- How many nodes the class of `s` has. -/
def classSize (p : RegisterPool) (s : Slot) : Nat :=
  (List.range p.slots.size).countP fun t => p.class? t = p.class? s

/-- The first good node on the way round the ring of `s`. -/
def firstOnRing (p : RegisterPool) (good : Node → Bool) (s : Slot) : Except Fault (Option Slot) :=
  (p.ring s).map fun ms => (ms.find? (good ·.2)).map (·.1)

/-- The answer of a lookup: the loop gives it within the size of the class, it is the first good node
met, and there is none only if no node of the class is good. -/
structure Finds (p : RegisterPool) (good : Node → Bool) (s : Slot) (answer : Option Slot) : Prop where
  ends : ∃ k ≤ p.classSize s, p.Searches good s s k answer
  first : ∀ t, answer = some t ↔ p.FirstMet good s t
  misses : answer = none ↔
    ∀ t m, p.node? t = some m → p.class? t = p.class? s → good m = false

theorem FirstMet.unique (h : p.FirstMet good s t) (h' : p.FirstMet good s u) : t = u := by
  induction h with
  | @here s n hn hgood =>
    cases h' with
    | here => rfl
    | later hn' hbad =>
      obtain rfl := Option.some.inj (hn.symm.trans hn')
      cases hbad.symm.trans hgood
  | @later s t n hn hbad _ ih =>
    cases h' with
    | here hn' hgood =>
      obtain rfl := Option.some.inj (hn.symm.trans hn')
      cases hbad.symm.trans hgood
    | later hn' _ h' =>
      obtain rfl := Option.some.inj (hn.symm.trans hn')
      exact ih h'

/-- A node is met first in one pool as in another if links and good nodes are the same there. -/
theorem FirstMet.congr (hsame : ∀ t, (p.node? t).map (fun n => (n.next, good n)) =
    (q.node? t).map fun n => (n.next, good n)) (h : p.FirstMet good s t) : q.FirstMet good s t := by
  have hnode : ∀ {s n}, p.node? s = some n →
      ∃ m, q.node? s = some m ∧ m.next = n.next ∧ good m = good n := by
    intro s n hn
    have hs := hsame s
    rw [hn, Option.map_some] at hs
    obtain ⟨m, hm, heq⟩ := Option.map_eq_some_iff.mp hs.symm
    exact ⟨m, hm, Prod.mk.inj heq⟩
  induction h with
  | here hn hgood =>
    obtain ⟨m, hm, -, hsame⟩ := hnode hn
    exact .here hm (hsame ▸ hgood)
  | later hn hbad _ ih =>
    obtain ⟨m, hm, hnext, hsame⟩ := hnode hn
    exact .later hm (hsame ▸ hbad) (hnext ▸ ih)

/-- Whatever is met first lies on the ring and is good. -/
theorem FirstMet.mem_ring {c : List Slot} (h : p.FirstMet good s t) (hc : Ring p c) (hs : s ∈ c) :
    t ∈ c ∧ ∃ m, p.node? t = some m ∧ good m := by
  induction h with
  | @here s n hn hgood => exact ⟨hs, n, hn, hgood⟩
  | @later s t n hn _ _ ih => exact ih (hc.next?_mem hs (by rw [next?, hn, Option.map_some]))

theorem Searches.firstMet {k : Nat} {answer : Option Slot} (h : p.Searches good start s k answer) :
    ∀ t ∈ answer, p.FirstMet good s t := by
  induction h with
  | found hn hgood =>
    rintro t ⟨⟩
    exact .here hn hgood
  | back => simp
  | on hn hbad _ _ ih => exact fun t ht => .later hn hbad (ih t ht)

/-- On a walk that ends, the loop finds what a search of the list of the nodes met finds. -/
theorem Visits.searches {l : List Slot} (h : p.Visits start s l) (good : Node → Bool)
    {ms : List (Slot × Node)} (hmap : ms.map (·.1) = l)
    (hnodes : ∀ e ∈ ms, p.node? e.1 = some e.2) :
    ∃ k ≤ l.length, p.Searches good start s k ((ms.find? (good ·.2)).map (·.1)) := by
  induction h generalizing ms with
  | @last s n hn hnext =>
    obtain ⟨⟨_, m⟩, ms, rfl, rfl, hnil⟩ := List.map_eq_cons_iff.mp hmap
    obtain rfl := List.map_eq_nil_iff.mp hnil
    obtain rfl : n = m := Option.some.inj (hn.symm.trans (hnodes _ List.mem_cons_self))
    refine ⟨1, le_rfl, ?_⟩
    cases hgood : good n with
    | true => simpa [List.find?, hgood] using Searches.found hn hgood
    | false => simpa [List.find?, hgood] using Searches.back hn hgood hnext
  | @step s n l hn hnext _ ih =>
    obtain ⟨⟨_, m⟩, ms, rfl, rfl, hrest⟩ := List.map_eq_cons_iff.mp hmap
    obtain ⟨hm, hms⟩ := List.forall_mem_cons.mp hnodes
    obtain rfl : n = m := Option.some.inj (hn.symm.trans hm)
    cases hgood : good n with
    | true =>
      refine ⟨1, Nat.le_add_left .., ?_⟩
      simpa [List.find?, hgood] using Searches.found hn hgood
    | false =>
      obtain ⟨k, hk, hsearch⟩ := ih hrest hms
      refine ⟨k + 1, Nat.succ_le_succ hk, ?_⟩
      simpa [List.find?, hgood] using Searches.on hn hgood hnext hsearch

theorem Ring.length_eq_classSize {c : List Slot} (h : Ring p c)
    (hmem : ∀ t, t ∈ c ↔ p.class? t = p.class? s) : c.length = p.classSize s := by
  rw [classSize, List.countP_eq_length_filter]
  refine ((List.perm_ext_iff_of_nodup h.nodup (List.nodup_range.filter _)).mpr fun t => ?_).length_eq
  rw [List.mem_filter, List.mem_range, decide_eq_true_eq, hmem]
  refine ⟨fun ht => ⟨?_, ht⟩, And.right⟩
  obtain ⟨n, hn⟩ := isLive_iff.mp (h.isLive ((hmem t).mpr ht))
  exact lt_size_of_node? hn

theorem Sound.finds (h : Sound p) (hs : p.isLive s) (good : Node → Bool) :
    ∃ answer, p.firstOnRing good s = .ok answer ∧ p.Finds good s answer := by
  obtain ⟨n, hn⟩ := isLive_iff.mp hs
  have hid : p.class? s = some n.classId := by rw [class?, hn, Option.map_some]
  obtain ⟨xs, hring, hmem⟩ := h.exists_ring hn
  rw [← hid] at hmem
  obtain ⟨ms, hms, hmap, hnodes⟩ := hring.entries
  refine ⟨(ms.find? (good ·.2)).map (·.1), by rw [firstOnRing, hms]; rfl, ?_⟩
  obtain ⟨k, hk, hsearch⟩ := hring.visits.searches good hmap hnodes
  rw [hring.length_eq_classSize hmem] at hk
  have hnone : (ms.find? (good ·.2)).map (·.1) = none ↔
      ∀ t m, p.node? t = some m → p.class? t = p.class? s → good m = false := by
    rw [Option.map_eq_none_iff, List.find?_eq_none]
    constructor
    · intro hbad t m hm hclass
      have hmet : t ∈ ms.map (·.1) := hmap ▸ (hmem t).mpr hclass
      obtain ⟨⟨t, m'⟩, he, rfl⟩ := List.mem_map.mp hmet
      obtain rfl := Option.some.inj ((hnodes _ he).symm.trans hm)
      simpa using hbad _ he
    · intro hbad e he
      have hmet : e.1 ∈ s :: xs := hmap ▸ List.mem_map_of_mem he
      simpa using hbad e.1 e.2 (hnodes e he) ((hmem e.1).mp hmet)
  refine ⟨⟨k, hk, hsearch⟩, fun t => ⟨hsearch.firstMet t, fun hfirst => ?_⟩, hnone⟩
  -- a good node is met, so the search has found one, and it is the first one met
  obtain ⟨hmet, m, hm, hgood⟩ := hfirst.mem_ring hring List.mem_cons_self
  cases hanswer : (ms.find? (good ·.2)).map (·.1) with
  | none => cases (hnone.mp hanswer t m hm ((hmem t).mp hmet)).symm.trans hgood
  | some u => rw [(hsearch.firstMet u hanswer).unique hfirst]

/-- Two sound pools in which the links and the good nodes are the same give the same answer. -/
theorem Sound.firstOnRing_congr (hp : Sound p) (hq : Sound q)
    (hsame : ∀ t, (q.node? t).map (fun n => (n.next, good n)) =
      (p.node? t).map fun n => (n.next, good n)) (hs : p.isLive s) :
    q.firstOnRing good s = p.firstOnRing good s := by
  have hs' : q.isLive s := by
    have hlive := congrArg Option.isSome (hsame s)
    rw [Option.isSome_map, Option.isSome_map] at hlive
    rwa [isLive, hlive]
  obtain ⟨answer, hanswer, hfinds⟩ := hp.finds hs good
  obtain ⟨answer', hanswer', hfinds'⟩ := hq.finds hs' good
  rw [hanswer, hanswer']
  refine congrArg Except.ok (Option.ext fun t => ?_)
  rw [hfinds.first, hfinds'.first]
  exact ⟨.congr hsame, .congr fun t => (hsame t).symm⟩

/-- In a pool that passes the check, from any live node on, the two lookups of materialized nodes give
the first one met that is materialized, or that is so and does not hold `r`. They look at no more nodes
than the class has, and give none exactly if no node of the class is materialized, or none but the node
of `r`. Whether that one is materialized makes no difference to the second. -/
theorem materialized_lookups (calls : List Call) (hcheck : (empty.after calls).check = .ok ())
    (s : Slot) (hs : (empty.after calls).isLive s) (r : Register) :
    let p := empty.after calls
    let other := fun m : Node => m.materialized && m.register != r
    (∃ answer, p.materialized? s = .ok answer ∧ p.Finds (·.materialized) s answer) ∧
    (∃ answer, p.materializedOtherThan? s r = .ok answer ∧ p.Finds other s answer ∧
      (answer = none ↔ ∀ t m, p.node? t = some m → p.class? t = p.class? s →
        p.slotOf? r ≠ some t → m.materialized = false)) ∧
    ∀ u b, p.slotOf? r = some u →
      (p.step (.setMaterialized u b)).2.materializedOtherThan? s r =
        p.materializedOtherThan? s r := by
  intro p other
  have h : Sound p := (stored_empty.after calls).sound_of_check hcheck
  obtain ⟨answer, hanswer, hfinds⟩ := h.finds hs other
  refine ⟨h.finds hs _, ⟨answer, hanswer, hfinds, ?_⟩, fun u b hu => ?_⟩
  · rw [hfinds.misses]
    refine forall₄_congr fun t m hm _ => ?_
    have hslot : p.slotOf? r = some t ↔ m.register = r := by
      rw [h.stored.slotOf?_eq_some_iff, hm]
      simp
    rw [ne_eq, hslot]
    by_cases hr : m.register = r
    · simp [other, hr]
    · simp [other, hr]
  · obtain ⟨n, hn, rfl⟩ := h.stored.slotOf?_eq_some_iff.mp hu
    let mark : Node → Node := fun n => { n with materialized := b }
    have hstep : p.step (.setMaterialized u b) = (.ok .done, p.adjust u mark) :=
      step_of_ok rfl (run_update_of_isLive (isLive_of_node? hn) mark)
    have hmarked : Sound (p.adjust u mark) := h.adjust u fun _ => ⟨rfl, rfl, rfl, rfl⟩
    rw [hstep]
    show (p.adjust u mark).firstOnRing other s = p.firstOnRing other s
    refine h.firstOnRing_congr hmarked (fun t => ?_) hs
    rw [node?_adjust]
    split
    next htu =>
      subst htu
      simp [hn, mark, other]
    next => rfl

/-- Three registers of one class, of which the first and the last are materialized. -/
def twoMaterialized : List Call :=
  [.insert ⟨9⟩ 0 true true, .insert ⟨5⟩ 1 false true, .insert ⟨3⟩ 2 false true, .join 1 0, .join 2 1,
   .setMaterialized 2 true]

theorem materialized_lookups_twoMaterialized :
    let p := empty.after twoMaterialized
    p.check = .ok () ∧ p.isLive 1 ∧ p.members 1 = .ok [1, 2, 0] ∧
      p.materialized? 1 = .ok (some 2) ∧ p.FirstMet (·.materialized) 1 2 ∧
      p.materializedOtherThan? 1 ⟨3⟩ = .ok (some 0) ∧
      (p.step (.setMaterialized 2 false)).2.materializedOtherThan? 1 ⟨3⟩ = .ok (some 0) := by
  intro p
  have hcheck : p.check = .ok () := by decide
  have hlive : p.isLive 1 := by decide
  have htwo : p.materialized? 1 = .ok (some 2) := by decide
  have hzero : p.materializedOtherThan? 1 ⟨3⟩ = .ok (some 0) := by decide
  obtain ⟨⟨answer, hanswer, hfinds⟩, -, hflip⟩ :=
    materialized_lookups twoMaterialized hcheck 1 hlive ⟨3⟩
  obtain rfl : some 2 = answer := Except.ok.inj (htwo.symm.trans hanswer)
  exact ⟨hcheck, hlive, by decide, htwo, (hfinds.first 2).mp rfl, hzero,
    (hflip 2 false (by decide)).trans hzero⟩

end BytecodeAssembler.RegisterPool
