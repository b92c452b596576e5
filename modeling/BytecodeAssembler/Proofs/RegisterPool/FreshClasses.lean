import BytecodeAssembler.Proofs.RegisterPool.Traversal
import Mathlib.Data.List.Nodup

/-! # Class ids stay fresh

A thrifty client draws the id of each class that it starts. It keeps the ids it has drawn in stock,
and a call that starts a class takes one out, also where the call is refused. Joins copy ids from node
to node, so that an id may outlive the node it was drawn for; but a node only ever carries an id that
has left the stock. Until the counter of ids starts over no id is drawn twice, and so the ids in stock
are carried by no node.
-/
namespace BytecodeAssembler.RegisterPool
variable {p q : RegisterPool} {c : Call} {r : Except Fault Reply} {s : Slot} {id : ClassId}
  {issued stock : List ClassId}

/-- The id of the class that the call starts. -/
def Call.newClass? : Call → Option ClassId
  | .insert _ id _ _ | .split _ id _ => some id
  | .freshClass | .free _ | .join .. | .setMaterialized .. | .setAllocated .. | .setNeedsFlush .. =>
    none

/-- The id that an answer hands out. -/
def drawn? : Except Fault Reply → Option ClassId
  | .ok (.classId id) => some id
  | .ok .done | .ok (.slot _) | .error _ => none

def drawn (p : RegisterPool) (calls : List Call) : List ClassId := (p.run calls).1.filterMap drawn?

/-- A stock of ids after a call, with what the call hands out and without what it uses. -/
def restock (p : RegisterPool) (c : Call) (stock : List ClassId) : List ClassId :=
  p.drawn [c] ++ stock.diff c.newClass?.toList

/-- Each call is made on live slots, and starts a class only with an id in stock. -/
def Thrifty (p : RegisterPool) (stock : List ClassId) : List Call → Prop
  | [] => True
  | c :: calls => c.OnLive p ∧ (∀ id ∈ c.newClass?, id ∈ stock) ∧
    Thrifty (p.step c).2 (p.restock c stock) calls

instance decidableThrifty (p : RegisterPool) (stock : List ClassId) (calls : List Call) :
    Decidable (p.Thrifty stock calls) :=
  match calls with
  | [] => inferInstanceAs (Decidable True)
  | c :: calls =>
    -- a search over all ids would decide the condition on the stock as well
    have : Decidable (∀ id ∈ c.newClass?, id ∈ stock) :=
      decidable_of_iff (c.newClass?.toList.all (· ∈ stock) = true) (by simp)
    have := decidableThrifty (p.step c).2 (p.restock c stock) calls
    inferInstanceAs (Decidable (c.OnLive p ∧ (∀ id ∈ c.newClass?, id ∈ stock) ∧
      Thrifty (p.step c).2 (p.restock c stock) calls))

theorem drawn_cons (p : RegisterPool) (c : Call) (calls : List Call) :
    p.drawn (c :: calls) = p.drawn [c] ++ (p.step c).2.drawn calls := by
  simp only [drawn, run, List.filterMap_cons, List.filterMap_nil]
  cases drawn? (p.step c).1 <;> rfl

theorem drawn_singleton (p : RegisterPool) (c : Call) :
    p.drawn [c] = (drawn? (p.step c).1).toList := by
  simp only [drawn, run, List.filterMap_cons, List.filterMap_nil]
  cases drawn? (p.step c).1 <;> rfl

/-- `issued` lists the ids handed out so far and `stock` those of them that are not used yet. -/
structure Accounts (p : RegisterPool) (issued stock : List ClassId) : Prop where
  sound : Sound p
  counter : p.nextClass = .ofNat issued.length
  below : ∀ id ∈ issued, id.toNat < issued.length
  carried : ∀ s id, p.class? s = some id → id ∈ issued ∧ id ∉ stock
  nodup : stock.Nodup
  stocked : stock ⊆ issued

theorem accounts_empty : Accounts empty [] [] := by
  refine ⟨sound_empty, rfl, by simp, fun s id hs => ?_, .nil, by simp⟩
  simp [class?, node?, empty] at hs

namespace Effect

theorem counter (he : Effect p c r q) (hc : c ≠ .freshClass) :
    drawn? r = none ∧ q.nextClass = p.nextClass := by
  cases he with
  | drew => exact absurd rfl hc
  | refused => exact ⟨rfl, rfl⟩
  | entered => exact ⟨rfl, nextClass_reserve p⟩
  | @freed s n => exact ⟨rfl, show (p.bypass n).nextClass = _ by simp [bypass]⟩
  | joined => exact ⟨rfl, by simp [splice, bypass]⟩
  | parted => exact ⟨rfl, by simp [isolate, bypass]⟩
  | copied | setMaterialized | setAllocated | setNeedsFlush => exact ⟨rfl, by simp⟩

/-- A node carries an id that some node carried before, or the one of a class that was started. -/
theorem class?_of (he : Effect p c r q) (h : Stored p) (hs : q.class? s = some id) :
    (∃ t, p.class? t = some id) ∨ id ∈ c.newClass? := by
  cases he with
  | drew | refused => exact .inl ⟨s, hs⟩
  | entered =>
    rw [class?, h.node?_enter] at hs
    split at hs
    · exact .inr hs
    · exact .inl ⟨s, hs⟩
  | @freed t n =>
    rw [class?, node?_drop] at hs
    split at hs
    · cases hs
    · exact .inl ⟨s, by rwa [← class?_bypass p n]⟩
  | @joined t u n m htu _ hm hsy =>
    rw [class?_splice _ _ htu hsy, class?_bypass] at hs
    split at hs
    -- the node that joins carries the id of the one that it joins
    · obtain ⟨-, -, rfl⟩ := Option.map_eq_some_iff.mp hs
      exact .inl ⟨u, by rw [← class?_bypass p n, class?, hm, Option.map_some]⟩
    · exact .inl ⟨s, hs⟩
  | parted =>
    rw [class?_isolate, class?_bypass] at hs
    split at hs
    · obtain ⟨-, -, rfl⟩ := Option.map_eq_some_iff.mp hs
      exact .inr rfl
    · exact .inl ⟨s, hs⟩
  | copied | setMaterialized | setAllocated | setNeedsFlush =>
    rw [class?_adjust] at hs
    · exact .inl ⟨s, hs⟩
    · exact fun _ => rfl

end Effect

theorem Sound.drawn_singleton (h : Sound p) (hc : c.OnLive p) (hne : c ≠ .freshClass) :
    p.drawn [c] = [] := by
  rw [RegisterPool.drawn_singleton, ((h.effect hc).counter hne).1, Option.toList_none]

namespace Accounts

theorem admissible (h : Accounts p issued stock) (hc : c.OnLive p)
    (hspend : ∀ id ∈ c.newClass?, id ∈ stock) : c.Admissible p := by
  have hunused : ∀ id ∈ c.newClass?, ∀ s, p.UnusedBut id s := by
    rintro _ hnew s t n hn rfl
    exact absurd (hspend _ hnew) (h.carried t _ (by rw [class?, hn, Option.map_some])).2
  cases c with
  | freshClass => trivial
  | insert r id b allocated => exact hunused id rfl none
  | split s id b => exact ⟨hc, hunused id rfl (some s)⟩
  | free | join | setMaterialized | setAllocated | setNeedsFlush => exact hc

/-- The id that is drawn was not handed out before, as long as the counter has not started over. -/
theorem draw (h : Accounts p issued stock) (hcount : issued.length < UInt32.size) :
    Accounts (p.step .freshClass).2 (issued ++ p.drawn [.freshClass])
      (p.restock .freshClass stock) := by
  have htoNat : p.nextClass.toNat = issued.length := by
    rw [h.counter, UInt32.toNat_ofNat_of_lt' hcount]
  have hnew : p.nextClass ∉ issued := fun hid => (h.below _ hid).ne htoNat
  show Accounts { p with nextClass := p.nextClass + 1 } (issued ++ [p.nextClass])
    (p.nextClass :: stock)
  refine ⟨h.sound.setNextClass _, ?_, ?_, ?_, ?_, ?_⟩
  · rw [List.length_append, UInt32.ofNat_add, ← h.counter]
    rfl
  · intro id hid
    rw [List.length_append, List.length_singleton]
    rcases List.mem_append.mp hid with hid | hid
    · exact (h.below id hid).trans (Nat.lt_succ_self _)
    · rw [List.mem_singleton.mp hid, htoNat]
      exact Nat.lt_succ_self _
  · intro s id hs
    obtain ⟨hissued, hout⟩ := h.carried s id hs
    refine ⟨List.mem_append_left _ hissued, fun hid => ?_⟩
    rcases List.mem_cons.mp hid with rfl | hid
    · exact hnew hissued
    · exact hout hid
  · exact List.nodup_cons.mpr ⟨fun hid => hnew (h.stocked hid), h.nodup⟩
  · intro id hid
    rcases List.mem_cons.mp hid with rfl | hid
    · exact List.mem_append_right _ List.mem_cons_self
    · exact List.mem_append_left _ (h.stocked hid)

/-- The id that is used leaves the stock, so that a node may carry it from now on. -/
theorem spend (h : Accounts p issued stock) (hc : c.OnLive p) (hne : c ≠ .freshClass)
    (hspend : ∀ id ∈ c.newClass?, id ∈ stock) :
    Accounts (p.step c).2 (issued ++ p.drawn [c]) (p.restock c stock) := by
  have he := h.sound.effect hc
  rw [restock, h.sound.drawn_singleton hc hne, List.append_nil, List.nil_append]
  refine ⟨he.sound h.sound (h.admissible hc hspend), (he.counter hne).2.trans h.counter, h.below,
    fun s id hs => ?_, h.nodup.diff, fun id hid => h.stocked (List.diff_subset _ _ hid)⟩
  rw [h.nodup.mem_sdiff_iff, Option.mem_toList]
  rcases he.class?_of h.sound.stored hs with ⟨t, ht⟩ | hnew
  · exact ⟨(h.carried t id ht).1, fun hid => (h.carried t id ht).2 hid.1⟩
  · exact ⟨h.stocked (hspend id hnew), fun hid => hid.2 hnew⟩

/-- At any point of a thrifty run the ids are accounted for, and the rest of the run is thrifty. -/
theorem after (h : Accounts p issued stock) {pre post : List Call}
    (hthrifty : p.Thrifty stock (pre ++ post))
    (hcount : issued.length + pre.count .freshClass ≤ UInt32.size) :
    ∃ left, Accounts (p.after pre) (issued ++ p.drawn pre) left ∧
      (p.after pre).Thrifty left post := by
  induction pre generalizing p issued stock with
  | nil => exact ⟨stock, by rwa [show p.drawn [] = [] from rfl, List.append_nil], hthrifty⟩
  | cons c pre ih =>
    obtain ⟨hc, hspend, hrest⟩ := hthrifty
    rw [drawn_cons, ← List.append_assoc]
    by_cases hne : c = .freshClass
    · subst hne
      rw [List.count_cons_self] at hcount
      have hlength : (issued ++ p.drawn [.freshClass]).length = issued.length + 1 := List.length_append
      exact ih (h.draw (by omega)) hrest (by omega)
    · rw [List.count_cons_of_ne hne] at hcount
      have hdrawn := h.sound.drawn_singleton hc hne
      exact ih (h.spend hc hne hspend) hrest (by rwa [hdrawn, List.append_nil])

end Accounts

/-- A client makes its calls on live slots, starts each class with an id that it has drawn, and uses an
id that it has drawn once, also where the call is refused. As long as it does not draw more ids than
there are, no live node carries an id when it is used, every id that a live node carries was drawn
before, and the check has nothing to report. -/
theorem class_ids_stay_fresh (calls : List Call) (hthrifty : empty.Thrifty [] calls)
    (hcount : calls.count .freshClass ≤ UInt32.size) :
    ∀ pre post, calls = pre ++ post →
      let p := empty.after pre
      (∀ c rest, post = c :: rest → ∀ id, c.newClass? = some id →
        ∀ s n, p.node? s = some n → n.classId ≠ id) ∧
      (∀ s n, p.node? s = some n → n.classId ∈ empty.drawn pre) ∧
      p.check = .ok () := by
  rintro pre post rfl p
  rw [List.count_append] at hcount
  have hpre : ([] : List ClassId).length + pre.count .freshClass ≤ UInt32.size := by
    rw [List.length_nil]
    omega
  obtain ⟨left, h, hpost⟩ := accounts_empty.after hthrifty hpre
  have hclass : ∀ s n, p.node? s = some n → p.class? s = some n.classId := by
    intro s n hn
    rw [class?, hn, Option.map_some]
  refine ⟨?_, fun s n hn => (h.carried s _ (hclass s n hn)).1, h.sound.check⟩
  rintro c rest rfl id hid s n hn rfl
  exact (h.carried s _ (hclass s n hn)).2 (hpost.2.1 _ hid)

/-- Three ids are drawn before two are used; the id of a class outlives the node it was drawn for; an
insertion is refused, and a freed slot is used again. -/
def thriftyRun : List Call :=
  [.freshClass, .insert ⟨0⟩ 0 true true, .freshClass, .freshClass, .insert ⟨1⟩ 2 false true, .join 1 0,
   .insert ⟨1⟩ 1 true true, .free 0, .freshClass, .insert ⟨2⟩ 3 true false, .freshClass, .join 0 1,
   .split 1 4 true]

theorem class_ids_stay_fresh_thriftyRun :
    empty.Thrifty [] thriftyRun ∧ thriftyRun.count .freshClass ≤ UInt32.size ∧
      ((empty.after thriftyRun).node? 0).map (·.classId) = some 0 ∧
      ((empty.after thriftyRun).node? 1).map (·.classId) = some 4 ∧
      (empty.after thriftyRun).check = .ok () := by
  have hthrifty : empty.Thrifty [] thriftyRun := by decide
  have hcount : thriftyRun.count .freshClass ≤ UInt32.size := by decide +kernel
  have hfresh := class_ids_stay_fresh thriftyRun hthrifty hcount thriftyRun [] (by simp)
  exact ⟨hthrifty, hcount, rfl, rfl, hfresh.2.2⟩

end BytecodeAssembler.RegisterPool
