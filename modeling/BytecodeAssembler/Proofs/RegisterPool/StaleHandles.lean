import BytecodeAssembler.Proofs.RegisterPool.Checking

/-! # Calls on stale slots

A call that is made on a slot without a node stops before it changes anything. Only a node that is to
join a class behind such a slot is unlinked by then: its neighbours are linked to each other, and its
own links still lead to them. The check finds out, for the neighbours do not link back; and as
unlinking the node once more changes nothing, the next call that moves it does what it would have done
without the failure.
-/
namespace BytecodeAssembler.RegisterPool
variable {p q : RegisterPool} {s t u : Slot} {n : Node} {c : Call}

/-- The slot that the call is made on. -/
def Call.subject? : Call → Option Slot
  | .free s | .join s _ | .split s _ _ | .setMaterialized s _ | .setAllocated s _
  | .setNeedsFlush s _ => some s
  | .freshClass | .insert .. => none

theorem node?_of_not_isLive (hs : p.isLive s = false) : p.node? s = none := by
  simpa [isLive] using hs

theorem step_of_error {m : Step Unit} {e : Fault} (hc : c.perform = do m; return .done)
    (h : m.run p = .error e q) : p.step c = (.error e, q) := by
  simp only [step, hc, EStateM.run_bind, h]

theorem run_update_of_stale (hs : p.isLive s = false) (f : Node → Node) :
    (Step.update s f).run p = .error (.stale s) p := by
  rw [Step.run_update, node?_of_not_isLive hs]

theorem run_bind_unlink_of_stale (hs : p.isLive s = false) {α : Type} (f : Unit → Step α) :
    (Step.unlink s >>= f).run p = .error (.stale s) p := by
  simp only [Step.unlink, EStateM.run_bind, Step.run_node, node?_of_not_isLive hs]

/-- In any pool, whatever else the call names. -/
theorem step_of_stale (hc : c.subject? = some s) (hs : p.isLive s = false) :
    p.step c = (.error (.stale s), p) := by
  cases c with
  | freshClass | insert => cases hc
  | free | split =>
    cases hc
    exact step_of_error rfl (run_bind_unlink_of_stale hs _)
  | setMaterialized | setAllocated | setNeedsFlush =>
    cases hc
    exact step_of_error rfl (run_update_of_stale hs _)
  | join s t =>
    cases hc
    refine step_of_error rfl ?_
    by_cases hst : s = t
    · rw [Step.join, if_pos hst, run_update_of_stale hs]
    · rw [Step.join, if_neg hst, run_bind_unlink_of_stale hs]

/-- Two pools are the same if they hold the same nodes in as many slots, and keep the same record of
them. -/
theorem ext_node? (hnode : ∀ u, q.node? u = p.node? u) (hsize : q.slots.size = p.slots.size)
    (hfree : q.free = p.free) (hindex : q.index = p.index) (hnext : q.nextClass = p.nextClass) :
    q = p := by
  have hslots : q.slots = p.slots := by
    refine Array.ext hsize fun u hu hu' => ?_
    have hnode := hnode u
    rwa [node?, node?, Array.getElem?_eq_getElem hu, Array.getElem?_eq_getElem hu',
      Option.join_some, Option.join_some] at hnode
  cases p
  cases q
  cases hslots
  cases hfree
  cases hindex
  cases hnext
  rfl

theorem node?_bypass_self (hn : p.node? s = some n) : (p.bypass n).node? s = some n := by
  rw [node?_bypass, hn, Option.map_some, ite_self, ite_self]

theorem bypass_bypass (p : RegisterPool) (n : Node) : (p.bypass n).bypass n = p.bypass n := by
  refine ext_node? (fun u => ?_) ?_ ?_ ?_ ?_
  · rw [node?_bypass, node?_bypass, Option.map_map]
    refine congrArg (Option.map · (p.node? u)) (funext fun m => ?_)
    simp only [Function.comp_apply]
    split <;> split <;> rfl
  all_goals simp [bypass]

/-- There is nothing to unlink where a node is its own neighbour. -/
theorem bypass_eq_self (hn : p.node? s = some n) (hnext : n.next = s) (hprev : n.prev = s) :
    p.bypass n = p := by
  refine ext_node? (fun u => ?_) ?_ ?_ ?_ ?_
  · by_cases hus : u = s
    · rw [hus, node?_bypass_self hn, hn]
    · simp [node?_bypass, hnext, hprev, hus]
  all_goals simp [bypass]

/-- Unlinking a node that is unlinked already changes nothing. -/
theorem run_unlink_bypass (h : Rings p) (hn : p.node? s = some n) :
    (Step.unlink s).run (p.bypass n) = .ok () (p.bypass n) := by
  obtain ⟨⟨y, hy, -⟩, z, hz, -⟩ := h.neighbour_nodes trivial hn
  have hrun := run_unlink_of_isLive (node?_bypass_self hn)
    ((isLive_bypass p n _).trans (isLive_of_node? hy))
    ((isLive_bypass p n _).trans (isLive_of_node? hz))
  rwa [bypass_bypass] at hrun

/-- A step that begins by unlinking the node does the same whether the node is unlinked or not. -/
theorem run_bind_unlink_bypass (h : Rings p) (hn : p.node? s = some n) {α : Type}
    (f : Unit → Step α) :
    (Step.unlink s >>= f).run (p.bypass n) = (Step.unlink s >>= f).run p := by
  simp only [EStateM.run_bind, run_unlink h hn, run_unlink_bypass h hn]

theorem step_congr {m : Step Unit} (hc : c.perform = do m; return .done) (h : m.run q = m.run p) :
    q.step c = p.step c := by
  simp only [step, hc, EStateM.run_bind, h]

theorem Sound.prev_eq_self_iff (h : Sound p) (hn : p.node? s = some n) :
    n.prev = s ↔ n.next = s := by
  obtain ⟨⟨y, hy, -, -, hback⟩, z, hz, -, -, hforth⟩ := h.rings.neighbour_nodes trivial hn
  constructor
  · intro hprev
    rw [hprev, hn] at hz
    cases hz
    exact hforth
  · intro hnext
    rw [hnext, hn] at hy
    cases hy
    exact hback

/-- A node is its own neighbour exactly if it is alone in its class. -/
theorem Sound.next_eq_self_iff (h : Sound p) (hn : p.node? s = some n) :
    n.next = s ↔ ∀ u, p.class? u = p.class? s → u = s := by
  have hid : p.class? s = some n.classId := by rw [class?, hn, Option.map_some]
  constructor
  · intro hnext u hu
    obtain ⟨xs, hring, hmem⟩ := h.exists_ring hn
    have hfirst : (xs ++ [s]).head? = some s := by
      rw [← hring.next?_eq, next?, hn, Option.map_some, hnext]
    have hus := (hmem u).mpr (hu.trans hid)
    cases xs with
    | nil => exact List.mem_singleton.mp hus
    | cons x xs =>
      obtain rfl : x = s := by simpa using hfirst
      exact absurd List.mem_cons_self (List.nodup_cons.mp hring.nodup).1
  · intro halone
    obtain ⟨⟨y, hy, -, hclass, -⟩, -⟩ := h.rings.neighbour_nodes trivial hn
    exact halone _ (by rw [hid, class?, hy, Option.map_some, hclass])

theorem Sound.bypass_of_alone (h : Sound p) (hn : p.node? s = some n) (hnext : n.next = s) :
    p.bypass n = p := bypass_eq_self hn hnext ((h.prev_eq_self_iff hn).mpr hnext)

/-- An unlinked node is noticed, because its neighbours do not link back to it. -/
theorem Sound.check_bypass_iff (h : Sound p) (hn : p.node? s = some n) :
    (p.bypass n).check = .ok () ↔ n.next = s := by
  constructor
  · intro hcheck
    obtain ⟨y, -, hy, -, hback, -⟩ := linkedBack_of_check hcheck s n (node?_bypass_self hn)
    rw [node?_bypass] at hy
    obtain ⟨m, -, rfl⟩ := Option.map_eq_some_iff.mp hy
    -- the next node was linked back to the one in front of `s`, which is `s` itself only if alone
    rw [if_pos rfl] at hback
    exact (h.prev_eq_self_iff hn).mp hback
  · intro hnext
    rw [h.bypass_of_alone hn hnext]
    exact h.check

/-- The join is given up after the node is unlinked, when the slot behind the target is looked up. -/
theorem Sound.step_join_of_stale (h : Sound p) (hn : p.node? s = some n) (ht : p.isLive t = false) :
    p.step (.join s t) = (.error (.stale t), p.bypass n) := by
  have hst : s ≠ t := by
    rintro rfl
    simp [isLive, hn] at ht
  refine step_of_error rfl ?_
  have hnone : (p.bypass n).node? t = none := node?_of_not_isLive ((isLive_bypass p n t).trans ht)
  simp only [Step.join, if_neg hst, EStateM.run_bind, run_unlink h.rings hn, Step.run_node, hnone]

theorem Sound.step_bypass (h : Sound p) (hn : p.node? s = some n) :
    (p.bypass n).step (.free s) = p.step (.free s) ∧
    (∀ id b, (p.bypass n).step (.split s id b) = p.step (.split s id b)) ∧
    ∀ u, u ≠ s → (p.bypass n).step (.join s u) = p.step (.join s u) := by
  refine ⟨step_congr rfl (run_bind_unlink_bypass h.rings hn _),
    fun id b => step_congr rfl (run_bind_unlink_bypass h.rings hn _), fun u hus => ?_⟩
  refine step_congr rfl ?_
  rw [Step.join, if_neg hus.symm]
  exact run_bind_unlink_bypass h.rings hn _

/-- In a pool that passes the check, a call on a stale slot fails and changes nothing. A node that was
to join behind a stale slot has its neighbours linked to each other, and nothing else is changed; the
check fails from then on exactly if the class of the node has other members. The next call that moves
the node answers and leaves the pool as if the join had not been tried. -/
theorem stale_calls_contained (calls : List Call) (hcheck : (empty.after calls).check = .ok ()) :
    let p := empty.after calls
    (∀ c s, c.subject? = some s → p.isLive s = false → p.step c = (.error (.stale s), p)) ∧
    ∀ s n t, p.node? s = some n → p.isLive t = false →
      p.step (.join s t) = (.error (.stale t), p.bypass n) ∧
      ((∀ u, p.class? u = p.class? s → u = s) → p.bypass n = p) ∧
      ((∃ e, (p.bypass n).check = .error e) ↔ ∃ u, u ≠ s ∧ p.class? u = p.class? s) ∧
      (p.bypass n).step (.free s) = p.step (.free s) ∧
      (∀ id b, (p.bypass n).step (.split s id b) = p.step (.split s id b)) ∧
      ∀ u, u ≠ s → (p.bypass n).step (.join s u) = p.step (.join s u) := by
  intro p
  have h : Sound p := (stored_empty.after calls).sound_of_check hcheck
  refine ⟨fun c s => step_of_stale, fun s n t hn ht => ⟨h.step_join_of_stale hn ht, ?_, ?_,
    h.step_bypass hn⟩⟩
  · exact fun halone => h.bypass_of_alone hn ((h.next_eq_self_iff hn).mpr halone)
  · have hmates : ¬n.next = s ↔ ∃ u, u ≠ s ∧ p.class? u = p.class? s := by
      rw [h.next_eq_self_iff hn]
      simp [and_comm]
    rw [← hmates, ← h.check_bypass_iff hn]
    cases (p.bypass n).check with
    | ok => simp
    | error e => simp

/-- Three nodes of one class, and one slot that was freed. -/
def threeAndFreed : List Call :=
  [.insert ⟨0⟩ 0 true true, .insert ⟨1⟩ 1 false true, .insert ⟨2⟩ 2 false true, .insert ⟨3⟩ 3 true true,
   .join 1 0, .join 2 1, .free 3]

theorem stale_calls_contained_threeAndFreed :
    let p := empty.after threeAndFreed
    let q := (p.step (.join 1 3)).2
    p.check = .ok () ∧ p.step (.split 3 4 true) = (.error (.stale 3), p) ∧
      (p.step (.join 1 3)).1 = .error (.stale 3) ∧ (∃ e, q.check = .error e) ∧
      q.step (.join 1 2) = p.step (.join 1 2) ∧ (q.step (.join 1 2)).2.members 0 = .ok [0, 2, 1] := by
  intro p q
  have hcheck : p.check = .ok () := by decide
  have hlive : p.isLive 3 = false := by decide
  have hn : p.node? 1 = some ⟨⟨1⟩, 0, false, true, false, 2, 0⟩ := by decide
  obtain ⟨hstale, hjoin⟩ := stale_calls_contained threeAndFreed hcheck
  obtain ⟨hstep, -, herror, -, -, hmove⟩ := hjoin 1 _ 3 hn hlive
  have hq : q = p.bypass ⟨⟨1⟩, 0, false, true, false, 2, 0⟩ := congrArg Prod.snd hstep
  refine ⟨hcheck, hstale (.split 3 4 true) 3 rfl hlive, congrArg Prod.fst hstep, ?_, ?_, ?_⟩
  · rw [hq]
    exact herror.mpr ⟨0, by decide, by decide⟩
  · rw [hq]
    exact hmove 2 (by decide)
  · decide +kernel

end BytecodeAssembler.RegisterPool
