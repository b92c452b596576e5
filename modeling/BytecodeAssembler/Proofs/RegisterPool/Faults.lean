import BytecodeAssembler.Proofs.RegisterPool.Soundness

/-! # What survives faults

A step that meets a slot without a node stops with its work half done: links may be left that do not
match. Slots, free list and index match all the same, for a node is entered and dropped only after
the last look at a slot that may fail. `Keeps` says that a step preserves a property of pools whether
it is carried out or not, and `Enduring` names the four changes of a pool that the calls are made of:
a property that each of them preserves holds after any calls.
-/
namespace BytecodeAssembler.RegisterPool

/-- Whatever the answer, the pool has the property afterwards if it had it before. -/
def Step.Keeps (P : RegisterPool → Prop) {α : Type} (m : Step α) : Prop :=
  ∀ p, P p → match m.run p with
    | .ok _ q => P q
    | .error _ q => P q

structure Enduring (P : RegisterPool → Prop) : Prop where
  adjust : ∀ {p : RegisterPool}, P p → ∀ (s : Slot) {f : Node → Node},
    (∀ n, (f n).register = n.register) → P (p.adjust s f)
  drop : ∀ {p : RegisterPool} {s : Slot} {n : Node}, P p → p.node? s = some n →
    P (p.drop s n.register)
  enter : ∀ {p : RegisterPool} {n : Node}, P p → p.slotOf? n.register = none →
    P (p.reserve.2.enter p.reserve.1 n)
  draw : ∀ {p : RegisterPool}, P p → ∀ id, P { p with nextClass := id }

namespace Step
variable {P : RegisterPool → Prop} {α β : Type}

theorem Keeps.pure (x : α) : Keeps P (pure x) := fun _ h => h

theorem Keeps.bind {m : Step α} {f : α → Step β} (hm : m.Keeps P) (hf : ∀ x, (f x).Keeps P) :
    (m >>= f).Keeps P := by
  intro p h
  have hp := hm p h
  simp only [EStateM.run_bind]
  cases hrun : m.run p with
  | ok x q =>
    rw [hrun] at hp
    exact hf x q hp
  | error e q =>
    rw [hrun] at hp
    exact hp

theorem Keeps.node (s : Slot) : (Step.node s).Keeps P := by
  intro p h
  rw [run_node]
  cases p.node? s <;> exact h

theorem keeps_update (hP : Enduring P) (s : Slot) {f : Node → Node}
    (hf : ∀ n, (f n).register = n.register) : (update s f).Keeps P := by
  intro p h
  cases hn : p.node? s with
  | none =>
    rw [run_update, hn]
    exact h
  | some n =>
    rw [run_update_of_isLive (isLive_of_node? hn)]
    exact hP.adjust h s hf

theorem keeps_unlink (hP : Enduring P) (s : Slot) : (unlink s).Keeps P := by
  refine (Keeps.node s).bind fun n => (keeps_update hP _ ?_).bind fun _ => keeps_update hP _ ?_
  · exact fun _ => rfl
  · exact fun _ => rfl

theorem keeps_join (hP : Enduring P) (s t : Slot) : (join s t).Keeps P := by
  unfold join
  split
  · exact keeps_update hP s fun _ => rfl
  · refine (keeps_unlink hP s).bind fun _ => (Keeps.node t).bind fun m =>
      (keeps_update hP _ ?_).bind fun _ => (keeps_update hP _ ?_).bind fun _ =>
      (keeps_update hP _ ?_).bind fun _ => (Keeps.node t).bind fun m' => keeps_update hP _ ?_
    · exact fun _ => rfl
    · exact fun _ => rfl
    · exact fun _ => rfl
    · exact fun _ => rfl

theorem keeps_split (hP : Enduring P) (s : Slot) (id : ClassId) (b : Bool) :
    (split s id b).Keeps P := by
  refine (keeps_unlink hP s).bind fun _ => (keeps_update hP _ ?_).bind fun _ =>
    keeps_update hP _ ?_
  · exact fun _ => rfl
  · exact fun _ => rfl

/-- A node is dropped once it is unlinked, and nothing fails after that. -/
theorem keeps_free (hP : Enduring P) (s : Slot) : (free s).Keeps P := by
  refine (keeps_unlink hP s).bind fun _ => ?_
  intro p h
  cases hn : p.node? s with
  | none =>
    simp only [EStateM.run_bind, run_node, hn]
    exact h
  | some n =>
    simp only [EStateM.run_bind, run_node, hn, EStateM.run_modify]
    exact hP.drop h hn

theorem keeps_insert (hP : Enduring P) (r : Register) (id : ClassId) (b allocated : Bool) :
    (insert r id b allocated).Keeps P := by
  intro p h
  cases hr : p.slotOf? r with
  | some s =>
    rw [run_insert_of_tracked (by simp [hr])]
    exact h
  | none =>
    rw [run_insert hr]
    exact hP.enter h hr

end Step

namespace Enduring
variable {P : RegisterPool → Prop} {p : RegisterPool}

theorem keeps_perform (hP : Enduring P) (c : Call) : c.perform.Keeps P := by
  cases c with
  | freshClass => exact fun p h => hP.draw h _
  | insert r id b allocated => exact (Step.keeps_insert hP r id b allocated).bind fun _ => .pure _
  | free s => exact (Step.keeps_free hP s).bind fun _ => .pure _
  | join s t => exact (Step.keeps_join hP s t).bind fun _ => .pure _
  | split s id b => exact (Step.keeps_split hP s id b).bind fun _ => .pure _
  | setMaterialized s b | setAllocated s b | setNeedsFlush s b =>
    refine (Step.keeps_update hP s ?_).bind fun _ => .pure _
    exact fun _ => rfl

theorem step (hP : Enduring P) (h : P p) (c : Call) : P (p.step c).2 := by
  have hkeeps := hP.keeps_perform c p h
  unfold RegisterPool.step
  cases hrun : c.perform.run p with
  | ok r q =>
    rw [hrun] at hkeeps
    exact hkeeps
  | error e q =>
    rw [hrun] at hkeeps
    exact hkeeps

theorem after (hP : Enduring P) (h : P p) (calls : List Call) : P (p.after calls) := by
  induction calls generalizing p with
  | nil => exact h
  | cons c calls ih => exact ih (hP.step h c)

end Enduring

theorem enduring_stored : Enduring Stored where
  adjust h s _ hf := h.adjust s hf
  drop h hn := h.drop hn
  enter h hr := h.enter hr
  draw h _ := ⟨h.mem_index, h.registers, h.mem_free, h.free⟩

/-- After any calls, also ones that stopped at a stale slot, the pool is well stored. -/
theorem Stored.after {p : RegisterPool} (h : Stored p) (calls : List Call) :
    Stored (p.after calls) :=
  enduring_stored.after h calls

end BytecodeAssembler.RegisterPool
