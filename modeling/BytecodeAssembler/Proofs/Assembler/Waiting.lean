import BytecodeAssembler.Proofs.Assembler.Effect
import Mathlib.Order.Nat

/-! # Jumps that wait

`waiting` counts the jumps that wait at the labels, and `lost` those that the counter of unbound
jumps still holds although no label does: jumps whose label was bound out of their reach. Nothing is
ever taken out of the lost ones again, so where code is handed out no jump waits and none was lost.
-/
namespace BytecodeAssembler

def Label.waiting : Label → Nat
  | .pending sites => sites.size
  | .bound _ => 0

def Label.waitingAt : List Label → Nat
  | [] => 0
  | l :: ls => l.waiting + waitingAt ls

namespace Label

theorem waitingAt_append (ls ms : List Label) :
    waitingAt (ls ++ ms) = waitingAt ls + waitingAt ms := by
  induction ls with
  | nil => simp [waitingAt]
  | cons l ls ih => simp [waitingAt, ih, Nat.add_assoc]

theorem waitingAt_set {ls : List Label} {n : Nat} {l : Label} (h : ls[n]? = some l) (m : Label) :
    waitingAt (ls.set n m) + l.waiting = waitingAt ls + m.waiting := by
  induction ls generalizing n with
  | nil => cases h
  | cons k ls ih =>
    cases n with
    | zero =>
      cases h
      simp only [List.set_cons_zero, waitingAt]
      omega
    | succ n =>
      have := ih h
      simp only [List.set_cons_succ, waitingAt]
      omega

theorem waiting_le_waitingAt {ls : List Label} {l : Label} (h : l ∈ ls) :
    l.waiting ≤ waitingAt ls := by
  induction ls with
  | nil => cases h
  | cons k ls ih =>
    rcases List.mem_cons.mp h with rfl | h
    · exact Nat.le_add_right ..
    · exact (ih h).trans (Nat.le_add_left ..)

end Label

namespace Assembler
variable {a b : Assembler} {c : Call} {r : Except AssemblyError Reply}

/-- How many jumps wait for a label. -/
def waiting (a : Assembler) : Nat := Label.waitingAt a.labels.toList

/-- How many jumps are counted as unbound but wait no more. -/
def lost (a : Assembler) : Nat := a.unboundJumps - a.waiting

theorem waiting_labels {label : Nat} {l : Label} (h : a.labels[label]? = some l) (m : Label) :
    Label.waitingAt (a.labels.setIfInBounds label m).toList + l.waiting = a.waiting + m.waiting := by
  rw [Array.toList_setIfInBounds]
  exact Label.waitingAt_set (by simpa using h) m

theorem waiting_settle {label : Nat} {sites : Array JumpSite}
    (h : a.labels[label]? = some (.pending sites)) (done : List JumpSite) :
    (a.settle label done).waiting + sites.size = a.waiting :=
  waiting_labels h (.bound a.code.size)

theorem labels_await {label : Nat} {sites : Array JumpSite} {site : JumpSite}
    (h : a.labels[label]? = some (.pending sites)) :
    (a.await label site).labels = a.labels.setIfInBounds label (.pending (sites.push site)) := by
  obtain ⟨hlt, heq⟩ := Array.getElem?_eq_some_iff.mp h
  refine Array.ext_getElem? fun i => ?_
  simp only [await, Array.getElem?_modify, Array.getElem?_setIfInBounds]
  by_cases hi : label = i
  · subst hi
    simp [hlt, heq]
  · simp [hi]

theorem getElem?_await {label : Nat} {sites : Array JumpSite}
    (h : a.labels[label]? = some (.pending sites)) (site : JumpSite) (m : Nat) :
    (a.await label site).labels[m]? =
      if m = label then some (.pending (sites.push site)) else a.labels[m]? := by
  obtain ⟨hlt, -⟩ := Array.getElem?_eq_some_iff.mp h
  rw [labels_await h, Array.getElem?_setIfInBounds]
  by_cases hm : m = label
  · simp [hm, hlt]
  · simp [hm, Ne.symm hm]

theorem waiting_await {label : Nat} {sites : Array JumpSite}
    (h : a.labels[label]? = some (.pending sites)) (site : JumpSite) :
    (a.await label site).waiting = a.waiting + 1 := by
  have hw := waiting_labels h (.pending (sites.push site))
  rw [← labels_await h] at hw
  simp only [Label.waiting, Array.size_push] at hw
  unfold waiting at hw ⊢
  omega

/-- Every jump that waits is counted. -/
def Accounted (a : Assembler) : Prop := a.waiting ≤ a.unboundJumps

theorem lost_settle_pos (h : a.Accounted) {label : Nat} {sites : Array JumpSite}
    {done rest : List JumpSite} {s : JumpSite} (hl : a.labels[label]? = some (.pending sites))
    (hsites : sites.toList = done ++ s :: rest) : 0 < (a.settle label done).lost := by
  have hsize : 0 < sites.size := by
    rw [← Array.length_toList, hsites, List.length_append, List.length_cons]
    omega
  have hw := waiting_settle hl done
  have hu : (a.settle label done).unboundJumps = a.unboundJumps := rfl
  unfold Accounted at h
  unfold lost
  omega

/-- The count of lost jumps never falls, and every jump that waits stays counted. -/
theorem Effect.accounts (h : a.Accounted) (he : Effect a c r b) :
    b.Accounted ∧ a.lost ≤ b.lost := by
  unfold Accounted lost at *
  cases he with
  | refused | behind | dropped | rejected | wrote | looped | began => exact ⟨h, le_rfl⟩
  | @jumped _ j label sites bytes w _ _ _ hl =>
    have hw := waiting_await (a := a.emit j bytes) hl (a.jumpSite j w)
    have hu : ((a.emit j bytes).await label (a.jumpSite j w)).unboundJumps =
        a.unboundJumps + 1 := rfl
    have hsame : (a.emit j bytes).waiting = a.waiting := rfl
    omega
  | labelled =>
    have hw : a.addLabel.waiting = a.waiting := by
      simp [addLabel, waiting, Label.waitingAt_append, Label.waitingAt, Label.waiting]
    have hu : a.addLabel.unboundJumps = a.unboundJumps := rfl
    omega
  | @bound label sites hl =>
    have hw := waiting_settle hl sites.toList
    simp only [waiting] at *
    omega
  | @stranded label sites done _ _ hl =>
    have hw := waiting_settle hl done
    have hu : (a.settle label done).unboundJumps = a.unboundJumps := rfl
    omega

theorem accounted_new (t : OpcodeTable) (options : Options) :
    (Assembler.new t options).Accounted := le_rfl

/-- Code is handed out only where no jump waits and none was lost. -/
theorem waiting_of_finish (h : a.Accounted) {out : Bytecode} (hf : a.finish = .ok out) :
    a.waiting = 0 ∧ a.lost = 0 ∧ out = ⟨a.code, a.log.table⟩ := by
  unfold finish at hf
  split at hf
  next hu =>
    cases hf
    unfold Accounted at h
    unfold lost
    exact ⟨by omega, by omega, rfl⟩
  next => cases hf

end Assembler
end BytecodeAssembler
