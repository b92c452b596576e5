import BytecodeAssembler.Proofs.Assembler.Journal
import BytecodeAssembler.Proofs.Assembler.Waiting

/-! # How labels change

A call either leaves every label as bound or as pending as it was (`Advances`), or it binds one label
to the end of the code (`Binds`). So a label that is bound at the end of a run, and was not at its
beginning, was bound by a call in between; and if no jump was lost that call succeeded.
-/
namespace BytecodeAssembler.Assembler

/-- No label was bound on the way from `a` to `b`, and what waits waits on. -/
structure Advances (a b : Assembler) : Prop where
  table : b.table = a.table
  lost : a.lost ≤ b.lost
  bound : ∀ {label target : Nat}, b.labels[label]? = some (.bound target) ↔
    a.labels[label]? = some (.bound target)
  pending : ∀ {label : Nat} {sites : Array JumpSite}, a.labels[label]? = some (.pending sites) →
    ∃ sites', b.labels[label]? = some (.pending sites')

/-- The state `b` comes from `a` by binding a label that jumps were waiting for. -/
structure Binds (a b : Assembler) (label : Nat) : Prop where
  table : b.table = a.table
  lost : a.lost ≤ b.lost
  pending : ∃ sites, a.labels[label]? = some (.pending sites)
  labels : b.labels = a.labels.setIfInBounds label (.bound a.code.size)

variable {a b : Assembler} {c : Call} {r : Except AssemblyError Reply} {label target : Nat}

theorem Advances.of_labels (htable : b.table = a.table) (hlost : a.lost ≤ b.lost)
    (hlabels : b.labels = a.labels) : Advances a b := by
  refine ⟨htable, hlost, ?_, ?_⟩
  · intro label target
    rw [hlabels]
  · intro label sites hl
    rw [hlabels]
    exact ⟨sites, hl⟩

theorem Binds.getElem? (h : Binds a b label) (m : Nat) :
    b.labels[m]? = if m = label then some (.bound a.code.size) else a.labels[m]? := by
  obtain ⟨sites, hl⟩ := h.pending
  obtain ⟨hlt, -⟩ := Array.getElem?_eq_some_iff.mp hl
  rw [h.labels, Array.getElem?_setIfInBounds]
  by_cases hm : m = label
  · simp [hm, hlt]
  · simp [hm, Ne.symm hm]

theorem Binds.bound (h : Binds a b label) {m : Nat} (hm : a.labels[m]? = some (.bound target)) :
    b.labels[m]? = some (.bound target) := by
  obtain ⟨sites, hl⟩ := h.pending
  have hne : m ≠ label := by
    rintro rfl
    rw [hl] at hm
    cases hm
  rw [h.getElem?, if_neg hne]
  exact hm

theorem getElem?_addLabel (a : Assembler) (m : Nat) :
    a.addLabel.labels[m]? = if m = a.labels.size then some (.pending #[]) else a.labels[m]? := by
  simp [addLabel, Array.getElem?_push]

theorem advances_addLabel (hlost : a.lost ≤ a.addLabel.lost) : Advances a a.addLabel := by
  have hnone : a.labels[a.labels.size]? = none := by simp
  refine ⟨rfl, hlost, ?_, ?_⟩
  · intro label target
    rw [getElem?_addLabel]
    split
    next heq => simp [heq]
    next => rfl
  · intro label sites hl
    have hne : label ≠ a.labels.size := by
      rintro rfl
      rw [hnone] at hl
      cases hl
    rw [getElem?_addLabel, if_neg hne]
    exact ⟨sites, hl⟩

theorem advances_await {sites : Array JumpSite} {site : JumpSite}
    (hl : a.labels[label]? = some (.pending sites)) (htable : b.table = a.table)
    (hlost : a.lost ≤ b.lost) (hlabels : b.labels = (a.await label site).labels) :
    Advances a b := by
  have hget := getElem?_await hl site
  refine ⟨htable, hlost, ?_, ?_⟩
  · intro m target
    rw [hlabels, hget]
    split
    next heq => simp [heq, hl]
    next => rfl
  · intro m before hm
    rw [hlabels, hget]
    split
    · exact ⟨_, rfl⟩
    · exact ⟨before, hm⟩

/-- A call that is not a successful bind binds a label only if jumps are lost by it. -/
theorem Effect.advances_or_binds (h : a.Accounted) (he : Effect a c r b) :
    Advances a b ∨ ∃ label, c = .bind label ∧ Binds a b label ∧
      (r = .ok .done ∧ b.last = none ∨ 0 < b.lost) := by
  obtain ⟨-, hlost⟩ := he.accounts h
  have htable := he.table
  cases he with
  | refused | behind | dropped | rejected | wrote | looped | began =>
    exact .inl (.of_labels htable hlost rfl)
  | jumped _ _ hl => exact .inl (advances_await hl htable hlost rfl)
  | labelled => exact .inl (advances_addLabel hlost)
  | @bound label sites hl =>
    exact .inr ⟨label, rfl, ⟨htable, hlost, ⟨sites, hl⟩, rfl⟩, .inl ⟨rfl, rfl⟩⟩
  | @stranded label sites done rest s hl hsites =>
    exact .inr ⟨label, rfl, ⟨htable, hlost, ⟨sites, hl⟩, rfl⟩, .inr (lost_settle_pos h hl hsites)⟩

theorem Effect.advances (h : a.Accounted) (he : Effect a c r b) (hc : ∀ label, c ≠ .bind label) :
    Advances a b := by
  rcases he.advances_or_binds h with hab | ⟨label, rfl, -⟩
  · exact hab
  · exact absurd rfl (hc label)

theorem Effect.bound_stays (h : a.Accounted) (he : Effect a c r b)
    (hl : a.labels[label]? = some (.bound target)) : b.labels[label]? = some (.bound target) := by
  rcases he.advances_or_binds h with hab | ⟨_, -, hab, -⟩
  · exact hab.bound.mpr hl
  · exact hab.bound hl

theorem Effect.bound_here (he : Effect a (.bind label) r b) (hr : r = .ok .done) :
    b.labels[label]? = some (.bound a.offset) := by
  cases he with
  | refused | rejected | stranded => cases hr
  | dropped hc => cases hc
  | bound hl =>
    obtain ⟨hlt, -⟩ := Array.getElem?_eq_some_iff.mp hl
    simp [settle, offset, hlt]

theorem Binds.reply (h : Binds a b label) (he : Effect a (.bind label) r b) :
    r = .ok .done ∨ ∃ distance scale, r = .error (.jumpOutOfRange distance scale) := by
  obtain ⟨sites, hl⟩ := h.pending
  cases he with
  | refused hc | dropped hc => cases hc
  | rejected hnone => exact absurd hl (hnone sites)
  | bound => exact .inl rfl
  | stranded => exact .inr ⟨_, _, rfl⟩

theorem after_invariant {P : Assembler → Prop} (hcons : ∀ {a}, P a → a.Consistent)
    (hstep : ∀ {a b c r}, P a → Effect a c r b → P b) (calls : List Call) (h : P a)
    (hsmall : a.StaysSmall calls) : P (a.after calls) :=
  journal_invariant (P := fun a _ => P a) (j := []) hcons hstep calls h hsmall

theorem table_after (ha : a.Consistent) {calls : List Call} (hsmall : a.StaysSmall calls) :
    (a.after calls).table = a.table :=
  (after_invariant (P := fun b => b.Consistent ∧ b.table = a.table) (fun h => h.1)
    (fun h he => ⟨he.consistent h.1, he.table.trans h.2⟩) calls ⟨ha, rfl⟩ hsmall).2

theorem after_keeps (ha : a.Consistent) (hacc : a.Accounted) {calls : List Call}
    (hsmall : a.StaysSmall calls) :
    (a.after calls).Consistent ∧ (a.after calls).Accounted ∧ a.lost ≤ (a.after calls).lost ∧
      ∀ {label target : Nat}, a.labels[label]? = some (.bound target) →
        (a.after calls).labels[label]? = some (.bound target) := by
  refine after_invariant (P := fun b => b.Consistent ∧ b.Accounted ∧ a.lost ≤ b.lost ∧
    ∀ {label target : Nat}, a.labels[label]? = some (.bound target) →
      b.labels[label]? = some (.bound target)) (fun h => h.1) ?_ calls
    ⟨ha, hacc, le_rfl, id⟩ hsmall
  rintro b b' c r ⟨hcons, hacc, hlost, hbound⟩ he
  obtain ⟨hacc', hlost'⟩ := he.accounts hacc
  exact ⟨he.consistent hcons, hacc', hlost.trans hlost', fun hl => he.bound_stays hacc (hbound hl)⟩

/-- A label that is not bound first, but in the end, was bound by a call in between, to the end of the
code at that time. If that call failed, jumps were lost by it. -/
theorem exists_bind_call {calls : List Call} (ha : a.Consistent) (hacc : a.Accounted)
    (hsmall : a.StaysSmall calls) (hfree : a.labels[label]? ≠ some (.bound target))
    (hbound : (a.after calls).labels[label]? = some (.bound target)) :
    ∃ mid rest, calls = mid ++ .bind label :: rest ∧
      Binds (a.after mid) ((a.after mid).step (.bind label)).2 label ∧
      (((a.after mid).step (.bind label)).1 = .ok .done ∨
        0 < ((a.after mid).step (.bind label)).2.lost) ∧ target = (a.after mid).offset := by
  -- on the calls, up to the first one after which the label is bound
  induction calls generalizing a with
  | nil => exact absurd hbound hfree
  | cons c calls ih =>
    obtain ⟨hsize, hrest⟩ := hsmall
    have he := step_effect ha hsize c
    have hb := he.consistent ha
    obtain ⟨hbacc, -⟩ := he.accounts hacc
    by_cases hfree' : (a.step c).2.labels[label]? = some (.bound target)
    · rcases he.advances_or_binds hacc with hab | ⟨m, rfl, hab, hok⟩
      · exact absurd (hab.bound.mp hfree') hfree
      · have hget := hab.getElem? label
        rw [hfree'] at hget
        split at hget
        next heq =>
          cases hget
          subst heq
          exact ⟨[], calls, rfl, hab, hok.imp_left And.left, rfl⟩
        next => exact absurd hget.symm hfree
    · obtain ⟨mid, rest, rfl, h⟩ := ih hb hbacc hrest hfree' hbound
      exact ⟨c :: mid, rest, rfl, h⟩

/-- Where no jump was lost, the call that bound a label succeeded. -/
theorem exists_bind {calls : List Call} (ha : a.Consistent) (hacc : a.Accounted)
    (hsmall : a.StaysSmall calls) (hfree : a.labels[label]? ≠ some (.bound target))
    (hbound : (a.after calls).labels[label]? = some (.bound target))
    (hlost : (a.after calls).lost = 0) :
    ∃ mid rest, calls = mid ++ .bind label :: rest ∧
      ((a.after mid).step (.bind label)).1 = .ok .done ∧ target = (a.after mid).offset := by
  obtain ⟨mid, rest, rfl, -, hok, htarget⟩ := exists_bind_call ha hacc hsmall hfree hbound
  refine ⟨mid, rest, rfl, hok.resolve_right fun hpos => ?_, htarget⟩
  obtain ⟨hmid, hsize, hrest⟩ := hsmall.append
  obtain ⟨hcons, hacc', -⟩ := after_keeps ha hacc hmid
  have he := step_effect hcons hsize (.bind label)
  obtain ⟨-, -, hmono, -⟩ :=
    after_keeps (he.consistent hcons) (he.accounts hacc').1 hrest
  rw [after_append] at hlost
  exact absurd hlost (hpos.trans_le hmono).ne'

end BytecodeAssembler.Assembler
