import BytecodeAssembler.Proofs.Assembler.Bounds

/-! # The count of unbound jumps

The counter of unbound jumps is exact: it is the number of jumps that wait at the labels and of those
that were stranded in the course of the run, which are all that waited for a label when one of them
was found to be out of its reach. A label is bound once, so a stranded jump is never resolved later.
Hence code is handed out exactly if every jump that was written was resolved.
-/
namespace BytecodeAssembler

theorem Label.exists_waiting {ls : List Label} (h : 0 < waitingAt ls) :
    ∃ (label : Nat) (sites : Array JumpSite), ls[label]? = some (.pending sites) ∧
      0 < sites.size := by
  induction ls with
  | nil => cases h
  | cons l ls ih =>
    by_cases hl : 0 < l.waiting
    · cases l with
      | pending sites => exact ⟨0, sites, rfl, hl⟩
      | bound => cases hl
    · obtain ⟨label, sites, hsites, hpos⟩ := ih (by simp only [waitingAt] at h; omega)
      exact ⟨label + 1, sites, hsites, hpos⟩

namespace Assembler
variable {a b : Assembler} {c : Call} {r : Except AssemblyError Reply} {j : Journal} {label : Nat}
  {calls : List Call}

/-- How many jumps wait for a label. -/
def waitingFor (a : Assembler) (label : Nat) : Nat :=
  match a.labels[label]? with
  | some l => l.waiting
  | none => 0

/-- How many jumps a call strands that is answered so: where a jump is out of reach of its label, all
that wait for the label. -/
def strandedBy (a : Assembler) : Call → Except AssemblyError Reply → Nat
  | .bind label, .error (.jumpOutOfRange _ _) => a.waitingFor label
  | _, _ => 0

/-- How many jumps are stranded in a run. -/
def stranded (a : Assembler) : List Call → Nat
  | [] => 0
  | c :: calls => a.strandedBy c (a.step c).1 + (a.step c).2.stranded calls

theorem strandedBy_of_request {q : Request} (hc : c.request? = some q) : a.strandedBy c r = 0 := by
  cases c with
  | bind => cases hc
  | _ => rfl

theorem Effect.counts {n : Nat} (h : a.unboundJumps = a.waiting + n) (he : Effect a c r b) :
    b.unboundJumps = b.waiting + (n + a.strandedBy c r) := by
  cases he with
  | refused hc | dropped hc => rw [strandedBy_of_request hc, Nat.add_zero, h]
  | behind | wrote | looped | began => exact h
  | rejected _ hreason =>
    rcases hreason with rfl | rfl
    · exact h
    · exact h
  | @jumped _ j label sites bytes w _ _ _ hl =>
    have hw := waiting_await (a := a.emit j bytes) hl (a.jumpSite j w)
    have hsame : (a.emit j bytes).waiting = a.waiting := rfl
    have hu : ((a.emit j bytes).await label (a.jumpSite j w)).unboundJumps =
        a.unboundJumps + 1 := rfl
    simp only [strandedBy]
    omega
  | labelled =>
    have hw : a.addLabel.waiting = a.waiting := by
      simp [addLabel, waiting, Label.waitingAt_append, Label.waitingAt, Label.waiting]
    have hu : a.addLabel.unboundJumps = a.unboundJumps := rfl
    simp only [strandedBy]
    omega
  | @bound label sites hl =>
    have hw := waiting_settle hl sites.toList
    simp only [waiting, strandedBy] at *
    omega
  | @stranded label sites done _ _ hl =>
    have hw := waiting_settle hl done
    have hu : (a.settle label done).unboundJumps = a.unboundJumps := rfl
    have hfor : a.waitingFor label = sites.size := by simp [waitingFor, hl, Label.waiting]
    simp only [strandedBy, hfor]
    omega

theorem unboundJumps_after {n : Nat} (ha : a.Consistent) (h : a.unboundJumps = a.waiting + n)
    (hsmall : a.StaysSmall calls) :
    (a.after calls).unboundJumps = (a.after calls).waiting + (n + a.stranded calls) := by
  induction calls generalizing a n with
  | nil => exact h
  | cons c calls ih =>
    obtain ⟨hsize, hrest⟩ := hsmall
    have he := step_effect ha hsize c
    have hafter := ih (he.consistent ha) (he.counts h) hrest
    rwa [Nat.add_assoc] at hafter

theorem stranded_append (a : Assembler) (xs ys : List Call) :
    a.stranded (xs ++ ys) = a.stranded xs + (a.after xs).stranded ys := by
  induction xs generalizing a with
  | nil => exact (Nat.zero_add _).symm
  | cons c xs ih =>
    have h := ih (a.step c).2
    simp only [List.cons_append, stranded, h, Nat.add_assoc]
    rfl

theorem Effect.strandedBy_pos {distance : Nat} {scale : Scale}
    (he : Effect a (.bind label) (.error (.jumpOutOfRange distance scale)) b) :
    0 < a.strandedBy (.bind label) (.error (.jumpOutOfRange distance scale)) := by
  cases he with
  | refused hc => cases hc
  | rejected _ hreason => simp at hreason
  | stranded hl hsites =>
    have hsize := congrArg List.length hsites
    rw [Array.length_toList, List.length_append, List.length_cons] at hsize
    simp only [strandedBy, waitingFor, hl, Label.waiting]
    omega

theorem exists_bind_of_stranded (h : 0 < a.stranded calls) :
    ∃ pre label post distance scale, calls = pre ++ .bind label :: post ∧
      ((a.after pre).step (.bind label)).1 = .error (.jumpOutOfRange distance scale) ∧
      0 < (a.after pre).waitingFor label := by
  induction calls generalizing a with
  | nil => cases h
  | cons c calls ih =>
    by_cases hc : 0 < a.strandedBy c (a.step c).1
    · unfold strandedBy at hc
      split at hc
      next label distance scale hr => exact ⟨[], label, calls, distance, scale, rfl, hr, hc⟩
      next => cases hc
    · obtain ⟨pre, label, post, distance, scale, rfl, hr, hpos⟩ :=
        ih (a := (a.step c).2) (by simp only [stranded] at h; omega)
      exact ⟨c :: pre, label, post, distance, scale, rfl, hr, hpos⟩

theorem pending_of_settle {m : Nat} {sites : Array JumpSite} (done : List JumpSite)
    (hl : (a.settle m done).labels[label]? = some (.pending sites)) :
    a.labels[label]? = some (.pending sites) := by
  simp only [settle, Array.getElem?_setIfInBounds] at hl
  split at hl
  · split at hl <;> cases hl
  · exact hl

theorem pending_of_waitingFor (h : 0 < a.waitingFor label) :
    ∃ sites, a.labels[label]? = some (.pending sites) ∧ 0 < sites.size := by
  unfold waitingFor at h
  split at h
  next l hl =>
    cases l with
    | pending sites => exact ⟨sites, hl, h⟩
    | bound => cases h
  next => cases h

/-- A jump that waits was written by a jump call to the label. -/
theorem Effect.pending_came {sites : Array JumpSite} (he : Effect a c r b)
    (hl : b.labels[label]? = some (.pending sites)) (hpos : 0 < sites.size) :
    (∃ before, a.labels[label]? = some (.pending before) ∧ 0 < before.size) ∨
      ∃ i, c = .jump i label ∧ a.blockClosed = false ∧ r = .ok .done := by
  cases he with
  | refused | behind | dropped | rejected | wrote | looped | began => exact .inl ⟨sites, hl, hpos⟩
  | @jumped i j m before bytes w _ hopen _ hm =>
    rw [getElem?_await (a := a.emit j bytes) hm (a.jumpSite j w)] at hl
    split at hl
    next heq => exact .inr ⟨i, by rw [heq], hopen, rfl⟩
    next => exact .inl ⟨sites, hl, hpos⟩
  | labelled =>
    rw [getElem?_addLabel] at hl
    split at hl
    next =>
      cases hl
      cases hpos
    next => exact .inl ⟨sites, hl, hpos⟩
  | @bound _ before => exact .inl ⟨sites, pending_of_settle before.toList hl, hpos⟩
  | @stranded _ _ done => exact .inl ⟨sites, pending_of_settle done hl, hpos⟩

theorem exists_jump_of_pending {sites : Array JumpSite} (ha : a.Consistent)
    (hsmall : a.StaysSmall calls) (hl : (a.after calls).labels[label]? = some (.pending sites))
    (hpos : 0 < sites.size) :
    (∃ before, a.labels[label]? = some (.pending before) ∧ 0 < before.size) ∨
      ∃ pre i post, calls = pre ++ .jump i label :: post ∧ (a.after pre).blockClosed = false ∧
        ((a.after pre).step (.jump i label)).1 = .ok .done := by
  induction calls generalizing a with
  | nil => exact .inl ⟨sites, hl, hpos⟩
  | cons c calls ih =>
    obtain ⟨hsize, hrest⟩ := hsmall
    have he := step_effect ha hsize c
    rcases ih (he.consistent ha) hrest hl with
      ⟨before, hbefore, hb⟩ | ⟨pre, i, post, rfl, hopen, hok⟩
    · rcases he.pending_came hbefore hb with h | ⟨i, rfl, hopen, hok⟩
      · exact .inl h
      · exact .inr ⟨[], i, calls, rfl, hopen, hok⟩
    · exact .inr ⟨c :: pre, i, post, rfl, hopen, hok⟩

/-- A label is bound once it was asked to be, whether that call succeeded or not. -/
theorem Effect.bound_of_bind (he : Effect a (.bind label) r b) (hl : a.labels[label]? ≠ none) :
    ∃ target, b.labels[label]? = some (.bound target) := by
  cases he with
  | refused hc | dropped hc => cases hc
  | rejected hno =>
    cases hlabel : a.labels[label]? with
    | none => exact absurd hlabel hl
    | some l =>
      cases l with
      | pending sites => exact absurd hlabel (hno sites)
      | bound target => exact ⟨target, rfl⟩
  | bound hp | stranded hp =>
    obtain ⟨hlt, -⟩ := Array.getElem?_eq_some_iff.mp hp
    exact ⟨a.code.size, by simp [settle, hlt]⟩

/-- The answers to a binding that is carried out, be it only in part. -/
def CarriedOut (r : Except AssemblyError Reply) : Prop :=
  r = .ok .done ∨ ∃ distance scale, r = .error (.jumpOutOfRange distance scale)

theorem Effect.pending_of_bind (he : Effect a (.bind label) r b) (hr : CarriedOut r) :
    ∃ sites, a.labels[label]? = some (.pending sites) := by
  cases he with
  | refused hc | dropped hc => cases hc
  | rejected _ hreason => rcases hreason with rfl | rfl <;> simp [CarriedOut] at hr
  | bound hp | stranded hp => exact ⟨_, hp⟩

theorem bound_after_bind {rest : List Call} (ha : a.Consistent) (hacc : a.Accounted)
    (hsmall : a.StaysSmall (.bind label :: rest)) (hl : a.labels[label]? ≠ none) :
    ∃ target, (a.after (.bind label :: rest)).labels[label]? = some (.bound target) := by
  obtain ⟨hsize, hrest⟩ := hsmall
  have he := step_effect ha hsize (.bind label)
  obtain ⟨target, hbound⟩ := he.bound_of_bind hl
  obtain ⟨-, -, -, hstays⟩ := after_keeps (he.consistent ha) (he.accounts hacc).1 hrest
  exact ⟨target, hstays hbound⟩

theorem not_carriedOut_again {mid rest : List Call} (ha : a.Consistent) (hacc : a.Accounted)
    (hsmall : a.StaysSmall (.bind label :: mid ++ .bind label :: rest))
    (hfirst : CarriedOut (a.step (.bind label)).1) :
    ¬ CarriedOut ((a.after (.bind label :: mid)).step (.bind label)).1 := by
  intro hagain
  obtain ⟨hmid, hrest⟩ := hsmall.append
  obtain ⟨sites, hsites⟩ := (step_effect ha hmid.1 (.bind label)).pending_of_bind hfirst
  obtain ⟨target, hbound⟩ := bound_after_bind ha hacc hmid (by simp [hsites])
  obtain ⟨hcons, -⟩ := after_keeps ha hacc hmid
  obtain ⟨sites', hsites'⟩ :=
    (step_effect hcons hrest.size_lt (.bind label)).pending_of_bind hagain
  rw [hbound] at hsites'
  cases hsites'

/-- Of all bindings of a label in a run at most one is carried out. -/
theorem carriedOut_unique {xs ys xs' ys' : List Call} (ha : a.Consistent) (hacc : a.Accounted)
    (hsmall : a.StaysSmall (xs ++ .bind label :: ys))
    (hsplit : xs ++ .bind label :: ys = xs' ++ .bind label :: ys')
    (h : CarriedOut ((a.after xs).step (.bind label)).1)
    (h' : CarriedOut ((a.after xs').step (.bind label)).1) : xs = xs' := by
  have hsmall' : a.StaysSmall (xs' ++ .bind label :: ys') := hsplit ▸ hsmall
  rcases List.append_eq_append_iff.mp hsplit with ⟨zs, rfl, hys⟩ | ⟨zs, rfl, hys⟩
  · cases zs with
    | nil => exact (List.append_nil xs).symm
    | cons c zs =>
      injection hys with hc hys
      subst hc hys
      obtain ⟨hxs, hrest⟩ := hsmall.append
      obtain ⟨hcons, hacc', -⟩ := after_keeps ha hacc hxs
      rw [after_append] at h'
      exact absurd h' (not_carriedOut_again hcons hacc' hrest h)
  · cases zs with
    | nil => exact List.append_nil xs'
    | cons c zs =>
      injection hys with hc hys
      subst hc hys
      obtain ⟨hxs, hrest⟩ := hsmall'.append
      obtain ⟨hcons, hacc', -⟩ := after_keeps ha hacc hxs
      rw [after_append] at h
      exact absurd h (not_carriedOut_again hcons hacc' hrest h')

/-- One of the calls that follow binds the label of a jump and finds the jump waiting, and with that
call the jump in the code gets its distance to the label. -/
def ResolvedBy (a : Assembler) (i : Instruction) (label : Nat) (post : List Call) : Prop :=
  ∃ mid rest sites site size, post = mid ++ .bind label :: rest ∧
    a.table.instructionSize i.opcode i.scale = .ok size ∧
    (a.step (.jump i label)).2.offset = site.start + size ∧
    let b := a.after (.jump i label :: mid)
    b.labels[label]? = some (.pending sites) ∧ site ∈ sites ∧
    (b.step (.bind label)).1 = .ok .done ∧
    site.start +
      operandAt (b.step (.bind label)).2.code site.start i.opcode i.scale site.width = b.offset

/-- Where no jump waits in the end and none was lost, an accepted jump was resolved. -/
theorem Spelled.resolvedBy {i : Instruction} {post : List Call} (h : Spelled a j)
    (hsmall : a.StaysSmall (.jump i label :: post))
    (hwaiting : (a.after (.jump i label :: post)).waiting = 0)
    (hlost : (a.after (.jump i label :: post)).lost = 0) (hopen : a.blockClosed = false)
    (hok : (a.step (.jump i label)).1 = .ok .done) : a.ResolvedBy i label post := by
  have hend := h.after hsmall
  obtain ⟨hsize, hpost⟩ := hsmall
  have he := step_effect h.consistent hsize (.jump i label)
  obtain ⟨⟨x, bytes, hw⟩, -, waiting, hpending⟩ := he.jump_waits hopen hok
  obtain ⟨hmem, hoffset, hlength⟩ := h.mem_note hw
  have hb := h.note he
  have hload : i.opcode.isPureLoad = false := hw.encodes.isPureLoad_eq_false (by simp)
  obtain ⟨target, hbound⟩ := hend.label_bound hwaiting (hb.mem_journalFrom hpost hmem hload) rfl
  obtain ⟨mid, rest, rfl, hbind, rfl⟩ :=
    exists_bind hb.consistent hb.accounted hpost (by simp [hpending]) hbound hlost
  -- from here on about the state in which the label is bound
  obtain ⟨hmid, hsize', hrest⟩ := hpost.append
  have hm := hb.after hmid
  have htable := table_after hb.consistent hmid
  rw [he.table] at htable
  have hthere := hb.mem_journalFrom hmid hmem hload
  have hem := step_effect hm.consistent hsize' (.bind label)
  obtain ⟨sites, hsites⟩ := hem.pending_of_bind (.inl hbind)
  obtain ⟨-, -, hmono, -⟩ :=
    after_keeps (hem.consistent hm.consistent) (hem.accounts hm.accounted).1 hrest
  have hlost' : (((a.step (.jump i label)).2.after mid).step (.bind label)).2.lost = 0 := by
    have hlast : (((a.step (.jump i label)).2.after mid).step (.bind label)).2.after rest =
        a.after (.jump i label :: (mid ++ .bind label :: rest)) :=
      (after_append (a.step (.jump i label)).2 mid (.bind label :: rest)).symm
    rw [hlast, hlost] at hmono
    exact Nat.le_zero.mp hmono
  obtain ⟨hstart, hread⟩ := (hm.note hem).operandAt_of_bound hlost'
    (hm.toSound.mem_note hem hthere hload) rfl (hem.bound_here hbind)
  refine ⟨mid, rest, sites, _, bytes.length, rfl, hlength, hoffset, hsites,
    (hm.mem_sites_iff hsites).mpr ⟨_, hthere, rfl, rfl⟩, hbind, ?_⟩
  rw [hem.table] at hread
  exact (congrArg (a.startOf x + ·) hread).trans (Nat.add_sub_cancel' hstart)

/-- A run in which every accepted jump is followed by a successful binding of its label leaves no jump
unbound. -/
theorem unboundJumps_eq_zero (t : OpcodeTable) (options : Options)
    (hsmall : (Assembler.new t options).StaysSmall calls)
    (hbinds : ∀ pre i label post, calls = pre ++ .jump i label :: post →
      let a := (Assembler.new t options).after pre
      a.blockClosed = false → (a.step (.jump i label)).1 = .ok .done →
      ∃ mid rest, post = mid ++ .bind label :: rest ∧
        ((a.after (.jump i label :: mid)).step (.bind label)).1 = .ok .done) :
    ((Assembler.new t options).after calls).unboundJumps = 0 := by
  have hnew := spelled_new t options
  have hunbound : ∀ label : Nat, (Assembler.new t options).labels[label]? = none := by
    simp [Assembler.new]
  have hcount := unboundJumps_after hnew.consistent (n := 0) rfl hsmall
  by_contra hne
  rcases Nat.eq_zero_or_pos ((Assembler.new t options).stranded calls) with hnone | hpos
  -- a jump still waits, although its label was bound
  · have hwaits : 0 < Label.waitingAt ((Assembler.new t options).after calls).labels.toList :=
      Nat.pos_of_ne_zero fun hzero => hne (by rw [hcount, waiting, hzero, hnone])
    obtain ⟨label, sites, hl, hsites⟩ := Label.exists_waiting hwaits
    rw [Array.getElem?_toList] at hl
    rcases exists_jump_of_pending hnew.consistent hsmall hl hsites with
      ⟨before, hb, -⟩ | ⟨pre, i, post, rfl, hopen, hok⟩
    · simp [hunbound] at hb
    · obtain ⟨mid, rest, rfl, hbind⟩ := hbinds pre i label post rfl hopen hok
      obtain ⟨hpre, hpost⟩ := hsmall.append
      rw [← List.cons_append] at hpost
      obtain ⟨hmid, hrest⟩ := hpost.append
      have hs := (spelled_journal t options hpre).after hmid
      obtain ⟨before, hbefore⟩ :=
        (step_effect hs.consistent hrest.size_lt (.bind label)).pending_of_bind (.inl hbind)
      obtain ⟨target, hbound⟩ :=
        bound_after_bind hs.consistent hs.accounted hrest (by simp [hbefore])
      rw [← after_append, List.cons_append, ← after_append, hl] at hbound
      cases hbound
  -- a jump was stranded, so its label was bound twice
  · obtain ⟨pre', label, post', distance, scale, rfl, hstrand, hwaits⟩ :=
      exists_bind_of_stranded hpos
    obtain ⟨hpre, -⟩ := hsmall.append
    obtain ⟨sites, hl, hsites⟩ := pending_of_waitingFor hwaits
    rcases exists_jump_of_pending hnew.consistent hpre hl hsites with
      ⟨before, hb, -⟩ | ⟨pre, i, mid, rfl, hopen, hok⟩
    · simp [hunbound] at hb
    · obtain ⟨mid', rest, hsplit, hbind⟩ :=
        hbinds pre i label (mid ++ .bind label :: post') (by simp) hopen hok
      rw [List.append_assoc] at hsmall
      obtain ⟨hpre, hpost⟩ := hsmall.append
      rw [after_append] at hstrand
      have hs := spelled_journal t options hpre
      have hsame : Call.jump i label :: mid = .jump i label :: mid' :=
        carriedOut_unique hs.consistent hs.accounted hpost (congrArg (List.cons _) hsplit)
          (.inr ⟨distance, scale, hstrand⟩) (.inl hbind)
      rw [hsame, hbind] at hstrand
      cases hstrand

/-- In every state of a run the counter of unbound jumps is the number of jumps that wait at the
labels and of those that were stranded before, so that the jumps that wait for one label can be
subtracted from it. The code is handed out exactly if every jump that was accepted in an open block
was resolved by a binding of its label, and otherwise the count is reported; after a jump was found
out of reach, that is the answer for good. -/
theorem unbound_jumps_counted (t : OpcodeTable) (options : Options) (calls : List Call)
    (hsmall : (Assembler.new t options).StaysSmall calls) :
    let s := Assembler.new t options
    let a := s.after calls
    a.unboundJumps = a.waiting + s.stranded calls ∧
    (∀ (label : Nat) (sites : Array JumpSite), a.labels[label]? = some (.pending sites) →
      sites.size ≤ a.unboundJumps) ∧
    ((∃ out, a.finish = .ok out) ↔ ∀ pre i label post, calls = pre ++ .jump i label :: post →
      (s.after pre).blockClosed = false → ((s.after pre).step (.jump i label)).1 = .ok .done →
      (s.after pre).ResolvedBy i label post) ∧
    ((∀ out, a.finish ≠ .ok out) →
      a.finish = .error (.unboundJumps (a.waiting + s.stranded calls))) ∧
    ∀ pre label post distance scale, calls = pre ++ .bind label :: post →
      ((s.after pre).step (.bind label)).1 = .error (.jumpOutOfRange distance scale) →
      ∀ out, a.finish ≠ .ok out := by
  intro s a
  have hspelled : Spelled a (s.journal calls) := spelled_journal t options hsmall
  have hcount : a.unboundJumps = a.waiting + (0 + s.stranded calls) :=
    unboundJumps_after (spelled_new t options).consistent rfl hsmall
  rw [Nat.zero_add] at hcount
  refine ⟨hcount, fun label sites hl => (hspelled.sites_within hl).1, ⟨?_, ?_⟩, ?_, ?_⟩
  · rintro ⟨out, hfinish⟩ pre i label post rfl hopen hok
    obtain ⟨hwaiting, hlost, -⟩ := waiting_of_finish hspelled.accounted hfinish
    obtain ⟨hpre, hpost⟩ := hsmall.append
    have hend : a = (s.after pre).after (.jump i label :: post) := after_append s pre _
    exact (spelled_journal t options hpre).resolvedBy hpost (hend ▸ hwaiting) (hend ▸ hlost) hopen
      hok
  · intro hresolved
    have hzero : a.unboundJumps = 0 := by
      refine unboundJumps_eq_zero t options hsmall fun pre i label post hcalls hopen hok => ?_
      obtain ⟨mid, rest, _, _, _, hpost, -, -, -, -, hbind, -⟩ :=
        hresolved pre i label post hcalls hopen hok
      exact ⟨mid, rest, hpost, hbind⟩
    exact ⟨_, by rw [finish, if_pos hzero]⟩
  · intro hno
    unfold finish at hno ⊢
    split at hno
    next => exact absurd rfl (hno _)
    next hne => rw [if_neg hne, hcount]
  · rintro pre label post distance scale rfl hstrand out hfinish
    obtain ⟨hpre, hpost⟩ := hsmall.append
    have he := step_effect (spelled_journal t options hpre).consistent hpost.size_lt (.bind label)
    rw [hstrand] at he
    have hpos : 0 < (s.after pre).strandedBy _ _ := he.strandedBy_pos
    obtain ⟨hwaiting, hlost, -⟩ := waiting_of_finish hspelled.accounted hfinish
    unfold lost at hlost
    rw [stranded_append, stranded, hstrand] at hcount
    omega

/-- A jump that is resolved, one that still waits, and two that are stranded by one binding. -/
def strandedPair : List Call :=
  [.newLabel, .newLabel, .newLabel, .jump (.bare .jumpIfTrue .single [0]) 0, .bind 0,
   .jump (.bare .jumpIfTrue .single [0]) 1, .jump (.bare .jumpIfFalse .quad [0]) 2,
   .jump (.bare .jumpIfFalse .single [0]) 2] ++
    List.replicate 15 (.write (.bare .callProperty .quad [0, 0, 0, 0])) ++ [.bind 2]

theorem unbound_jumps_counted_strandedPair :
    let s := Assembler.new .standard default
    s.StaysSmall strandedPair ∧ (s.after strandedPair).waiting = 1 ∧
      s.stranded strandedPair = 2 ∧ (s.after strandedPair).unboundJumps = 3 ∧
      (s.after strandedPair).finish = .error (.unboundJumps 3) := by
  intro s
  have hsmall : s.StaysSmall strandedPair := by decide +kernel
  have hwaiting : (s.after strandedPair).waiting = 1 := by decide +kernel
  have hstranded : s.stranded strandedPair = 2 := by decide +kernel
  have hlast : ((s.after (strandedPair.take 23)).step (.bind 2)).1 =
      .error (.jumpOutOfRange 272 .single) := by decide +kernel
  obtain ⟨hcount, -, -, hfinish, hno⟩ := unbound_jumps_counted .standard default strandedPair hsmall
  have hout := hfinish (hno (strandedPair.take 23) 2 [] 272 .single rfl hlast)
  rw [hwaiting, hstranded] at hcount hout
  exact ⟨hsmall, hwaiting, hstranded, hcount, hout⟩

end Assembler
end BytecodeAssembler
