import BytecodeAssembler.Proofs.RegisterPool.Storage

/-! # Every call keeps a pool sound

A pool is sound if it is well stored and each class is a ring. A call is admissible if its slots are
live and the class id it brings along is not in use elsewhere; an admissible call meets no slot
without a node and leaves the pool sound.
-/
namespace BytecodeAssembler.RegisterPool

structure Sound (p : RegisterPool) : Prop where
  stored : Stored p
  rings : Rings p

variable {p q : RegisterPool} {s : Slot} {n : Node} {c : Call}

theorem sound_empty : Sound empty := by
  refine ⟨stored_empty, fun id => ⟨[], .nil, fun t => ?_⟩⟩
  simp [class?, node?, empty]

/-- No node carries the class id, except possibly the one in `s`. -/
def UnusedBut (p : RegisterPool) (id : ClassId) (s : Option Slot) : Prop :=
  ∀ t n, p.node? t = some n → n.classId = id → s = some t

/-- The slots that the call names are live, and the class id it names is its own. -/
def Call.Admissible (p : RegisterPool) : Call → Prop
  | .freshClass => True
  | .insert _ id _ _ => p.UnusedBut id none
  | .split s id _ => p.isLive s ∧ p.UnusedBut id (some s)
  | .join s t => p.isLive s ∧ p.isLive t
  | .free s | .setMaterialized s _ | .setAllocated s _ | .setNeedsFlush s _ => p.isLive s

instance decidableUnusedBut (p : RegisterPool) (id : ClassId) (s : Option Slot) :
    Decidable (p.UnusedBut id s) :=
  decidable_of_iff (∀ m ∈ p.nodes, m.2.classId = id → s = some m.1)
    ⟨fun h t n hn => h (t, n) (mem_nodes.mpr hn), fun h m hm => h m.1 m.2 (mem_nodes.mp hm)⟩

instance (p : RegisterPool) (c : Call) : Decidable (c.Admissible p) := by
  cases c <;> unfold Call.Admissible <;> infer_instance

theorem Sound.adjust (h : Sound p) (s : Slot) {f : Node → Node}
    (hf : ∀ n, (f n).register = n.register ∧ (f n).next = n.next ∧ (f n).prev = n.prev ∧
      (f n).classId = n.classId) : Sound (p.adjust s f) := by
  refine ⟨h.stored.adjust s fun n => (hf n).1, RingsOn.congr h.rings ?_ ?_ ?_⟩
  · intro u _
    simp only [next?, node?_adjust]
    split
    · simp [Function.comp_def, hf]
    · rfl
  · intro u _
    simp only [prev?, node?_adjust]
    split
    · simp [Function.comp_def, hf]
    · rfl
  · intro u id
    rw [class?_adjust p s fun n => (hf n).2.2.2]

theorem Sound.setNextClass (h : Sound p) (id : ClassId) : Sound { p with nextClass := id } where
  stored := ⟨h.stored.mem_index, h.stored.registers, h.stored.mem_free, h.stored.free⟩
  rings := RingsOn.congr h.rings (fun _ _ => rfl) (fun _ _ => rfl) fun _ _ => Iff.rfl

theorem Sound.free (h : Sound p) (hn : p.node? s = some n) :
    Sound ((p.bypass n).drop s n.register) := by
  obtain ⟨n', hn', hr⟩ := exists_node?_bypass hn n
  rw [← hr]
  exact ⟨(h.stored.bypass n).drop hn', (RingsBut.bypass h.rings hn).drop _⟩

theorem Sound.join (h : Sound p) (hn : p.node? s = some n) {t : Slot} (hts : t ≠ s) {m : Node}
    (hm : (p.bypass n).node? t = some m) :
    Sound ((p.bypass n).splice s t m.next m.classId) := by
  obtain ⟨n', hn', -⟩ := exists_node?_bypass hn n
  exact ⟨(h.stored.bypass n).splice .., (RingsBut.bypass h.rings hn).splice hn' hm hts⟩

theorem Sound.split (h : Sound p) (hn : p.node? s = some n) {id : ClassId} (b : Bool)
    (hid : p.UnusedBut id (some s)) : Sound ((p.bypass n).isolate s id b) := by
  obtain ⟨n', hn', -⟩ := exists_node?_bypass hn n
  refine ⟨(h.stored.bypass n).isolate .., (RingsBut.bypass h.rings hn).isolate hn' b ?_⟩
  intro u hus hu
  obtain ⟨m, hm, hmid⟩ := Option.map_eq_some_iff.mp hu
  rw [node?_bypass] at hm
  obtain ⟨m', hm', rfl⟩ := Option.map_eq_some_iff.mp hm
  exact hus (Option.some.inj (hid u m' hm' hmid)).symm

theorem Sound.insert (h : Sound p) (hr : p.slotOf? n.register = none)
    (hid : p.UnusedBut n.classId none) (hnext : n.next = p.reserve.1)
    (hprev : n.prev = p.reserve.1) : Sound (p.reserve.2.enter p.reserve.1 n) := by
  refine ⟨h.stored.enter hr, h.rings.enter h.stored ?_ hnext hprev⟩
  intro s hs
  obtain ⟨m, hm, hmid⟩ := Option.map_eq_some_iff.mp hs
  cases hid s m hm hmid

theorem step_of_ok {m : Step Unit} (hc : c.perform = do m; return .done)
    (h : m.run p = .ok () q) : p.step c = (.ok .done, q) := by
  simp only [step, hc, EStateM.run_bind, h]
  rfl

theorem step_insert {r : Register} (hr : p.slotOf? r = none) (id : ClassId) (b allocated : Bool) :
    p.step (.insert r id b allocated) = (.ok (.slot p.reserve.1), p.reserve.2.enter p.reserve.1
      ⟨r, id, b, allocated, false, p.reserve.1, p.reserve.1⟩) := by
  simp only [step, Call.perform, EStateM.run_bind, run_insert hr, EStateM.run_pure]

theorem step_insert_of_tracked {r : Register} (hr : (p.slotOf? r).isSome) (id : ClassId)
    (b allocated : Bool) :
    p.step (.insert r id b allocated) = (.error (.internal (.alreadyTracked r)), p) := by
  simp only [step, Call.perform, EStateM.run_bind, run_insert_of_tracked hr]

/-- The slots that the call names are live. -/
def Call.OnLive (p : RegisterPool) : Call → Prop
  | .freshClass | .insert .. => True
  | .join s t => p.isLive s ∧ p.isLive t
  | .free s | .split s _ _ | .setMaterialized s _ | .setAllocated s _ | .setNeedsFlush s _ =>
    p.isLive s

instance (p : RegisterPool) (c : Call) : Decidable (c.OnLive p) := by
  cases c <;> unfold Call.OnLive <;> infer_instance

theorem Call.Admissible.onLive (hc : c.Admissible p) : c.OnLive p := by
  cases c with
  | freshClass | insert => trivial
  | split => exact hc.1
  | free | join | setMaterialized | setAllocated | setNeedsFlush => exact hc

/-- What a call on live slots answers and what becomes of the pool. -/
inductive Effect (p : RegisterPool) : Call → Except Fault Reply → RegisterPool → Prop
  | drew : Effect p .freshClass (.ok (.classId p.nextClass)) { p with nextClass := p.nextClass + 1 }
  | refused {r : Register} {id : ClassId} {b allocated : Bool} (hr : (p.slotOf? r).isSome) :
    Effect p (.insert r id b allocated) (.error (.internal (.alreadyTracked r))) p
  | entered {r : Register} {id : ClassId} {b allocated : Bool} (hr : p.slotOf? r = none) :
    Effect p (.insert r id b allocated) (.ok (.slot p.reserve.1)) (p.reserve.2.enter p.reserve.1
      ⟨r, id, b, allocated, false, p.reserve.1, p.reserve.1⟩)
  | freed {s : Slot} {n : Node} (hn : p.node? s = some n) :
    Effect p (.free s) (.ok .done) ((p.bypass n).drop s n.register)
  | copied {s : Slot} (hs : p.isLive s) :
    Effect p (.join s s) (.ok .done) (p.adjust s fun n => { n with materialized := false })
  | joined {s t : Slot} {n m : Node} (hst : s ≠ t) (hn : p.node? s = some n)
    (hm : (p.bypass n).node? t = some m) (hsy : s ≠ m.next) :
    Effect p (.join s t) (.ok .done) ((p.bypass n).splice s t m.next m.classId)
  | parted {s : Slot} {n : Node} {id : ClassId} {b : Bool} (hn : p.node? s = some n) :
    Effect p (.split s id b) (.ok .done) ((p.bypass n).isolate s id b)
  | setMaterialized {s : Slot} {b : Bool} (hs : p.isLive s) : Effect p (.setMaterialized s b)
    (.ok .done) (p.adjust s fun n => { n with materialized := b })
  | setAllocated {s : Slot} {b : Bool} (hs : p.isLive s) : Effect p (.setAllocated s b)
    (.ok .done) (p.adjust s fun n => { n with allocated := b })
  | setNeedsFlush {s : Slot} {b : Bool} (hs : p.isLive s) : Effect p (.setNeedsFlush s b)
    (.ok .done) (p.adjust s fun n => { n with needsFlush := b })

theorem effect_of_ok {m : Step Unit} (hc : c.perform = do m; return .done) (h : m.run p = .ok () q)
    (he : Effect p c (.ok .done) q) : Effect p c (p.step c).1 (p.step c).2 := by
  rwa [step_of_ok hc h]

/-- In a sound pool no call on live slots has any other effect; it meets no slot without a node. -/
theorem Sound.effect (h : Sound p) (hc : c.OnLive p) : Effect p c (p.step c).1 (p.step c).2 := by
  cases c with
  | freshClass => exact .drew
  | insert r id b allocated =>
    cases hr : p.slotOf? r with
    | some s =>
      have htracked : (p.slotOf? r).isSome := Option.isSome_of_eq_some hr
      rw [step_insert_of_tracked htracked]
      exact .refused htracked
    | none =>
      rw [step_insert hr]
      exact .entered hr
  | free s =>
    obtain ⟨n, hn⟩ := isLive_iff.mp hc
    exact effect_of_ok rfl (run_free h.rings hn) (.freed hn)
  | join s t =>
    obtain ⟨hs, ht⟩ := hc
    by_cases hst : s = t
    · subst hst
      exact effect_of_ok rfl (run_join_self hs) (.copied hs)
    · obtain ⟨n, hn⟩ := isLive_iff.mp hs
      obtain ⟨m, hm⟩ := isLive_iff.mp ((isLive_bypass p n t).trans ht)
      have hbut : RingsBut (p.bypass n) s := RingsBut.bypass h.rings hn
      obtain ⟨-, hsy⟩ := hbut.linked_behind hm (Ne.symm hst)
      exact effect_of_ok rfl (run_join h.rings hn hst hm) (.joined hst hn hm hsy)
  | split s id b =>
    obtain ⟨n, hn⟩ := isLive_iff.mp hc
    exact effect_of_ok rfl (run_split h.rings hn id b) (.parted hn)
  | setMaterialized => exact effect_of_ok rfl (run_update_of_isLive hc _) (.setMaterialized hc)
  | setAllocated => exact effect_of_ok rfl (run_update_of_isLive hc _) (.setAllocated hc)
  | setNeedsFlush => exact effect_of_ok rfl (run_update_of_isLive hc _) (.setNeedsFlush hc)

theorem Effect.sound {r : Except Fault Reply} (he : Effect p c r q) (h : Sound p)
    (hc : c.Admissible p) : Sound q := by
  cases he with
  | drew => exact h.setNextClass _
  | refused => exact h
  | entered hr => exact h.insert hr hc rfl rfl
  | freed hn => exact h.free hn
  | joined hst hn hm => exact h.join hn hst.symm hm
  | parted hn => exact h.split hn _ hc.2
  | copied | setMaterialized | setAllocated | setNeedsFlush =>
    exact h.adjust _ fun _ => ⟨rfl, rfl, rfl, rfl⟩

theorem Effect.eq_ok_or_refused {r : Except Fault Reply} (he : Effect p c r q) :
    (∃ x, r = .ok x) ∨ q = p ∧ ∃ t, r = .error (.internal (.alreadyTracked t)) := by
  cases he with
  | refused => exact .inr ⟨rfl, _, rfl⟩
  | drew | entered | freed | copied | joined | parted | setMaterialized | setAllocated
  | setNeedsFlush => exact .inl ⟨_, rfl⟩

/-- An admissible call is carried out, unless it inserts a register that is tracked already. The pool
stays sound. -/
theorem Sound.step (h : Sound p) (hc : c.Admissible p) :
    (∃ r q, p.step c = (.ok r, q) ∧ Sound q) ∨
      ∃ r, p.step c = (.error (.internal (.alreadyTracked r)), p) := by
  have he := h.effect hc.onLive
  rcases he.eq_ok_or_refused with ⟨x, hx⟩ | ⟨hq, r, hr⟩
  · exact .inl ⟨x, _, Prod.ext hx rfl, he.sound h hc⟩
  · exact .inr ⟨r, Prod.ext hr hq⟩

def after (p : RegisterPool) (calls : List Call) : RegisterPool := (p.run calls).2

/-- Each call is admissible where it is made. -/
def Proper (p : RegisterPool) : List Call → Prop
  | [] => True
  | c :: calls => c.Admissible p ∧ Proper (p.step c).2 calls

instance decidableProper (p : RegisterPool) (calls : List Call) : Decidable (p.Proper calls) :=
  match calls with
  | [] => inferInstanceAs (Decidable True)
  | c :: calls =>
    have := decidableProper (p.step c).2 calls
    inferInstanceAs (Decidable (c.Admissible p ∧ Proper (p.step c).2 calls))

/-- At any point of a proper run the pool is sound, and the rest of the run is proper. -/
theorem Sound.after (h : Sound p) {pre post : List Call} (hproper : p.Proper (pre ++ post)) :
    Sound (p.after pre) ∧ (p.after pre).Proper post := by
  induction pre generalizing p with
  | nil => exact ⟨h, hproper⟩
  | cons c pre ih =>
    obtain ⟨hc, hrest⟩ := hproper
    exact ih ((h.effect hc.onLive).sound h hc) hrest

end BytecodeAssembler.RegisterPool
