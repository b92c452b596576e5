import BytecodeAssembler.Proofs.RegisterPool.Faults
import BytecodeAssembler.Proofs.RegisterPool.Traversal

/-! # What the check decides

The check looks at each node by itself and walks on from it through nodes it has not looked at yet.
Where every look is passed, `next` goes round in cycles, and the least slot of a cycle stands for it:
two nodes of one class that were found to have one least slot are on one cycle. Conversely, links
that are linked back close to rings, and a ring has no more nodes than the pool, so that no walk
round a ring is cut short.
-/
namespace BytecodeAssembler.RegisterPool
variable {p : RegisterPool} {s t u start cursor least : Slot} {n m : Node} {c xs : List Slot}

/-- The links of each node lead to nodes that link back. -/
def LinkedBack (p : RegisterPool) : Prop :=
  ∀ s n, p.node? s = some n → ∃ y z, p.node? n.next = some y ∧ p.node? n.prev = some z ∧
    y.prev = s ∧ z.next = s

/-- Following `next` from `s` on leads to `t`. -/
def Reaches (p : RegisterPool) : Slot → Slot → Prop :=
  Relation.ReflTransGen fun s t => p.next? s = some t

/-- Nodes are connected exactly if they are of one class. -/
def ConnectedByClass (p : RegisterPool) : Prop :=
  ∀ s t, p.isLive s → p.isLive t → (p.Reaches s t ↔ p.class? s = p.class? t)

theorem Reaches.head (hn : p.node? s = some n) (h : p.Reaches n.next t) : p.Reaches s t :=
  Relation.ReflTransGen.head (show p.next? s = some n.next by simp [next?, hn]) h

section
/-! ## Linked nodes close to rings -/

theorem getLast?_or_exists_next {α : Type*} {R : α → α → Prop} {l : List α} {w : α}
    (h : l.IsChain R) (hw : w ∈ l) : w ∈ l.getLast? ∨ ∃ v ∈ l.tail, R w v := by
  induction l with
  | nil => cases hw
  | cons x l ih =>
    cases l with
    | nil =>
      obtain rfl := List.mem_singleton.mp hw
      exact .inl rfl
    | cons y l =>
      obtain ⟨hxy, h⟩ := List.isChain_cons_cons.mp h
      rcases List.mem_cons.mp hw with rfl | hw
      · exact .inr ⟨y, List.mem_cons_self, hxy⟩
      · rcases ih h hw with hlast | ⟨v, hv, hwv⟩
        · exact .inl (by rwa [List.getLast?_cons_cons])
        · exact .inr ⟨v, List.mem_cons_of_mem _ hv, hwv⟩

/-- The front of a chain is linked with its end, or with a node that is not in it. -/
theorem LinkedBack.closes_or_extends (h : LinkedBack p) (hs : p.isLive s)
    (hnodup : (s :: xs).Nodup) (hchain : (s :: xs).IsChain p.Linked) :
    Ring p (s :: xs) ∨ ∃ w, (w :: s :: xs).Nodup ∧ (w :: s :: xs).IsChain p.Linked := by
  obtain ⟨n, hn⟩ := isLive_iff.mp hs
  obtain ⟨-, z, -, hz, -, hforth⟩ := h s n hn
  have hlink : p.Linked n.prev s := ⟨by simp [next?, hz, hforth], by simp [prev?, hn]⟩
  by_cases hmem : n.prev ∈ s :: xs
  · left
    rcases getLast?_or_exists_next hchain hmem with hlast | ⟨v, hv, hwv⟩
    · refine ⟨hnodup, hchain, fun z hz y hy => ?_⟩
      obtain rfl := Option.mem_unique hlast hz
      cases hy
      exact hlink
    · obtain rfl : s = v := Option.some.inj (hlink.1.symm.trans hwv.1)
      exact absurd hv (List.nodup_cons.mp hnodup).1
  · exact .inr ⟨n.prev, List.nodup_cons.mpr ⟨hmem, hnodup⟩,
      List.isChain_cons_cons.mpr ⟨hlink, hchain⟩⟩

/-- A chain of linked nodes can be carried on at its front until it closes, for there are only so many
slots. -/
theorem LinkedBack.exists_ring_of_chain (h : LinkedBack p) {s : Slot} {xs : List Slot}
    (hs : p.isLive s) (hnodup : (s :: xs).Nodup) (hchain : (s :: xs).IsChain p.Linked) :
    ∃ c, Ring p c ∧ ∀ t ∈ s :: xs, t ∈ c := by
  rcases h.closes_or_extends hs hnodup hchain with hring | ⟨w, hnodup', hchain'⟩
  · exact ⟨s :: xs, hring, fun _ => id⟩
  · have hw : p.isLive w := (List.isChain_cons_cons.mp hchain').1.isLive.1
    have hroom : (w :: s :: xs).length ≤ p.slots.size :=
      length_le_size hnodup' <| hchain'.induction (fun t => p.isLive t) _
        (fun _ _ hl _ => hl.isLive.2) fun _ => hw
    obtain ⟨c, hc, hmem⟩ := h.exists_ring_of_chain hw hnodup' hchain'
    exact ⟨c, hc, fun t ht => hmem t (List.mem_cons_of_mem _ ht)⟩
termination_by p.slots.size - xs.length
decreasing_by
  simp only [List.length_cons] at hroom ⊢
  omega

theorem LinkedBack.exists_ring (h : LinkedBack p) (hs : p.isLive s) : ∃ c, Ring p c ∧ s ∈ c := by
  obtain ⟨c, hc, hmem⟩ := h.exists_ring_of_chain hs (List.nodup_singleton s) (.singleton s)
  exact ⟨c, hc, hmem s List.mem_cons_self⟩

theorem Ring.mem_iff_reaches (h : Ring p c) (hs : s ∈ c) : t ∈ c ↔ p.Reaches s t := by
  constructor
  · intro ht
    obtain ⟨xs, hring, hmem⟩ := h.exists_cons hs
    refine hring.chain.induction (p.Reaches s) _ (fun u v huv hu => ?_) (fun _ => .refl) t
      ((hmem t).mpr ht)
    exact Relation.ReflTransGen.tail hu huv.1
  · intro hreach
    induction hreach with
    | refl => exact hs
    | tail _ hstep ih => exact h.next?_mem ih hstep

theorem LinkedBack.rings (h : LinkedBack p) (hclass : ConnectedByClass p) : Rings p := by
  intro id
  by_cases hid : ∃ s, p.class? s = some id
  · obtain ⟨s, hs⟩ := hid
    have hlive := isLive_of_class? hs
    obtain ⟨c, hc, hsc⟩ := h.exists_ring hlive
    refine ⟨c, hc, fun t => ?_⟩
    rw [true_and, hc.mem_iff_reaches hsc]
    constructor
    · intro hreach
      have ht : p.isLive t := hc.isLive ((hc.mem_iff_reaches hsc).mpr hreach)
      rw [← (hclass s t hlive ht).mp hreach, hs]
    · intro ht
      exact (hclass s t hlive (isLive_of_class? ht)).mpr (hs.trans ht.symm)
  · exact ⟨[], .nil, fun t => by simpa using fun ht => hid ⟨t, ht⟩⟩

end

section
/-! ## What a passed check has seen -/

theorem linkDefect?_eq_none (h : p.linkDefect? s n = none) :
    ∃ y z, p.node? n.next = some y ∧ p.node? n.prev = some z ∧ y.prev = s ∧ z.next = s ∧
      y.classId = n.classId := by
  unfold RegisterPool.linkDefect? at h
  split at h
  next y z hy hz =>
    split at h
    · cases h
    next hback =>
      split at h
      · cases h
      next hid =>
        obtain ⟨hy', hz'⟩ := not_or.mp hback
        exact ⟨y, z, hy, hz, not_not.mp hy', not_not.mp hz', not_not.mp hid⟩
  next => cases h

/-- A walk that comes to its end finds a slot on its way. -/
theorem reaches_of_leastOnRing {bound : Nat} {found : Slot}
    (h : p.leastOnRing start bound least cursor = .ok found) :
    p.Reaches cursor start ∧
      (found = least ∨ p.Reaches cursor found ∧ p.Reaches found start) := by
  induction bound generalizing least cursor with
  | zero =>
    unfold RegisterPool.leastOnRing at h
    by_cases heq : cursor = start
    · rw [if_pos heq] at h
      cases h
      exact ⟨heq ▸ .refl, .inl rfl⟩
    · rw [if_neg heq] at h
      cases h
  | succ bound ih =>
    by_cases heq : cursor = start
    · rw [heq, leastOnRing_self] at h
      cases h
      exact ⟨heq ▸ .refl, .inl rfl⟩
    cases hn : p.node? cursor with
    | none =>
      unfold RegisterPool.leastOnRing at h
      simp [heq, hn] at h
    | some n =>
      rw [leastOnRing_succ hn heq] at h
      obtain ⟨hend, hfound⟩ := ih h
      have hend := Reaches.head hn hend
      refine ⟨hend, ?_⟩
      rcases hfound with rfl | ⟨hto, hfrom⟩
      · split
        · exact .inr ⟨.refl, hend⟩
        · exact .inl rfl
      · exact .inr ⟨.head hn hto, hfrom⟩

theorem checkNodes_cons {seen : List (ClassId × Slot)} {ns : List (Slot × Node)}
    (h : p.checkNodes seen ((s, n) :: ns) = .ok ()) :
    p.linkDefect? s n = none ∧ ∃ least, p.leastOnRing s p.length s n.next = .ok least ∧
      (seen.lookup n.classId = some least ∧ p.checkNodes seen ns = .ok () ∨
        seen.lookup n.classId = none ∧ p.checkNodes ((n.classId, least) :: seen) ns = .ok ()) := by
  rw [RegisterPool.checkNodes] at h
  cases hdefect : p.linkDefect? s n with
  | some d => simp [hdefect] at h
  | none =>
    refine ⟨rfl, ?_⟩
    cases hleast : p.leastOnRing s p.length s n.next with
    | error d => simp [hdefect, hleast, bind, Except.bind] at h
    | ok least =>
      simp only [hdefect, hleast, bind, Except.bind] at h
      refine ⟨least, rfl, ?_⟩
      cases hseen : seen.lookup n.classId with
      | none =>
        rw [hseen] at h
        exact .inr ⟨rfl, h⟩
      | some other =>
        simp only [hseen] at h
        split at h
        next heq => exact .inl ⟨congrArg some heq, h⟩
        next => cases h

/-- Each node that passed has sound links, and one slot is the least on the ring of every node of a
class. -/
theorem exists_least_of_checkNodes {seen : List (ClassId × Slot)} {ns : List (Slot × Node)}
    (h : p.checkNodes seen ns = .ok ()) :
    ∃ first : ClassId → Slot, (∀ id t, seen.lookup id = some t → first id = t) ∧
      ∀ e ∈ ns, p.linkDefect? e.1 e.2 = none ∧
        p.leastOnRing e.1 p.length e.1 e.2.next = .ok (first e.2.classId) := by
  induction ns generalizing seen with
  | nil => exact ⟨fun id => (seen.lookup id).getD 0, by simp +contextual, by simp⟩
  | cons e ns ih =>
    obtain ⟨s, n⟩ := e
    obtain ⟨hdefect, least, hleast, ⟨hseen, hrest⟩ | ⟨hseen, hrest⟩⟩ := checkNodes_cons h
    · obtain ⟨first, hfirst, hns⟩ := ih hrest
      refine ⟨first, hfirst, List.forall_mem_cons.mpr ⟨⟨hdefect, ?_⟩, hns⟩⟩
      rw [hleast, hfirst _ _ hseen]
    · obtain ⟨first, hfirst, hns⟩ := ih hrest
      have hid : first n.classId = least := hfirst _ _ (by simp)
      refine ⟨first, fun id t hid' => ?_, List.forall_mem_cons.mpr ⟨⟨hdefect, ?_⟩, hns⟩⟩
      · refine hfirst _ _ ?_
        rw [List.lookup_cons]
        split
        next heq =>
          rw [beq_iff_eq.mp heq, hseen] at hid'
          cases hid'
        next => exact hid'
      · rw [hleast, hid]

theorem exists_least_of_check (h : p.check = .ok ()) :
    ∃ first : ClassId → Slot, ∀ s n, p.node? s = some n → p.linkDefect? s n = none ∧
      p.leastOnRing s p.length s n.next = .ok (first n.classId) := by
  have hnodes : p.checkNodes [] p.nodes = .ok () := by
    unfold check at h
    cases hns : p.checkNodes [] p.nodes with
    | error d => simp [hns, Except.mapError] at h
    | ok _ => rfl
  obtain ⟨first, -, hfirst⟩ := exists_least_of_checkNodes hnodes
  exact ⟨first, fun s n hn => hfirst (s, n) (mem_nodes.mpr hn)⟩

theorem linkedBack_of_check (h : p.check = .ok ()) : LinkedBack p := by
  obtain ⟨first, hfirst⟩ := exists_least_of_check h
  intro s n hn
  obtain ⟨y, z, hy, hz, hback, hforth, -⟩ := linkDefect?_eq_none (hfirst s n hn).1
  exact ⟨y, z, hy, hz, hback, hforth⟩

theorem connectedByClass_of_check (h : p.check = .ok ()) : ConnectedByClass p := by
  obtain ⟨first, hfirst⟩ := exists_least_of_check h
  intro s t hs ht
  obtain ⟨n, hn⟩ := isLive_iff.mp hs
  obtain ⟨m, hm⟩ := isLive_iff.mp ht
  constructor
  · intro hreach
    clear hm ht
    induction hreach with
    | refl => rfl
    | @tail u v _ hstep ih =>
      obtain ⟨k, hk, rfl⟩ := Option.map_eq_some_iff.mp hstep
      obtain ⟨y, -, hy, -, -, -, hid⟩ := linkDefect?_eq_none (hfirst u k hk).1
      rw [ih]
      simp [class?, hk, hy, hid]
  -- two nodes of one class are connected through the slot that is the least on the way of both
  · intro hid
    have hid : n.classId = m.classId := by simpa [class?, hn, hm] using hid
    obtain ⟨-, hto⟩ := reaches_of_leastOnRing (hfirst s n hn).2
    obtain ⟨-, hfrom⟩ := reaches_of_leastOnRing (hfirst t m hm).2
    have hto : p.Reaches s (first n.classId) := by
      rcases hto with heq | ⟨hto, -⟩
      · exact heq ▸ .refl
      · exact .head hn hto
    have hfrom : p.Reaches (first m.classId) t := by
      rcases hfrom with heq | ⟨-, hfrom⟩
      · exact heq ▸ .refl
      · exact hfrom
    rw [hid] at hto
    exact Relation.ReflTransGen.trans hto hfrom

/-- The check passes exactly the pools whose rings are the classes. -/
theorem Stored.check_iff (h : Stored p) :
    p.check = .ok () ↔ p.LinkedBack ∧ p.ConnectedByClass := by
  constructor
  · exact fun hcheck => ⟨linkedBack_of_check hcheck, connectedByClass_of_check hcheck⟩
  · rintro ⟨hback, hclass⟩
    exact Sound.check ⟨h, hback.rings hclass⟩

theorem Stored.sound_of_check (h : Stored p) (hcheck : p.check = .ok ()) : Sound p :=
  ⟨h, (linkedBack_of_check hcheck).rings (connectedByClass_of_check hcheck)⟩

end

section
/-! ## The walk round a ring -/

/-- The walk from `cursor` on as a loop that counts its steps. It is given up when it took more steps
than there are nodes. The walk ends after `count` more moves along `next` with the given answer. -/
inductive Walk (p : RegisterPool) (start : Slot) :
    Nat → Slot → Slot → Nat → Except RingDefect Slot → Prop
  | home (steps : Nat) (least : Slot) : Walk p start steps least start 0 (.ok least)
  | givenUp {steps : Nat} {least cursor : Slot} (hcursor : cursor ≠ start)
    (hsteps : p.length < steps) : Walk p start steps least cursor 0 (.error (.neverCloses start))
  | broken {steps : Nat} {least cursor : Slot} (hcursor : cursor ≠ start)
    (hsteps : steps ≤ p.length) (hn : p.node? cursor = none) :
    Walk p start steps least cursor 0 (.error (.broken start))
  | move {steps count : Nat} {least cursor : Slot} {n : Node} {found : Except RingDefect Slot}
    (hcursor : cursor ≠ start) (hsteps : steps ≤ p.length) (hn : p.node? cursor = some n)
    (h : Walk p start (steps + 1) (min least cursor) n.next count found) :
    Walk p start steps least cursor (count + 1) found

variable {steps k : Nat} {found : Except RingDefect Slot}

theorem walk_home_iff : p.Walk start steps least start k found ↔ k = 0 ∧ found = .ok least := by
  constructor
  · intro h
    cases h with
    | home => exact ⟨rfl, rfl⟩
    | givenUp hcursor | broken hcursor | move hcursor => exact absurd rfl hcursor
  · rintro ⟨rfl, rfl⟩
    exact .home steps least

theorem walk_givenUp_iff (hcursor : cursor ≠ start) (hsteps : p.length < steps) :
    p.Walk start steps least cursor k found ↔ k = 0 ∧ found = .error (.neverCloses start) := by
  constructor
  · intro h
    cases h with
    | home => exact absurd rfl hcursor
    | givenUp => exact ⟨rfl, rfl⟩
    | broken _ hle | move _ hle => exact absurd hsteps hle.not_gt
  · rintro ⟨rfl, rfl⟩
    exact .givenUp hcursor hsteps

theorem walk_broken_iff (hcursor : cursor ≠ start) (hsteps : steps ≤ p.length)
    (hn : p.node? cursor = none) :
    p.Walk start steps least cursor k found ↔ k = 0 ∧ found = .error (.broken start) := by
  constructor
  · intro h
    cases h with
    | home => exact absurd rfl hcursor
    | givenUp _ hlt => exact absurd hlt hsteps.not_gt
    | broken => exact ⟨rfl, rfl⟩
    | move _ _ hm => simp [hn] at hm
  · rintro ⟨rfl, rfl⟩
    exact .broken hcursor hsteps hn

theorem walk_move_iff (hcursor : cursor ≠ start) (hsteps : steps ≤ p.length)
    (hn : p.node? cursor = some n) :
    p.Walk start steps least cursor k found ↔
      ∃ count, k = count + 1 ∧ p.Walk start (steps + 1) (min least cursor) n.next count found := by
  constructor
  · intro h
    cases h with
    | home => exact absurd rfl hcursor
    | givenUp _ hlt => exact absurd hlt hsteps.not_gt
    | broken _ _ hm => simp [hn] at hm
    | @move _ count _ _ _ _ _ _ hm h =>
      obtain rfl := Option.some.inj (hn.symm.trans hm)
      exact ⟨count, rfl, h⟩
  · rintro ⟨count, rfl, h⟩
    exact .move hcursor hsteps hn h

/-- The loop comes to an end in every pool, within the bound, and finds what the bounded walk finds. -/
theorem exists_count_of_walk {bound : Nat} (hbound : bound + steps = p.length + 1) :
    ∃ count ≤ bound, ∀ k found, p.Walk start steps least cursor k found ↔
      k = count ∧ found = p.leastOnRing start bound least cursor := by
  induction bound generalizing steps least cursor with
  | zero =>
    refine ⟨0, le_rfl, fun k found => ?_⟩
    by_cases hcursor : cursor = start
    · rw [hcursor, leastOnRing_self, walk_home_iff]
    · rw [walk_givenUp_iff hcursor (by omega)]
      simp [RegisterPool.leastOnRing, hcursor]
  | succ bound ih =>
    by_cases hcursor : cursor = start
    · refine ⟨0, Nat.zero_le _, fun k found => ?_⟩
      rw [hcursor, leastOnRing_self, walk_home_iff]
    cases hn : p.node? cursor with
    | none =>
      refine ⟨0, Nat.zero_le _, fun k found => ?_⟩
      rw [walk_broken_iff hcursor (by omega) hn]
      simp [RegisterPool.leastOnRing, hcursor, hn]
    | some n =>
      have hleast : (if cursor < least then cursor else least) = min least cursor := by
        rw [min_comm, min_def_lt]
      obtain ⟨count, hcount, hwalk⟩ : ∃ count ≤ bound, ∀ k found,
          p.Walk start (steps + 1) (min least cursor) n.next k found ↔
            k = count ∧ found = p.leastOnRing start bound (min least cursor) n.next :=
        ih (by omega)
      refine ⟨count + 1, by omega, fun k found => ?_⟩
      simp only [leastOnRing_succ hn hcursor, hleast, walk_move_iff hcursor (by omega : steps ≤ _) hn,
        hwalk]
      constructor
      · rintro ⟨_, rfl, rfl, hfound⟩
        exact ⟨rfl, hfound⟩
      · rintro ⟨rfl, hfound⟩
        exact ⟨count, rfl, rfl, hfound⟩

end

/-- After any calls, also ones that stopped half done at a stale slot, the check passes the pool
exactly if the links of each node lead to live nodes that link back and the nodes that are connected
are the nodes of one class. It reports a corrupt ring otherwise, and its walk from a node ends after
at most as many moves as there are nodes. -/
theorem check_decides_rings (calls : List Call) :
    let p := empty.after calls
    (p.check = .ok () ↔ p.LinkedBack ∧ p.ConnectedByClass) ∧
      (∀ e, p.check = .error e → ∃ d, e = .corruptRing d) ∧
      ∀ s n, p.node? s = some n → ∃ count ≤ p.length, ∀ k found,
        p.Walk s 1 s n.next k found ↔ k = count ∧ found = p.leastOnRing s p.length s n.next := by
  intro p
  refine ⟨(stored_empty.after calls).check_iff, fun e he => ?_, fun s n _ => exists_count_of_walk rfl⟩
  unfold check at he
  cases hns : p.checkNodes [] p.nodes with
  | ok _ => simp [hns, Except.mapError] at he
  | error d =>
    rw [hns] at he
    cases he
    exact ⟨d, rfl⟩

/-- A node that was to join a class behind a stale slot is left between two rings: its way leads into
a ring that it is not on. -/
example :
    let p := empty.after [.insert ⟨0⟩ 0 true true, .insert ⟨1⟩ 1 true true, .join 1 0, .join 1 5]
    p.check = .error (.corruptRing (.notLinkedBack 1)) ∧
      p.leastOnRing 1 p.length 1 0 = .error (.neverCloses 1) := by
  decide

end BytecodeAssembler.RegisterPool
