import BytecodeAssembler.Proofs.Assembler.Image
import BytecodeAssembler.Proofs.Assembler.Labels

/-! # What the code spells

`Spelled` says what every byte of the code is. Each instruction of the journal stands there as it was
encoded, and a forward jump has its distance exactly if its label was bound within its reach. The
jumps that wait at a label are those of the journal that go to it, in the order they were written.
-/
namespace BytecodeAssembler.Assembler

namespace Placed

def Formed (t : OpcodeTable) (e : Placed) : Prop :=
  ∃ x, e.request.Encodes x ∧ x.encode t = .ok e.bytes

def waitsFor (e : Placed) (label : Nat) : Bool := decide (e.request.link = .forward label)

variable {t : OpcodeTable} {e : Placed}

theorem Formed.fits (h : e.Formed t) : e.Fits t := by
  obtain ⟨x, hx, hb⟩ := h
  have hle := Instruction.header_add_firstWidth_le hb
  rw [hx.same.1, hx.same.2] at hle
  exact hle

theorem width_eq {x : Instruction} {w : Width} {ws : List Width} (hx : e.request.Encodes x)
    (hw : t.operandWidths x.opcode x.scale = .ok (w :: ws)) : e.width t = w := by
  rw [hx.same.1, hx.same.2] at hw
  exact OpcodeTable.firstWidth_eq hw

theorem Formed.waitsFor_of_load (h : e.Formed t) (hload : e.instruction.opcode.isPureLoad)
    (label : Nat) : e.waitsFor label = false := by
  obtain ⟨x, hx, -⟩ := h
  refine decide_eq_false fun hlink => ?_
  have hno : e.instruction.opcode.isPureLoad = false := hx.isPureLoad_eq_false (by simp [hlink])
  rw [hload] at hno
  cases hno

end Placed

/-- The distance that stands in an instruction: a forward jump has one once its label is bound
within its reach. -/
inductive Filled (a : Assembler) (e : Placed) : Option Nat → Prop
  | plain (hlink : ∀ label, e.request.link ≠ .forward label) : Filled a e none
  | waiting {label : Nat} {sites : Array JumpSite} (hlink : e.request.link = .forward label)
    (hl : a.labels[label]? = some (.pending sites)) : Filled a e none
  | resolved {label target : Nat} (hlink : e.request.link = .forward label)
    (hl : a.labels[label]? = some (.bound target)) (hstart : e.start ≤ target)
    (hreach : (e.site a.table).reaches target) : Filled a e (some (target - e.start))
  | lost {label target : Nat} (hlink : e.request.link = .forward label)
    (hl : a.labels[label]? = some (.bound target)) (hlost : 0 < a.lost) : Filled a e none

/-- The code is spelled by the journal. -/
structure Spelled (a : Assembler) (j : Journal) : Prop extends Journal.Sound a j where
  accounted : a.Accounted
  formed : ∀ e ∈ j.listing, e.Formed a.table
  sites : ∀ {label : Nat} {sites : Array JumpSite}, a.labels[label]? = some (.pending sites) →
    sites.toList = ((j.listing.filter (·.waitsFor label)).map (·.site a.table)).reverse
  code : ∃ f, a.code.toList = render a.table f j.listing ∧ ∀ e ∈ j.listing, Filled a e (f e)

variable {a b : Assembler} {c : Call} {r : Except AssemblyError Reply} {j : Journal}

theorem Spelled.mem_sites_iff (h : Spelled a j) {label : Nat} {sites : Array JumpSite}
    (hl : a.labels[label]? = some (.pending sites)) {s : JumpSite} : s ∈ sites ↔
      ∃ e ∈ j.listing, e.request.link = .forward label ∧ e.site a.table = s := by
  rw [← Array.mem_toList_iff, h.sites hl, List.mem_reverse, List.mem_map]
  simp [Placed.waitsFor, and_assoc]

theorem Filled.mono {e : Placed} {d : Option Nat} (h : Filled a e d) (hab : Advances a b) :
    Filled b e d := by
  cases h with
  | plain hlink => exact .plain hlink
  | waiting hlink hl =>
    obtain ⟨sites', hl'⟩ := hab.pending hl
    exact .waiting hlink hl'
  | resolved hlink hl hstart hreach =>
    exact .resolved hlink (hab.bound.mpr hl) hstart (by rw [hab.table]; exact hreach)
  | lost hlink hl hlost => exact .lost hlink (hab.bound.mpr hl) (hlost.trans_le hab.lost)

/-- Only forward jumps are given distances. -/
theorem Filled.eq_none {e : Placed} {d : Option Nat} (h : Filled a e d)
    (hlink : ∀ label, e.request.link ≠ .forward label) : d = none := by
  cases h with
  | plain | waiting | lost => rfl
  | resolved hforward => exact absurd hforward (hlink _)

theorem Filled.label_ne_none {e : Placed} {d : Option Nat} (h : Filled a e d) {label : Nat}
    (hlink : e.request.link = .forward label) : a.labels[label]? ≠ none := by
  cases h with
  | plain hplain => exact absurd hlink (hplain label)
  | waiting hlink' hl | resolved hlink' hl | lost hlink' hl =>
    rw [hlink] at hlink'
    cases hlink'
    simp [hl]

theorem Spelled.take_startOf (h : Spelled a j) {x : Instruction} {f : Placed → Option Nat}
    (hf : a.code.toList = render a.table f j.listing) {rest : List Placed}
    (htiles : Journal.Tiles (a.startOf x) rest) (hrest : Journal.Leaves a x j rest) :
    a.code.toList.take (a.startOf x) = render a.table f rest := by
  cases hrest with
  | all hstart hj => rw [← hj, hstart, ← Array.length_toList, List.take_length, hf]
  | retract d _ _ hj =>
    have hlength : (render a.table f rest).length = a.startOf x :=
      Journal.length_render htiles fun e he => (h.formed e (by simp [hj, he])).fits
    rw [hf, hj, render]
    exact List.take_left' hlength

/-- A retracted load is no jump, so the jumps that wait are those of the instructions that stay. -/
theorem Spelled.filter_waitsFor (h : Spelled a j) {x : Instruction} {rest : List Placed}
    (hrest : Journal.Leaves a x j rest) (label : Nat) :
    j.listing.filter (·.waitsFor label) = rest.filter (·.waitsFor label) := by
  cases hrest with
  | all _ hj => rw [hj]
  | retract d hload _ hj =>
    have hd := (h.formed d (by simp [hj])).waitsFor_of_load hload label
    rw [hj, List.filter_cons_of_neg (by simp [hd])]

theorem Spelled.emit (h : Spelled a j) {x : Instruction} {e : Placed} (he : e.start = a.startOf x)
    (hformed : e.Formed a.table) (hsound : Journal.Sound b (j.place e)) (hacc : b.Accounted)
    (hcode : b.code.toList = a.code.toList.take (a.startOf x) ++ e.bytes) (hab : Advances a b)
    (hfilled : Filled b e none)
    (hsites : ∀ {label : Nat} {sites : Array JumpSite}, b.labels[label]? = some (.pending sites) →
      ∃ before, a.labels[label]? = some (.pending before) ∧ sites.toList =
        before.toList ++ if e.waitsFor label then [e.site a.table] else []) :
    Spelled b (j.place e) := by
  obtain ⟨rest, hplace, htiles, hrest⟩ := h.listing_place x he
  obtain ⟨f, hf, hfill⟩ := h.code
  -- `e` starts where what stays ends, so giving it no distance changes no other instruction
  have hne : ∀ d ∈ rest, d ≠ e := by
    intro d hd hde
    have hlt := (htiles.start_lt hd).trans_le (htiles.stop_le hd)
    rw [hde, he] at hlt
    exact hlt.false
  refine { hsound with accounted := hacc, formed := ?_, sites := ?_, code := ?_ }
  · intro d hd
    rw [hplace] at hd
    rw [hab.table]
    rcases List.mem_cons.mp hd with rfl | hd
    · exact hformed
    · exact h.formed d (hrest.mem hd)
  · intro label sites hl
    obtain ⟨before, hbefore, hlist⟩ := hsites hl
    have hfilter := h.filter_waitsFor hrest label
    rw [hlist, h.sites hbefore, hplace, hab.table, hfilter]
    by_cases hw : e.waitsFor label
    · simp [hw]
    · simp [hw]
  · refine ⟨fun d => if d = e then none else f d, ?_, ?_⟩
    · have hsame : render a.table (fun d => if d = e then none else f d) rest =
          render a.table f rest := render_congr fun d hd => if_neg (hne d hd)
      rw [hcode, h.take_startOf hf htiles hrest, hplace, hab.table, render, hsame]
      simp [Placed.image]
    · intro d hd
      rw [hplace] at hd
      rcases List.mem_cons.mp hd with rfl | hd
      · simpa using hfilled
      · have hd' := (hfill d (hrest.mem hd)).mono hab
        simpa [hne d hd] using hd'

theorem Spelled.exists_served (h : Spelled a j) {label : Nat} {sites : Array JumpSite}
    {done rest : List JumpSite} (hl : a.labels[label]? = some (.pending sites))
    (hsites : sites.toList = done ++ rest) :
    ∃ served : List Placed, done = served.map (·.site a.table) ∧
      (∀ e ∈ served, e ∈ j.listing ∧ e.request.link = .forward label) ∧
      (rest = [] → ∀ e ∈ j.listing, e.request.link = .forward label → e ∈ served) := by
  -- sites wait in the order they were written, the listing has the last one first
  let waiters := (j.listing.filter (·.waitsFor label)).reverse
  have hwaiters : sites.toList = waiters.map (·.site a.table) := by
    rw [h.sites hl, List.map_reverse]
  refine ⟨waiters.take done.length, ?_, ?_, ?_⟩
  · rw [List.map_take, ← hwaiters, hsites, List.take_left]
  · intro e he
    have he : e ∈ waiters := List.mem_of_mem_take he
    simpa [waiters, Placed.waitsFor] using he
  · intro hnil e he hlink
    have hlength : waiters.length = done.length := by
      have := congrArg List.length (hwaiters.symm.trans hsites)
      simpa [hnil] using this
    have hmem : e ∈ waiters := by simp [waiters, Placed.waitsFor, he, hlink]
    simpa [← hlength] using hmem

/-- An instruction that is not given its distance now has the one it had. It is a jump to the label
only if jumps are lost. -/
theorem Filled.bind {label : Nat} {e : Placed} {d : Option Nat} (h : Filled a e d)
    (hab : Binds a b label) (hlost : e.request.link = .forward label → 0 < b.lost) :
    Filled b e d := by
  cases h with
  | plain hlink => exact .plain hlink
  | @waiting m _ hlink hl =>
    by_cases hm : m = label
    · subst hm
      exact .lost hlink (by rw [hab.getElem?, if_pos rfl]) (hlost hlink)
    · exact .waiting hlink (by rw [hab.getElem?, if_neg hm]; exact hl)
  | resolved hlink hl hstart hreach =>
    exact .resolved hlink (hab.bound hl) hstart (by rw [hab.table]; exact hreach)
  | lost hlink hl hpos => exact .lost hlink (hab.bound hl) (hpos.trans_le hab.lost)

/-- Binding a label resolves jumps from the front of those that wait there. If one is left out, jumps
are lost. -/
theorem Spelled.bind {k : Journal} (h : Spelled a j) {label : Nat} {sites : Array JumpSite}
    {done rest : List JumpSite} (hl : a.labels[label]? = some (.pending sites))
    (hsites : sites.toList = done ++ rest) (hdone : ∀ s ∈ done, s.reaches a.code.size)
    (hab : Binds a b label) (hrest : rest = [] ∨ 0 < b.lost)
    (hcode : b.code = resolved a.code.size done a.code) (hacc : b.Accounted)
    (hsound : Journal.Sound b k) (hk : k.listing = j.listing) : Spelled b k := by
  obtain ⟨f, hf, hfill⟩ := h.code
  obtain ⟨served, hserved, hwaits, hall⟩ := h.exists_served hl hsites
  refine { hsound with accounted := hacc, formed := ?_, sites := ?_, code := ?_ }
  · rw [hk, hab.table]
    exact h.formed
  · intro m sites' hm
    rw [hab.getElem?] at hm
    split at hm
    · cases hm
    · rw [hk, hab.table]
      exact h.sites hm
  · refine ⟨fun e => if e ∈ served then some (a.code.size - e.start) else f e, ?_, ?_⟩
    · have hresolved := resolved_render (f := f) h.tiles (fun e he => (h.formed e he).fits)
        a.code.size fun e he => (hwaits e he).1
      rw [← hserved, ← hf, Array.toArray_toList] at hresolved
      rw [hcode, hk, hab.table, hresolved]
    · intro e he
      rw [hk] at he
      by_cases hs : e ∈ served
      · have hreach := hdone (e.site a.table) (hserved ▸ List.mem_map_of_mem hs)
        have hstart : e.start ≤ a.code.size :=
          (h.tiles.start_lt he).le.trans (h.tiles.stop_le he)
        simp only [hs, ↓reduceIte]
        exact .resolved (hwaits e hs).2 (by rw [hab.getElem?, if_pos rfl]) hstart
          (by rw [hab.table]; exact hreach)
      · simp only [hs, ↓reduceIte]
        refine (hfill e he).bind hab fun hlink => hrest.resolve_left fun hnil => ?_
        exact hs (hall hnil e he hlink)

theorem Spelled.writes {q : Request} {x : Instruction} {bytes : List UInt8} (h : Spelled a j)
    (hw : Writes a c r b q x bytes) (hab : Advances a b) (hacc : b.Accounted)
    (hsound : Journal.Sound b (j.note a b c r)) (hfilled : Filled b ⟨q, a.startOf x, bytes⟩ none)
    (hsites : ∀ {label : Nat} {sites : Array JumpSite}, b.labels[label]? = some (.pending sites) →
      ∃ before, a.labels[label]? = some (.pending before) ∧
        sites.toList = before.toList ++ if q.link = .forward label then
          [(⟨q, a.startOf x, bytes⟩ : Placed).site a.table] else []) :
    Spelled b (j.note a b c r) := by
  rw [hw.note h.consistent] at hsound ⊢
  refine h.emit rfl ⟨x, hw.encodes, hw.encoded⟩ hsound hacc ?_ hab hfilled ?_
  · rw [hw.code, toList_emit]
  · intro label sites hl
    simpa [Placed.waitsFor] using hsites hl

theorem jumpSite_eq_site {i x : Instruction} {w : Width} {ws : List Width}
    (hi : i.setOperand 0 0 = .ok x) (hw : a.table.operandWidths x.opcode x.scale = .ok (w :: ws))
    (label : Nat) (bytes : List UInt8) :
    a.jumpSite x w = (⟨⟨i, .forward label⟩, a.startOf x, bytes⟩ : Placed).site a.table := by
  obtain ⟨hopcode, hscale, -⟩ := Instruction.setOperand_zero hi
  rw [hopcode, hscale] at hw
  simp [jumpSite, Placed.site, Placed.slot, Placed.width, Placed.instruction, hopcode, hscale,
    OpcodeTable.firstWidth_eq hw]

theorem Spelled.filter_waitsFor_size (h : Spelled a j) :
    j.listing.filter (·.waitsFor a.labels.size) = [] := by
  obtain ⟨f, -, hfill⟩ := h.code
  refine List.filter_eq_nil_iff.mpr fun e he hw => ?_
  have hlink : e.request.link = .forward a.labels.size := by simpa [Placed.waitsFor] using hw
  exact (hfill e he).label_ne_none hlink (by simp)

theorem Spelled.note (h : Spelled a j) (he : Effect a c r b) : Spelled b (j.note a b c r) := by
  have hsound := h.toSound.note he
  obtain ⟨hacc, hlost⟩ := he.accounts h.accounted
  have hadv := he.advances h.accounted
  have htable := he.table
  obtain ⟨f, hf, hfill⟩ := h.code
  cases he with
  | refused | behind | rejected => exact h
  | dropped hc hclosed => simpa [Journal.note, hc, hclosed] using h
  | wrote hopen hx =>
    exact h.writes (writes_write hopen hx) (hadv (by simp)) hacc hsound (.plain (by simp))
      fun hl => ⟨_, hl, by simp⟩
  | looped hopen ho _ _ hi hx =>
    exact h.writes (writes_loop hopen ho hi hx) (hadv (by simp)) hacc hsound (.plain (by simp))
      fun hl => ⟨_, hl, by simp⟩
  | @jumped i x label sites bytes w ws hopen ho hl hi hx hwidths =>
    have hsite := jumpSite_eq_site (a := a) hi hwidths label bytes
    have hget := getElem?_await (a := a.emit x bytes) hl (a.jumpSite x w)
    refine h.writes (writes_jump hopen ho hi hx _) (hadv (by simp)) hacc hsound ?_ ?_
    · exact .waiting rfl (by rw [hget, if_pos rfl])
    · intro m after hm
      rw [hget] at hm
      split at hm
      next heq =>
        cases hm
        exact ⟨sites, heq ▸ hl, by simp [heq, hsite]⟩
      next hne => exact ⟨after, hm, by simp [Ne.symm hne]⟩
  | labelled =>
    refine { hsound with
      accounted := hacc, formed := h.formed, sites := ?_
      code := ⟨f, hf, fun e he => (hfill e he).mono (hadv (by simp))⟩ }
    intro m sites hm
    rw [getElem?_addLabel] at hm
    split at hm
    next heq =>
      cases hm
      simp [Journal.note, Call.request?, Call.opensBlock, heq, h.filter_waitsFor_size]
    next => exact h.sites hm
  | began =>
    exact { hsound with
      accounted := hacc, formed := h.formed, sites := h.sites
      code := ⟨f, hf, fun e he => (hfill e he).mono (hadv (by simp))⟩ }
  | @bound label sites hl hs =>
    exact h.bind hl (by simp) hs ⟨htable, hlost, ⟨sites, hl⟩, rfl⟩ (.inl rfl) rfl hacc hsound rfl
  | @stranded label sites done rest s hl hsites hdone hs =>
    exact h.bind hl hsites hdone ⟨htable, hlost, ⟨sites, hl⟩, rfl⟩
      (.inr (lost_settle_pos h.accounted hl hsites)) rfl hacc hsound rfl

theorem spelled_new (t : OpcodeTable) (options : Options) :
    Spelled (Assembler.new t options) [⟨[], []⟩] where
  toSound := Journal.sound_new t options
  accounted := accounted_new t options
  formed := by simp [Journal.listing]
  sites hl := by simp [Assembler.new] at hl
  code := ⟨fun _ => none, rfl, by simp [Journal.listing]⟩

/-- Throughout a run the code stays spelled. -/
theorem Spelled.after (h : Spelled a j) {calls : List Call} (hsmall : a.StaysSmall calls) :
    Spelled (a.after calls) (a.journalFrom j calls) :=
  journal_invariant (P := Spelled) (fun h => h.consistent) (fun h he => h.note he) calls h hsmall

theorem spelled_journal (t : OpcodeTable) (options : Options) {calls : List Call}
    (hsmall : (Assembler.new t options).StaysSmall calls) :
    Spelled ((Assembler.new t options).after calls) ((Assembler.new t options).journal calls) :=
  (spelled_new t options).after hsmall

end BytecodeAssembler.Assembler
