import BytecodeAssembler.Proofs.Assembler.Bounds
import BytecodeAssembler.Proofs.Assembler.Detours
import BytecodeAssembler.Proofs.OpcodeTable

/-! # What binding a label does

The jumps that wait at a label lie in the code one behind the other, so filling in their distances
changes each of their first operands once and no other byte: `resolved_patched`. They are filled in
the order they were written, up to the first one whose operand is too narrow. Then the label is bound
all the same, and the rest of the state is as it was.
-/
namespace BytecodeAssembler

theorem OpcodeTable.operandWidths_ne_none {t : OpcodeTable} {o : Opcode} {s : Scale} {w : Width}
    {ws : List Width} (h : t.operandWidths o s = .ok ws) (hw : w ∈ ws) : w ≠ .none := by
  obtain ⟨d, hd, rfl⟩ := operandWidths_eq_ok_iff.mp h
  obtain ⟨k, hk, rfl⟩ := List.mem_map.mp hw
  exact OperandKind.width_ne_none ((sized_of_lookup hd).2 k hk) s

namespace JumpSite

/-- The byte at `n` belongs to the first operand of the jump. -/
def Covers (s : JumpSite) (n : Nat) : Prop :=
  s.operandOffset ≤ n ∧ n < s.operandOffset + s.width.bytes

/-- The first operand of the jump, as it stands in the code. -/
def operand (s : JumpSite) (code : Array UInt8) : List UInt8 :=
  (code.toList.drop s.operandOffset).take s.width.bytes

theorem operand_congr {s : JumpSite} {before after : Array UInt8}
    (h : ∀ n, s.Covers n → after[n]? = before[n]?) : s.operand after = s.operand before := by
  refine List.ext_getElem? fun k => ?_
  rcases Nat.lt_or_ge k s.width.bytes with hk | hk
  · have hsame := h (s.operandOffset + k) ⟨Nat.le_add_right .., Nat.add_lt_add_left hk _⟩
    simpa [operand, List.getElem?_take_of_lt hk] using hsame
  · have hshort : ∀ code, (s.operand code).length ≤ k := fun code =>
      (List.length_take_le ..).trans hk
    rw [List.getElem?_eq_none (hshort after), List.getElem?_eq_none (hshort before)]

end JumpSite

namespace Assembler

theorem getElem?_overwrite {code : Array UInt8} {offset n : Nat} {bytes : List UInt8}
    (hn : n < offset ∨ offset + bytes.length ≤ n) : (overwrite code offset bytes)[n]? = code[n]? := by
  induction bytes generalizing code offset with
  | nil => rfl
  | cons b bytes ih =>
    rw [List.length_cons] at hn
    have hne : offset ≠ n := by omega
    rw [overwrite, ih (by omega), Array.getElem?_setIfInBounds_ne hne]

theorem take_drop_overwrite {code : Array UInt8} {offset : Nat} {bytes : List UInt8}
    (h : offset + bytes.length ≤ code.size) :
    ((overwrite code offset bytes).toList.drop offset).take bytes.length = bytes := by
  rw [← Array.length_toList] at h
  have hlength : (code.toList.take offset).length = offset := by
    rw [List.length_take]
    omega
  have hmid : bytes.length = ((code.toList.drop offset).take bytes.length).length := by
    rw [List.length_take, List.length_drop]
    omega
  have hcode : code = (code.toList.take offset ++ ((code.toList.drop offset).take bytes.length ++
      (code.toList.drop offset).drop bytes.length)).toArray := by
    rw [List.take_append_drop, List.take_append_drop, Array.toArray_toList]
  have hoverwrite := overwrite_append (code.toList.take offset) _
    ((code.toList.drop offset).drop bytes.length) bytes hmid
  rw [← hcode, hlength] at hoverwrite
  rw [hoverwrite, List.drop_left' hlength]
  exact List.take_left' rfl

theorem operand_overwrite {s : JumpSite} {code : Array UInt8} {bytes : List UInt8}
    (hlength : bytes.length = s.width.bytes) (hin : s.operandOffset + s.width.bytes ≤ code.size) :
    s.operand (overwrite code s.operandOffset bytes) = bytes := by
  rw [← hlength] at hin
  have hwritten := take_drop_overwrite hin
  rwa [hlength] at hwritten

theorem getElem?_overwrite_of_not_covers {s : JumpSite} {code : Array UInt8} {bytes : List UInt8}
    (hlength : bytes.length = s.width.bytes) {n : Nat} (hn : ¬s.Covers n) :
    (overwrite code s.operandOffset bytes)[n]? = code[n]? := by
  apply getElem?_overwrite
  unfold JumpSite.Covers at hn
  omega

/-- The first operand of each jump in `sites` is read as its distance to `target`, and no other byte
has changed. -/
structure Patched (target : Nat) (sites : List JumpSite) (before after : Array UInt8) : Prop where
  size : after.size = before.size
  operand : ∀ s ∈ sites, (s.operand after).length = s.width.bytes ∧
    BigEndian.value (s.operand after) = target - s.start
  elsewhere : ∀ n, (∀ s ∈ sites, ¬s.Covers n) → after[n]? = before[n]?

/-- Jumps that lie in the code one behind the other are filled in independently of each other. -/
theorem resolved_patched (target : Nat) {sites : List JumpSite} {code : Array UInt8}
    (hin : ∀ s ∈ sites, s.operandOffset + s.width.bytes ≤ code.size)
    (hapart : sites.Pairwise fun s r => s.operandOffset + s.width.bytes ≤ r.operandOffset)
    (hreach : ∀ s ∈ sites, s.reaches target) :
    Patched target sites code (resolved target sites code) := by
  induction sites generalizing code with
  | nil => exact ⟨rfl, by simp, fun _ _ => rfl⟩
  | cons s sites ih =>
    let bytes := BigEndian.encode s.width.bytes (target - s.start)
    have hlength : bytes.length = s.width.bytes := BigEndian.length_encode ..
    obtain ⟨hins, hin⟩ := List.forall_mem_cons.mp hin
    obtain ⟨hbehind, hapart⟩ := List.pairwise_cons.mp hapart
    obtain ⟨hreaches, hreach⟩ := List.forall_mem_cons.mp hreach
    have hrest : Patched target sites (overwrite code s.operandOffset bytes) _ :=
      ih (fun r hr => (hin r hr).trans_eq (size_overwrite ..).symm) hapart hreach
    -- the later jumps lie behind this one, so its distance stays
    have hkept : s.operand (resolved target (s :: sites) code) = bytes := by
      refine (JumpSite.operand_congr fun n hn => ?_).trans (operand_overwrite hlength hins)
      exact hrest.elsewhere n fun r hr hcovers =>
        (hn.2.trans_le (hbehind r hr)).not_ge hcovers.1
    refine ⟨hrest.size.trans (size_overwrite ..), List.forall_mem_cons.mpr ⟨?_, hrest.operand⟩,
      fun n hn => ?_⟩
    · rw [hkept]
      exact ⟨hlength, Width.value_encode hreaches⟩
    · obtain ⟨hs, hn⟩ := List.forall_mem_cons.mp hn
      rw [resolved, hrest.elsewhere n hn, getElem?_overwrite_of_not_covers hlength hs]

variable {a b : Assembler} {j : Journal} {label : Nat} {sites : Array JumpSite}

/-- Jumps that wait for the same label lie in the code in the order in which they wait. -/
theorem Spelled.pairwise_sites (h : Spelled a j)
    (hl : a.labels[label]? = some (.pending sites)) : sites.toList.Pairwise fun s r =>
      s.operandOffset + s.width.bytes ≤ r.operandOffset := by
  rw [h.sites hl, List.pairwise_reverse, List.pairwise_map]
  refine (h.tiles.pairwise_stop_le.filter _).imp_of_mem fun {d e} _ he hle => ?_
  have hfits : e.slot + (e.width a.table).bytes ≤ e.bytes.length :=
    (h.formed e (List.mem_of_mem_filter he)).fits
  have hle : e.start + e.bytes.length ≤ d.start := hle
  show e.start + e.slot + (e.width a.table).bytes ≤ d.start + d.slot
  omega

/-- The first operand of a jump takes some bytes. -/
theorem Placed.Formed.width_ne_none {t : OpcodeTable} {e : Placed} (h : e.Formed t)
    (hlink : e.request.link ≠ .free) : e.width t ≠ .none := by
  obtain ⟨x, hx, hb⟩ := h
  obtain ⟨v, vs, hv⟩ := hx.exists_cons hlink
  obtain ⟨w, ws, _, hw, -⟩ := Instruction.encode_first hv hb
  rw [Placed.width_eq hx hw]
  exact OpcodeTable.operandWidths_ne_none hw List.mem_cons_self

theorem Spelled.reaches_iff (h : Spelled a j) (hl : a.labels[label]? = some (.pending sites))
    {s : JumpSite} (hs : s ∈ sites) (target : Nat) :
    s.reaches target ↔ target - s.start < BigEndian.capacity s.width.bytes := by
  obtain ⟨e, he, hlink, rfl⟩ := (h.mem_sites_iff hl).mp hs
  exact Width.holdsDistance_iff ((h.formed e he).width_ne_none (by simp [hlink]))

/-- The label is bound to the end of the code and the jumps in `done` are given their distances. The
other labels, the positions, the table and the options are as they were. -/
structure Settles (a b : Assembler) (label : Nat) (done : List JumpSite) : Prop where
  patched : Patched a.offset done a.code b.code
  bound : b.labels[label]? = some (.bound a.offset)
  others : ∀ m, m ≠ label → b.labels[m]? = a.labels[m]?
  log : b.log = a.log
  table : b.table = a.table
  options : b.options = a.options

theorem Spelled.settles (h : Spelled a j) (hl : a.labels[label]? = some (.pending sites))
    {done rest : List JumpSite} (hsites : sites.toList = done ++ rest)
    (hdone : ∀ s ∈ done, s.reaches a.offset) : Settles a (a.settle label done) label done := by
  obtain ⟨-, hwithin⟩ := h.sites_within hl
  have hapart := h.pairwise_sites hl
  obtain ⟨hlt, -⟩ := Array.getElem?_eq_some_iff.mp hl
  have hin : ∀ s ∈ done, s.operandOffset + s.width.bytes ≤ a.code.size := fun s hs =>
    (hwithin s (Array.mem_toList_iff.mp (by simp [hsites, hs]))).2
  rw [hsites] at hapart
  refine ⟨resolved_patched _ hin (List.pairwise_append.mp hapart).1 hdone, ?_, ?_, rfl, rfl, rfl⟩
  · simp [settle, offset, hlt]
  · intro m hm
    simp [settle, Array.getElem?_setIfInBounds_ne hm.symm]

/-- In every state that calls can lead to with less than 2^32 bytes of code, a label that is not bound
has waiting for it the jumps to it that are in the code, in the order they were written. Binding it
succeeds exactly if the distance of each fits its first operand. Then each has its distance there, no
other byte changes, none of them is counted as unbound any more, and a new block is open. Otherwise
the first one that does not fit is reported with its distance and scale: those in front of it have
their distances, no other byte changes, the label is bound, and nothing else is different. -/
theorem bind_verdict (t : OpcodeTable) (options : Options) (calls : List Call)
    (hsize : ((Assembler.new t options).after calls).code.size < UInt32.size) {label : Nat}
    {sites : Array JumpSite}
    (hl : ((Assembler.new t options).after calls).labels[label]? = some (.pending sites)) :
    let s := Assembler.new t options
    let a := s.after calls
    let answer := (a.step (.bind label)).1
    let b := (a.step (.bind label)).2
    let fits := fun x : JumpSite => a.offset - x.start < BigEndian.capacity x.width.bytes
    sites.toList =
      (((s.journal calls).listing.filter (·.waitsFor label)).map (·.site t)).reverse ∧
    (∀ x ∈ sites.toList, x.start ≤ a.offset) ∧
    (answer = .ok .done ↔ ∀ x ∈ sites.toList, fits x) ∧
    (answer = .ok .done → Settles a b label sites.toList ∧
      a.unboundJumps = b.unboundJumps + sites.size ∧ b.blockClosed = false ∧ b.last = none) ∧
    (answer ≠ .ok .done → ∃ done x rest, sites.toList = done ++ x :: rest ∧ (∀ y ∈ done, fits y) ∧
      ¬fits x ∧ answer = .error (.jumpOutOfRange (a.offset - x.start) x.scale) ∧
      Settles a b label done ∧ b.unboundJumps = a.unboundJumps ∧ b.blockClosed = a.blockClosed ∧
      b.last = a.last) := by
  intro s a answer b fits
  have hspelled : Spelled a (s.journal calls) := spelled_of_size_lt t options hsize
  have htable : a.table = t := ((consistentInRange_new t options).after calls).table
  obtain ⟨hcounted, hwithin⟩ := hspelled.sites_within hl
  have hfits : ∀ x ∈ sites.toList, (x.reaches a.offset ↔ fits x) := fun x hx =>
    hspelled.reaches_iff hl (Array.mem_toList_iff.mp hx) a.offset
  refine ⟨htable ▸ hspelled.sites hl, fun x hx => (hwithin x (Array.mem_toList_iff.mp hx)).1, ?_⟩
  have he : Effect a (.bind label) answer b := effect_bind a label
  have hsame : ∀ {sites'}, a.labels[label]? = some (.pending sites') → sites' = sites := by
    intro sites' hl'
    simpa using hl'.symm.trans hl
  clear_value answer b
  cases he with
  | refused hc | dropped hc => cases hc
  | rejected hnone => exact absurd hl (hnone sites)
  | @bound _ sites' hl' hs =>
    obtain rfl := hsame hl'
    have hall : ∀ x ∈ sites'.toList, fits x := fun x hx => (hfits x hx).mp (hs x hx)
    have hsettles := hspelled.settles hl (List.append_nil _).symm hs
    refine ⟨iff_of_true rfl hall, fun _ => ⟨?_, (Nat.sub_add_cancel hcounted).symm, rfl, rfl⟩,
      fun herror => absurd rfl herror⟩
    exact { hsettles with }
  | @stranded _ sites' done rest x hl' hsites hdone hx =>
    obtain rfl := hsame hl'
    have hmem : x ∈ sites'.toList := by simp [hsites]
    have hlost : ¬fits x := by
      rw [← hfits x hmem]
      exact Bool.eq_false_iff.mp hx
    have hfit : ∀ y ∈ done, fits y := fun y hy =>
      (hfits y (by simp [hsites, hy])).mp (hdone y hy)
    exact ⟨iff_of_false (by simp) fun hall => hlost (hall x hmem), by simp, fun _ =>
      ⟨done, x, rest, hsites, hfit, hlost, rfl, hspelled.settles hl hsites hdone, rfl, rfl, rfl⟩⟩

/-- Three jumps to one label, of which only the second one is too narrow for what is written then. -/
def narrowSecond : List Call :=
  [.newLabel, .jump (.bare .jumpIfTrue .double [0]) 0, .jump (.bare .jumpIfFalse .single [0]) 0,
   .jump (.bare .jumpIfTrue .quad [0]) 0] ++
    List.replicate 15 (.write (.bare .callProperty .quad [0, 0, 0, 0]))

theorem bind_verdict_narrowSecond :
    let a := (Assembler.new .standard default).after narrowSecond
    let first : JumpSite := ⟨0, 2, .short, .double⟩
    let sites := #[first, ⟨4, 5, .byte, .single⟩, ⟨6, 8, .quad, .quad⟩]
    let b := (a.step (.bind 0)).2
    a.code.size < UInt32.size ∧ a.labels[0]? = some (.pending sites) ∧
      (a.step (.bind 0)).1 = .error (.jumpOutOfRange 278 .single) ∧
      Settles a b 0 [first] ∧ BigEndian.value (first.operand b.code) = 282 := by
  intro a first sites b
  have hsize : a.code.size < UInt32.size := by decide +kernel
  have hl : a.labels[0]? = some (.pending sites) := by decide +kernel
  have hoffset : ((Assembler.new .standard default).after narrowSecond).offset = 282 := by
    decide +kernel
  have hanswer : (a.step (.bind 0)).1 = .error (.jumpOutOfRange 278 .single) := by decide +kernel
  have herror : (a.step (.bind 0)).1 ≠ .ok .done := fun hok => by cases hanswer.symm.trans hok
  obtain ⟨-, -, -, -, hfail⟩ := bind_verdict .standard default narrowSecond hsize hl
  obtain ⟨done, x, rest, hsites, hfit, hlost, -, hsettles, -⟩ := hfail herror
  simp only [hoffset] at hfit hlost
  -- the first jump fits and the second one does not, so the first one is all of `done`
  have hdone : done = [first] := by
    rcases done with _ | ⟨y, _ | ⟨z, tail⟩⟩
    · obtain ⟨rfl, -⟩ := List.cons.inj hsites
      exact absurd (by decide) hlost
    · obtain ⟨rfl, -⟩ := List.cons.inj hsites
      rfl
    · obtain ⟨-, htail⟩ := List.cons.inj hsites
      obtain ⟨rfl, -⟩ := List.cons.inj htail
      exact absurd (hfit _ (List.mem_cons_of_mem _ List.mem_cons_self)) (by decide)
  rw [hdone] at hsettles
  refine ⟨hsize, hl, hanswer, hsettles, ?_⟩
  rw [(hsettles.patched.operand first List.mem_cons_self).2, hoffset]
  exact Nat.sub_zero 282

end Assembler
end BytecodeAssembler
