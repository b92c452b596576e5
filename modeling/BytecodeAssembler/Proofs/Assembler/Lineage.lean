import BytecodeAssembler.Proofs.Assembler.Elision

/-! # What becomes of the instructions of a block

An instruction that was accepted is left in the code, unless it is a pure load and the next one of
its block overwrites the accumulator unread. If both carry a position, the load stays; if one does,
the next one carries it from then on. `OpcodeTable.lineages` states this rule on the accepted
instructions alone, and `Traced` says that the assembler keeps to it.
-/
namespace BytecodeAssembler.Assembler

/-- An instruction that is left, and the loads it took the place of, the first one first. -/
structure Lineage where
  instruction : Instruction
  replaced : List Instruction
  deriving DecidableEq

namespace Lineage

def members (l : Lineage) : List Instruction := l.replaced ++ [l.instruction]

/-- It was written with a position or has taken one over. -/
def hasPosition (l : Lineage) : Bool := l.members.any (·.source.isPresent)

/-- The instruction is a load that goes when `next` is written behind it. -/
def yields (t : OpcodeTable) (elide : Bool) (l : Lineage) (next : Instruction) : Bool :=
  elide && (l.instruction.opcode.isPureLoad && t.overwrites next.opcode &&
    !(l.hasPosition && next.source.isPresent))

/-- What is left of `l` and the instructions behind it. -/
def follow (t : OpcodeTable) (elide : Bool) (l : Lineage) : List Instruction → List Lineage
  | [] => [l]
  | next :: rest =>
    if l.yields t elide next then follow t elide ⟨next, l.members⟩ rest
    else l :: follow t elide ⟨next, []⟩ rest

/-- What one more instruction makes of those that are left, the last one first. -/
def extend (t : OpcodeTable) (elide : Bool) (next : Instruction) : List Lineage → List Lineage
  | [] => [⟨next, []⟩]
  | l :: ls => if l.yields t elide next then ⟨next, l.members⟩ :: ls else ⟨next, []⟩ :: l :: ls

variable {t : OpcodeTable} {elide : Bool}

theorem extend_append (next : Instruction) {ls ms : List Lineage} (h : ls ≠ []) :
    extend t elide next (ls ++ ms) = extend t elide next ls ++ ms := by
  cases ls with
  | nil => exact absurd rfl h
  | cons l ls =>
    simp only [List.cons_append, extend]
    split <;> rfl

theorem follow_ne_nil (l : Lineage) (is : List Instruction) : follow t elide l is ≠ [] := by
  induction is generalizing l with
  | nil => simp [follow]
  | cons i is ih =>
    rw [follow]
    split
    · exact ih _
    · simp

theorem reverse_follow_concat (l : Lineage) (is : List Instruction) (next : Instruction) :
    (follow t elide l (is ++ [next])).reverse =
      extend t elide next (follow t elide l is).reverse := by
  induction is generalizing l with
  | nil =>
    by_cases h : l.yields t elide next
    · simp [follow, extend, h]
    · simp [follow, extend, h]
  | cons i is ih =>
    by_cases h : l.yields t elide i
    · simp only [List.cons_append, follow, h, if_true, ih]
    · have hne : (follow t elide ⟨i, []⟩ is).reverse ≠ [] :=
        fun hnil => follow_ne_nil _ is (List.reverse_eq_nil_iff.mp hnil)
      simp only [List.cons_append, follow, h, Bool.false_eq_true, ↓reduceIte, List.reverse_cons, ih,
        extend_append next hne]

theorem flatMap_members_follow (l : Lineage) (is : List Instruction) :
    (follow t elide l is).flatMap members = l.members ++ is := by
  induction is generalizing l with
  | nil => simp [follow]
  | cons i is ih =>
    by_cases h : l.yields t elide i
    · simp [follow, h, ih, members]
    · simp [follow, h, ih, members]

end Lineage
end BytecodeAssembler.Assembler

namespace BytecodeAssembler.OpcodeTable
open Assembler

/-- What is left of the instructions accepted for a block, with what each took the place of. -/
def lineages (t : OpcodeTable) (elide : Bool) : List Instruction → List Lineage
  | [] => []
  | i :: is => Lineage.follow t elide ⟨i, []⟩ is

theorem reverse_lineages_concat (t : OpcodeTable) (elide : Bool) (is : List Instruction)
    (next : Instruction) : (t.lineages elide (is ++ [next])).reverse =
      Lineage.extend t elide next (t.lineages elide is).reverse := by
  cases is with
  | nil => rfl
  | cons i is => exact Lineage.reverse_follow_concat _ is next

/-- No instruction is forgotten: each is left or is one that was replaced. -/
theorem flatMap_members_lineages (t : OpcodeTable) (elide : Bool) (is : List Instruction) :
    (t.lineages elide is).flatMap Lineage.members = is := by
  cases is with
  | nil => rfl
  | cons i is => exact Lineage.flatMap_members_follow _ is

end BytecodeAssembler.OpcodeTable

namespace BytecodeAssembler.Assembler

/-- The instructions of a block that are left by the rule, the last one first. -/
def Block.lineages (t : OpcodeTable) (elide : Bool) (b : Block) : List Lineage :=
  (t.lineages elide b.written).reverse

theorem Block.lineages_cons {t : OpcodeTable} {elide : Bool} (i : Instruction)
    (accepted : List Instruction) (kept kept' : List Placed) :
    (⟨i :: accepted, kept⟩ : Block).lineages t elide =
      Lineage.extend t elide i ((⟨accepted, kept'⟩ : Block).lineages t elide) := by
  have hwritten : (⟨i :: accepted, kept⟩ : Block).written = accepted.reverse ++ [i] := by
    simp [Block.written]
  rw [Block.lineages, hwritten, OpcodeTable.reverse_lineages_concat]
  rfl

theorem Request.Encodes.source {q : Request} {x : Instruction} (h : q.Encodes x) :
    x.source = q.instruction.source := by
  cases h with
  | free => rfl
  | forward _ _ hx | back _ _ _ hx => exact (Instruction.setOperand_zero hx).2.2.1

/-- The instructions in the code are those that the rule leaves, and the state knows of the last one
what the rule says of it. -/
structure Traced (a : Assembler) (j : Journal) : Prop extends Journal.Sound a j where
  left : ∀ b ∈ j, b.kept.map (·.instruction) =
    (b.lineages a.table a.options.elideDeadLoads).map (·.instruction)
  front : a.options.elideDeadLoads = true → ∀ b bs, j = b :: bs →
    a.last.map (fun l => (l.opcode, l.hasPosition)) =
      (b.lineages a.table true).head?.map fun l => (l.instruction.opcode, l.hasPosition)

variable {a b : Assembler} {c : Call} {r : Except AssemblyError Reply} {j : Journal}

/-- The state retracts the load that goes by the rule, and no other. -/
theorem Traced.dead?_eq {k : Block} {bs : Journal} (h : Traced a (k :: bs)) {i x : Instruction}
    (ho : x.opcode = i.opcode) (hs : x.source = i.source) :
    (a.dead? x).map (fun l => (l.opcode, l.hasPosition)) =
      ((k.lineages a.table a.options.elideDeadLoads).head?.filter
        (·.yields a.table a.options.elideDeadLoads i)).map
          fun l => (l.instruction.opcode, l.hasPosition) := by
  by_cases hon : a.options.elideDeadLoads
  · have hfront := h.front hon k bs rfl
    rw [hon]
    cases hlast : a.last with
    | none =>
      rw [hlast] at hfront
      have hnil : (k.lineages a.table true).head? = none := by
        simpa using hfront.symm
      simp [dead?, hlast, hnil]
    | some l =>
      rw [hlast] at hfront
      obtain ⟨m, hm, hsame⟩ := Option.map_eq_some_iff.mp hfront.symm
      obtain ⟨hopcode, hposition⟩ := Prod.mk.inj hsame
      simp only [dead?, hon, if_true, hlast, hm, Option.filter_some, Lineage.yields, hopcode,
        hposition, ho, hs, Bool.true_and]
      split
      · simp [hopcode, hposition]
      · rfl
  · simp [dead?, hon, Lineage.yields]

/-- How the open block changes when `e` is written: it comes behind what is left, or it takes the
place of the last load. -/
inductive Grows (a : Assembler) (x : Instruction) (e : Placed) :
    List Lineage → List Placed → List Lineage → List Placed → Prop
  | behind (hdead : a.dead? x = none) (ls : List Lineage) (es : List Placed) :
    Grows a x e ls es (⟨e.instruction, []⟩ :: ls) (e :: es)
  | inPlace {l : Lineage} {d : Placed} (hstart : d.start = e.start)
    (hdead : (a.dead? x).any (·.hasPosition) = l.hasPosition) (ls : List Lineage)
    (es : List Placed) :
    Grows a x e (l :: ls) (d :: es) (⟨e.instruction, l.members⟩ :: ls) (e :: es)

theorem Traced.grows (h : Traced a j) {x : Instruction} {e : Placed} (hx : e.request.Encodes x)
    (he : e.start = a.startOf x) :
    ∃ accepted kept kept' bs, j = ⟨accepted, kept⟩ :: bs ∧
      j.place e = ⟨e.instruction :: accepted, kept'⟩ :: bs ∧
      Grows a x e ((⟨accepted, kept⟩ : Block).lineages a.table a.options.elideDeadLoads) kept
        ((⟨e.instruction :: accepted, kept'⟩ : Block).lineages a.table a.options.elideDeadLoads)
        kept' := by
  obtain ⟨accepted, kept, bs, hplace, -, ⟨hdead, rfl⟩ | ⟨l, d, hdead, hd, -, rfl⟩⟩ := h.place x he
  · refine ⟨accepted, kept, e :: kept, bs, rfl, hplace, ?_⟩
    have hrule := h.dead?_eq (i := e.instruction) hx.same.1 hx.source
    rw [Block.lineages_cons e.instruction accepted (e :: kept) kept]
    rw [hdead] at hrule
    cases hls : (⟨accepted, kept⟩ : Block).lineages a.table a.options.elideDeadLoads with
    | nil => exact .behind hdead [] kept
    | cons m ls =>
      have hstays : ¬ m.yields a.table a.options.elideDeadLoads e.instruction := by
        simpa [hls, Option.filter_some] using hrule
      rw [Lineage.extend, if_neg hstays]
      exact .behind hdead (m :: ls) kept
  · refine ⟨accepted, d :: kept, e :: kept, bs, rfl, hplace, ?_⟩
    have hrule := h.dead?_eq (i := e.instruction) hx.same.1 hx.source
    rw [Block.lineages_cons e.instruction accepted (e :: kept) (d :: kept)]
    rw [hdead] at hrule
    obtain ⟨m, hm, hsame⟩ := Option.map_eq_some_iff.mp hrule.symm
    obtain ⟨hhead, hyields⟩ := Option.filter_eq_some_iff.mp hm
    obtain ⟨ls, hls⟩ := List.head?_eq_some_iff.mp hhead
    rw [hls, Lineage.extend, if_pos hyields]
    have hstart : d.start = e.start := by
      rw [hd, he]
      simp [startOf, hdead]
    refine .inPlace hstart ?_ ls kept
    simpa [hdead] using (Prod.mk.inj hsame).2.symm

namespace Grows
variable {x : Instruction} {e : Placed} {ls ls' : List Lineage} {es es' : List Placed}

theorem map_instruction (h : Grows a x e ls es ls' es')
    (hsame : es.map (·.instruction) = ls.map (·.instruction)) :
    es'.map (·.instruction) = ls'.map (·.instruction) := by
  cases h with
  | behind => simpa using hsame
  | inPlace => simpa using (List.cons.inj hsame).2

theorem exists_cons (h : Grows a x e ls es ls' es') :
    ∃ l rest, ls' = l :: rest ∧ l.instruction = e.instruction ∧
      l.hasPosition = (e.instruction.source.isPresent || (a.dead? x).any (·.hasPosition)) := by
  cases h with
  | behind hdead => exact ⟨_, _, rfl, rfl, by simp [Lineage.hasPosition, Lineage.members, hdead]⟩
  | @inPlace l _ _ hdead =>
    refine ⟨_, _, rfl, rfl, ?_⟩
    rw [hdead, Bool.or_comm]
    simp [Lineage.hasPosition, Lineage.members, Bool.or_assoc]

end Grows

theorem Traced.writes {q : Request} {x : Instruction} {bytes : List UInt8} (h : Traced a j)
    (hw : Writes a c r b q x bytes) (hsound : Journal.Sound b (j.note a b c r))
    (hoptions : b.options = a.options) : Traced b (j.note a b c r) := by
  obtain ⟨accepted, kept, kept', bs, rfl, hplace, hgrows⟩ :=
    h.grows (e := ⟨q, a.startOf x, bytes⟩) hw.encodes rfl
  have hleft := h.left _ List.mem_cons_self
  refine { hsound with left := ?_, front := ?_ }
  · rw [hw.note h.consistent, hplace, hw.table, hoptions]
    intro k hk
    rcases List.mem_cons.mp hk with rfl | hk
    · exact hgrows.map_instruction hleft
    · exact h.left k (List.mem_cons_of_mem _ hk)
  · rw [hw.note h.consistent, hplace, hw.table, hoptions, hw.last]
    intro hon k bs' hk
    obtain ⟨rfl, -⟩ := List.cons.inj hk
    obtain ⟨l, rest, hl, hinstruction, hposition⟩ := hgrows.exists_cons
    rw [hon] at hl
    rw [hl]
    simp [emit, hon, hinstruction, hposition, hw.encodes.source, hw.encodes.same.1,
      Placed.instruction]

theorem Traced.note (h : Traced a j) (he : Effect a c r b) : Traced b (j.note a b c r) := by
  have hsound := h.toSound.note he
  rcases he.writes_or_rests j with ⟨q, x, bytes, hw⟩ |
    ⟨-, ⟨hnote, hlast⟩ | ⟨hnote, hlast⟩⟩
  · exact h.writes hw hsound he.options
  · rw [hnote] at hsound ⊢
    refine { hsound with left := ?_, front := ?_ }
    · rw [he.table, he.options]
      exact h.left
    · rw [he.table, he.options, hlast]
      exact h.front
  · rw [hnote] at hsound ⊢
    refine { hsound with left := ?_, front := ?_ }
    · rw [he.table, he.options]
      intro k hk
      rcases List.mem_cons.mp hk with rfl | hk
      · rfl
      · exact h.left k hk
    · rw [hlast]
      intro _ k bs hk
      obtain ⟨rfl, -⟩ := List.cons.inj hk
      rfl

theorem traced_new (t : OpcodeTable) (options : Options) :
    Traced (Assembler.new t options) [⟨[], []⟩] where
  toSound := Journal.sound_new t options
  left k hk := by
    obtain rfl := List.mem_singleton.mp hk
    rfl
  front _ k bs hk := by
    obtain ⟨rfl, -⟩ := List.cons.inj hk
    rfl

/-- After any run, what is left of every block is what the rule leaves. -/
theorem remaining_eq_lineages (t : OpcodeTable) (options : Options) {calls : List Call}
    (hsmall : (Assembler.new t options).StaysSmall calls) {k : Block}
    (hk : k ∈ (Assembler.new t options).journal calls) :
    k.remaining = (t.lineages options.elideDeadLoads k.written).map (·.instruction) := by
  obtain ⟨htable, hoptions, htraced⟩ := journal_invariant
    (P := fun a j => a.table = t ∧ a.options = options ∧ Traced a j) (fun h => h.2.2.consistent)
    (fun h he => ⟨he.table.trans h.1, he.options.trans h.2.1, h.2.2.note he⟩) calls
    ⟨rfl, rfl, traced_new t options⟩ hsmall
  have hleft := htraced.left k hk
  rw [htable, hoptions] at hleft
  rw [Block.remaining, hleft, Block.lineages, List.map_reverse, List.reverse_reverse]

end BytecodeAssembler.Assembler
