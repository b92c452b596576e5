import BytecodeAssembler.OpcodeTable.Standard
import BytecodeAssembler.Proofs.Assembler.Spelling

/-! # Retracting dead loads preserves meaning

An instruction of a block goes only when the next one overwrites the accumulator that it set. So
running the instructions of a block that are left has the result of running all that were accepted,
whatever they mean, as long as a pure load sets nothing but the accumulator and the table is right
about which instructions do not read it.
-/
namespace BytecodeAssembler

/-- What instructions do to a machine with an accumulator in `α` and the rest of its state in `ρ`. -/
structure Interpretation (t : OpcodeTable) (α ρ : Type*) where
  apply : Instruction → α × ρ → α × ρ
  load : ∀ i, i.opcode.isPureLoad → ∀ s, (apply i s).2 = s.2
  overwrite : ∀ i, t.accumulatorUse i.opcode = .ok .write → ∀ x y r, apply i (x, r) = apply i (y, r)

/-- The state after running the instructions, first to last. -/
def Interpretation.run {t : OpcodeTable} {α ρ : Type*} (m : Interpretation t α ρ)
    (is : List Instruction) (s : α × ρ) : α × ρ := is.foldl (fun s i => m.apply i s) s

namespace Assembler

namespace Block

/-- The instructions accepted while the block was open, the first one first. -/
def written (b : Block) : List Instruction := b.accepted.reverse

/-- Those of them that are still in the code. -/
def remaining (b : Block) : List Instruction := (b.kept.map (·.instruction)).reverse

end Block

/-- `kept` is what is left of `accepted` when dead loads are retracted one at a time, each by the
instruction behind it. Both lists stand latest first. -/
inductive Reduces (t : OpcodeTable) : List Instruction → List Instruction → Prop
  | nil : Reduces t [] []
  | keep (i : Instruction) {accepted kept : List Instruction} (h : Reduces t accepted kept) :
    Reduces t (i :: accepted) (i :: kept)
  | retract {i : Instruction} (load : Instruction) {accepted kept : List Instruction}
    (hload : load.opcode.isPureLoad) (hi : t.accumulatorUse i.opcode = .ok .write)
    (h : Reduces t accepted (load :: kept)) : Reduces t (i :: accepted) (i :: kept)

namespace Reduces
variable {t : OpcodeTable} {accepted kept : List Instruction}

theorem sublist (h : Reduces t accepted kept) : kept.Sublist accepted := by
  induction h with
  | nil => exact .slnil
  | keep i _ ih => exact ih.cons_cons i
  | retract _ _ _ _ ih => exact ((List.sublist_cons_self ..).trans ih).cons_cons _

theorem head?_eq (h : Reduces t accepted kept) : kept.head? = accepted.head? := by
  cases h <;> rfl

theorem apply_retract {α ρ : Type*} (m : Interpretation t α ρ) {i load : Instruction}
    (hload : load.opcode.isPureLoad) (hi : t.accumulatorUse i.opcode = .ok .write) (s : α × ρ) :
    m.apply i (m.apply load s) = m.apply i s := by
  have hrest : m.apply load s = ((m.apply load s).1, s.2) := by rw [← m.load load hload s]
  rw [hrest]
  exact m.overwrite i hi _ _ _

theorem run_eq {α ρ : Type*} (h : Reduces t accepted kept) (m : Interpretation t α ρ) (s : α × ρ) :
    m.run kept.reverse s = m.run accepted.reverse s := by
  simp only [Interpretation.run, List.foldl_reverse]
  induction h with
  | nil => rfl
  | keep i _ ih => rw [List.foldr_cons, List.foldr_cons, ih]
  | retract load hload hi _ ih =>
    rw [List.foldr_cons, List.foldr_cons, ← ih, List.foldr_cons, apply_retract m hload hi]

end Reduces

/-- What is left of every block comes from retracting dead loads. -/
structure Retracted (a : Assembler) (j : Journal) : Prop extends Journal.Sound a j where
  reduces : ∀ b ∈ j, Reduces a.table b.accepted (b.kept.map (·.instruction))

variable {a b : Assembler} {c : Call} {r : Except AssemblyError Reply} {j : Journal}

theorem Retracted.writes {q : Request} {x : Instruction} {bytes : List UInt8} (h : Retracted a j)
    (hw : Writes a c r b q x bytes) :
    ∀ k ∈ j.note a b c r, Reduces a.table k.accepted (k.kept.map (·.instruction)) := by
  obtain ⟨accepted, kept, bs, hplace, -, ⟨-, rfl⟩ | ⟨l, d, hdead, -, hopcode, rfl⟩⟩ :=
    h.toSound.place x (e := ⟨q, a.startOf x, bytes⟩) rfl
  · rw [hw.note h.consistent, hplace]
    intro b hb
    rcases List.mem_cons.mp hb with rfl | hb
    · exact .keep q.instruction (h.reduces _ List.mem_cons_self)
    · exact h.reduces b (List.mem_cons_of_mem _ hb)
  · obtain ⟨-, -, hload, hover, -⟩ := dead?_eq_some hdead
    rw [hw.note h.consistent, hplace]
    intro b hb
    rcases List.mem_cons.mp hb with rfl | hb
    · refine .retract d.instruction ?_ ?_ (h.reduces _ List.mem_cons_self)
      · rw [hopcode]
        exact hload
      · rw [Placed.instruction, ← hw.encodes.same.1]
        exact OpcodeTable.overwrites_iff.mp hover
    · exact h.reduces b (List.mem_cons_of_mem _ hb)

theorem Retracted.note (h : Retracted a j) (he : Effect a c r b) :
    Retracted b (j.note a b c r) := by
  refine ⟨h.toSound.note he, ?_⟩
  rw [he.table]
  rcases he.writes_or_rests j with ⟨q, x, bytes, hw⟩ | ⟨-, ⟨hnote, -⟩ | ⟨hnote, -⟩⟩
  · exact h.writes hw
  · rw [hnote]
    exact h.reduces
  · rw [hnote]
    intro b hb
    rcases List.mem_cons.mp hb with rfl | hb
    · exact .nil
    · exact h.reduces b hb

theorem retracted_new (t : OpcodeTable) (options : Options) :
    Retracted (Assembler.new t options) [⟨[], []⟩] where
  toSound := Journal.sound_new t options
  reduces b hb := by
    obtain rfl := List.mem_singleton.mp hb
    exact .nil

/-- After any run, the code consists of the instructions that remain of its blocks, of which only
forward jumps have been given distances, and running those of a block does what running all that were
accepted for it does, however instructions are interpreted. The last one accepted always remains. -/
theorem elision_preserves_meaning (t : OpcodeTable) (options : Options) (calls : List Call)
    (hsmall : (Assembler.new t options).StaysSmall calls) :
    let a := (Assembler.new t options).after calls
    let j := (Assembler.new t options).journal calls
    Journal.Tiles a.code.size j.listing ∧
    (∀ e ∈ j.listing, e.Formed t) ∧
    (∃ distance, a.code.toList = render t distance j.listing ∧
      ∀ e ∈ j.listing, (∀ label, e.request.link ≠ .forward label) → distance e = none) ∧
    ∀ b ∈ j,
      (∀ {α ρ : Type*} (m : Interpretation t α ρ) (s : α × ρ),
        m.run b.remaining s = m.run b.written s) ∧
      b.remaining.Sublist b.written ∧
      b.remaining.getLast? = b.written.getLast? := by
  intro a j
  have hspelled : Spelled a j := spelled_journal t options hsmall
  have hretracted : a.table = t ∧ Retracted a j :=
    journal_invariant (P := fun a j => a.table = t ∧ Retracted a j) (fun h => h.2.consistent)
      (fun h he => ⟨he.table.trans h.1, h.2.note he⟩) calls ⟨rfl, retracted_new t options⟩ hsmall
  obtain ⟨htable, hretracted⟩ := hretracted
  obtain ⟨distance, hcode, hfilled⟩ := hspelled.code
  rw [htable] at hcode
  refine ⟨hspelled.tiles, htable ▸ hspelled.formed,
    ⟨distance, hcode, fun e he => (hfilled e he).eq_none⟩, fun b hb => ?_⟩
  have hreduces := htable ▸ hretracted.reduces b hb
  refine ⟨fun m s => hreduces.run_eq m s, ?_, ?_⟩
  · exact List.reverse_sublist.mpr hreduces.sublist
  · simpa [Block.remaining, Block.written, List.getLast?_reverse] using hreduces.head?_eq

/-- Two loads in a row, and an instruction that reads the second one. -/
def twoLoads : List Call :=
  [.write ((Instruction.bare .ldaZero .single []).withSource (.expression 3)),
   .write (.bare .ldaUndefined .single []), .write (.bare .ret .single [])]

theorem elision_preserves_meaning_twoLoads :
    (Assembler.new .standard ⟨true, .record⟩).StaysSmall twoLoads ∧
    ((Assembler.new .standard ⟨true, .record⟩).journal twoLoads).map
        (fun b => (b.written.map (·.opcode), b.remaining.map (·.opcode))) =
      [([.ldaZero, .ldaUndefined, .ret], [.ldaUndefined, .ret])] ∧
    ∀ b ∈ (Assembler.new .standard ⟨true, .record⟩).journal twoLoads,
      ∀ (m : Interpretation .standard (Option Int) Unit) (s : Option Int × Unit),
        m.run b.remaining s = m.run b.written s := by
  have hsmall : (Assembler.new .standard ⟨true, .record⟩).StaysSmall twoLoads := by decide
  obtain ⟨-, -, -, hblocks⟩ := elision_preserves_meaning .standard ⟨true, .record⟩ twoLoads hsmall
  exact ⟨hsmall, by decide, fun b hb m s => (hblocks b hb).1 m s⟩

end Assembler
end BytecodeAssembler
