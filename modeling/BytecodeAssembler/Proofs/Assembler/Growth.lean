import BytecodeAssembler.Proofs.Assembler.Detours

/-! # How the code grows

The table says how many bytes an instruction takes. An instruction that is accepted in an open block
makes the code longer by just as many, unless it retracts a load; then the code loses as many as the
table says of the load, its scale prefix among them. Which load that is the journal tells by the rule
that says what is left of a block.
-/
namespace BytecodeAssembler.Assembler

/-- The load at the end of the open block, if it goes when `next` is written. -/
def Journal.retracted? (t : OpcodeTable) (elide : Bool) (next : Instruction) :
    Journal → Option Placed
  | [] => none
  | k :: _ =>
    if (k.lineages t elide).head?.any (·.yields t elide next) then k.kept.head? else none

/-- Writing `e` makes code of `before` bytes into code of `after` bytes and leaves the journal behind
it. It comes last; the load that it retracts, if there is one, was last before and makes room. -/
inductive Journal.Gains (t : OpcodeTable) (j : Journal) (e : Placed) (before after : Nat) :
    Option Placed → Journal → Prop
  | behind {j' : Journal} (hstart : e.start = before) (hsize : after = before + e.bytes.length)
    (hlisting : j'.listing = e :: j.listing) : Gains t j e before after none j'
  | inPlace {j' : Journal} {d : Placed} {n : Nat} {rest : List Placed}
    (hload : t.instructionSize d.instruction.opcode d.instruction.scale = .ok n)
    (hstart : d.start = e.start) (hstop : d.stop = before)
    (hsize : after + n = before + e.bytes.length) (hj : j.listing = d :: rest)
    (hlisting : j'.listing = e :: rest) : Gains t j e before after (some d) j'

variable {a b : Assembler} {c : Call} {r : Except AssemblyError Reply} {j : Journal} {q : Request}

theorem Placed.Formed.instructionSize {t : OpcodeTable} {e : Placed} (h : e.Formed t) :
    t.instructionSize e.instruction.opcode e.instruction.scale = .ok e.bytes.length := by
  obtain ⟨x, hx, hb⟩ := h
  exact hx.instructionSize hb

/-- An instruction that is accepted in an open block is written. -/
theorem Effect.writes_of_ok (he : Effect a c r b) (hq : c.request? = some q)
    (hopen : a.blockClosed = false) (hr : r = .ok .done) : ∃ x bytes, Writes a c r b q x bytes := by
  cases he with
  | refused | behind => cases hr
  | dropped _ hclosed =>
    rw [hopen] at hclosed
    cases hclosed
  | wrote _ hb =>
    cases hq
    exact ⟨_, _, writes_write hopen hb⟩
  | jumped _ ho _ hj hb =>
    cases hq
    exact ⟨_, _, writes_jump hopen ho hj hb _⟩
  | looped _ ho _ _ hj hb =>
    cases hq
    exact ⟨_, _, writes_loop hopen ho hj hb⟩
  | labelled | began | rejected | bound | stranded => cases hq

/-- The state retracts a load exactly if the journal tells of one, and it is the same load. -/
theorem Traced.retracted?_cases (h : Traced a j) {x : Instruction} {e : Placed}
    (hx : e.request.Encodes x) (he : e.start = a.startOf x) :
    (j.retracted? a.table a.options.elideDeadLoads e.instruction = none ∧ e.start = a.code.size ∧
      (j.place e).listing = e :: j.listing) ∨
    ∃ d rest, j.retracted? a.table a.options.elideDeadLoads e.instruction = some d ∧
      d.start = e.start ∧ d.stop = a.code.size ∧ j.listing = d :: rest ∧
      (j.place e).listing = e :: rest := by
  have hgoes : ∀ {k bs}, Traced a (k :: bs) →
      (k.lineages a.table a.options.elideDeadLoads).head?.any
        (·.yields a.table a.options.elideDeadLoads e.instruction) = (a.dead? x).isSome := by
    intro k bs hk
    have hrule := congrArg Option.isSome (hk.dead?_eq (i := e.instruction) hx.same.1 hx.source)
    rw [Option.isSome_map, Option.isSome_map, Option.isSome_filter] at hrule
    exact hrule.symm
  obtain ⟨accepted, kept, bs, hplace, -, ⟨hdead, rfl⟩ | ⟨l, d, hdead, hd, -, rfl⟩⟩ := h.place x he
  · refine .inl ⟨?_, he.trans (by simp [startOf, hdead]), by rw [hplace]; rfl⟩
    simp [Journal.retracted?, hgoes h, hdead]
  · have hstart : d.start = e.start := by
      rw [hd, he]
      simp [startOf, hdead]
    refine .inr ⟨d, kept ++ Journal.listing bs, ?_, hstart, h.tiles.1, rfl, by rw [hplace]; rfl⟩
    simp [Journal.retracted?, hgoes h, hdead]

theorem Traced.gains (h : Traced a j) (hs : Spelled a j) {x : Instruction}
    {bytes : List UInt8} (hw : Writes a c r b q x bytes) :
    Journal.Gains a.table j ⟨q, a.startOf x, bytes⟩ a.offset b.offset
      (j.retracted? a.table a.options.elideDeadLoads q.instruction) (j.note a b c r) := by
  have hoffset : b.offset = a.startOf x + bytes.length := by
    rw [offset, hw.code, size_emit h.consistent]
  rw [hw.note h.consistent]
  rcases h.retracted?_cases (e := ⟨q, a.startOf x, bytes⟩) hw.encodes rfl with
    ⟨hnone, hstart, hlisting⟩ | ⟨d, rest, hsome, hstart, hstop, hj, hlisting⟩
  · rw [show j.retracted? a.table a.options.elideDeadLoads q.instruction = none from hnone]
    exact .behind hstart (hoffset.trans (congrArg (· + bytes.length) hstart)) hlisting
  · rw [show j.retracted? a.table a.options.elideDeadLoads q.instruction = some d from hsome]
    have hload := (hs.formed d (by simp [hj])).instructionSize
    refine .inPlace hload hstart hstop ?_ hj hlisting
    have hend : d.start + d.bytes.length = a.offset := hstop
    have hstart : d.start = a.startOf x := hstart
    show b.offset + d.bytes.length = a.offset + bytes.length
    omega

/-- In every state that calls can lead to with less than 2^32 bytes of code, an instruction, a forward
jump or a loop jump that is accepted in an open block stands behind the code that is left, in as many
bytes as the table says. The code has become longer by these, less those of the load that the
instruction retracts, if it retracts one: then that load was the last instruction of the code and is
gone, in the number of bytes that the table says for it at its own scale. -/
theorem code_grows_by_instruction_size (t : OpcodeTable) (options : Options) (calls : List Call)
    (hsize : ((Assembler.new t options).after calls).code.size < UInt32.size)
    (hopen : ((Assembler.new t options).after calls).blockClosed = false) {c : Call} {q : Request}
    (hq : c.request? = some q)
    (hok : (((Assembler.new t options).after calls).step c).1 = .ok .done) :
    let s := Assembler.new t options
    let a := s.after calls
    let b := (a.step c).2
    ∃ start bytes,
      t.instructionSize q.instruction.opcode q.instruction.scale = .ok bytes.length ∧
      b.code.toList = a.code.toList.take start ++ bytes ∧
      Journal.Gains t (s.journal calls) ⟨q, start, bytes⟩ a.offset b.offset
        ((s.journal calls).retracted? t options.elideDeadLoads q.instruction)
        (s.journal (calls ++ [c])) := by
  intro s a b
  have hspelled : Spelled a (s.journal calls) := spelled_of_size_lt t options hsize
  have htraced : Traced a (s.journal calls) := traced_of_size_lt t options hsize
  have htable : a.table = t := ((consistentInRange_new t options).after calls).table
  have hoptions : a.options = options := options_of_size_lt t options hsize
  have hjournal : s.journal (calls ++ [c]) =
      (s.journal calls).note a b c (a.step c).1 := journalFrom_append s _ calls [c]
  obtain ⟨x, bytes, hw⟩ :=
    (step_effect hspelled.consistent hsize c).writes_of_ok hq hopen hok
  have hgains := htraced.gains hspelled hw
  have hencoded : (⟨q, a.startOf x, bytes⟩ : Placed).Formed a.table := ⟨x, hw.encodes, hw.encoded⟩
  rw [htable, hoptions] at hgains
  rw [htable] at hencoded
  rw [hjournal]
  refine ⟨a.startOf x, bytes, hencoded.instructionSize, ?_, hgains⟩
  rw [hw.code, toList_emit]

/-- The load at the end takes four bytes, for its operand is wide and has a prefix in front of it. -/
def wideLoad : List Call :=
  [.write (.bare .star .single [0]), .write (.bare .ldaConstant .double [400])]

theorem code_grows_by_instruction_size_wideLoad :
    let a := (Assembler.new .standard default).after wideLoad
    let c := Call.write (.bare .ldaUndefined .single [])
    a.code.size < UInt32.size ∧ a.blockClosed = false ∧ (a.step c).1 = .ok .done ∧
      (a.step c).2.offset + 4 = a.offset + 1 := by
  intro a c
  have hsize : a.code.size < UInt32.size := by decide
  have hopen : a.blockClosed = false := by decide
  have hok : (a.step c).1 = .ok .done := by decide
  obtain ⟨start, bytes, hlength, -, hgains⟩ :=
    code_grows_by_instruction_size .standard default wideLoad hsize hopen rfl hok
  have hone : OpcodeTable.standard.instructionSize .ldaUndefined .single = .ok 1 := by decide
  have hfour : OpcodeTable.standard.instructionSize .ldaConstant .double = .ok 4 := by decide
  have hgone : ((Assembler.new .standard default).journal wideLoad).retracted? .standard true
      (.bare .ldaUndefined .single []) =
        some ⟨⟨.bare .ldaConstant .double [400], .free⟩, 2, [0, 23, 1, 144]⟩ := by decide
  have hbytes : bytes.length = 1 := Except.ok.inj (hlength.symm.trans hone)
  rw [show (default : Options).elideDeadLoads = true from rfl, hgone] at hgains
  cases hgains with
  | inPlace hload _ _ hend =>
    obtain rfl := Except.ok.inj (hload.symm.trans hfour)
    exact ⟨hsize, hopen, hok, hend.trans (congrArg (a.offset + ·) hbytes)⟩

end BytecodeAssembler.Assembler
