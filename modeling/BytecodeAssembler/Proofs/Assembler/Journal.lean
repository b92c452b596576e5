import BytecodeAssembler.Proofs.Assembler.Effect
import Mathlib.Data.List.Basic

/-! # The journal of a run

The state of an assembler does not remember which instructions it was given. The journal does: it
lists, block by block, the instructions that were accepted and those of them that are still in the
code, with the place of each. It is read off the calls, their answers and the sizes of the code
alone. `Sound` ties it to the state: the instructions it lists fill the code end to end, and the
last one of the open block is the one the state knows of.

Blocks and instructions stand latest first, so that a call changes the front.
-/
namespace BytecodeAssembler.Assembler

/-- A block ends where the next one is started or a label is bound. -/
def Call.opensBlock : Call → Bool
  | .bind _ | .startBlock => true
  | _ => false

/-- The state after a sequence of calls. -/
def after (a : Assembler) (calls : List Call) : Assembler := (a.run calls).2

theorem after_append (a : Assembler) (xs ys : List Call) :
    a.after (xs ++ ys) = (a.after xs).after ys := by
  induction xs generalizing a with
  | nil => rfl
  | cons c xs ih => exact ih (a.step c).2

/-- The code has less than 2^32 bytes in every state of a run. -/
def StaysSmall (a : Assembler) : List Call → Prop
  | [] => a.code.size < UInt32.size
  | c :: calls => a.code.size < UInt32.size ∧ StaysSmall (a.step c).2 calls

instance decidableStaysSmall (a : Assembler) (calls : List Call) :
    Decidable (a.StaysSmall calls) :=
  match calls with
  | [] => inferInstanceAs (Decidable (a.code.size < UInt32.size))
  | c :: calls =>
    have := decidableStaysSmall (a.step c).2 calls
    inferInstanceAs (Decidable (a.code.size < UInt32.size ∧ StaysSmall (a.step c).2 calls))

theorem StaysSmall.size_lt {a : Assembler} {calls : List Call} (h : a.StaysSmall calls) :
    a.code.size < UInt32.size := by
  cases calls with
  | nil => exact h
  | cons => exact h.1

theorem StaysSmall.append {a : Assembler} {xs ys : List Call} (h : a.StaysSmall (xs ++ ys)) :
    a.StaysSmall xs ∧ (a.after xs).StaysSmall ys := by
  induction xs generalizing a with
  | nil => exact ⟨h.size_lt, h⟩
  | cons c xs ih =>
    obtain ⟨hc, hrest⟩ := h
    exact ⟨⟨hc, (ih hrest).1⟩, (ih hrest).2⟩

theorem StaysSmall.size_after {a : Assembler} {calls : List Call} (h : a.StaysSmall calls) :
    (a.after calls).code.size < UInt32.size := by
  have hend : a.StaysSmall (calls ++ []) := by rwa [List.append_nil]
  exact hend.append.2

/-- `x` is what is encoded for the request. -/
inductive Request.Encodes : Request → Instruction → Prop
  | free (i : Instruction) : Encodes ⟨i, .free⟩ i
  | forward {i x : Instruction} (label : Nat) (ho : i.opcode.isForwardJump)
    (hx : i.setOperand 0 0 = .ok x) : Encodes ⟨i, .forward label⟩ x
  | back {i x : Instruction} (header : Nat) (d : UInt32) (ho : i.opcode = .jumpLoop)
    (hx : i.setOperand 0 d = .ok x) : Encodes ⟨i, .back header⟩ x

theorem Request.Encodes.same {q : Request} {x : Instruction} (h : q.Encodes x) :
    x.opcode = q.instruction.opcode ∧ x.scale = q.instruction.scale := by
  cases h with
  | free => exact ⟨rfl, rfl⟩
  | forward _ _ hx | back _ _ _ hx =>
    obtain ⟨ho, hs, -⟩ := Instruction.setOperand_zero hx
    exact ⟨ho, hs⟩

theorem Request.Encodes.exists_cons {q : Request} {x : Instruction} (h : q.Encodes x)
    (hlink : q.link ≠ .free) : ∃ v vs, x.operands = v :: vs := by
  cases h with
  | free => exact absurd rfl hlink
  | forward _ _ hx | back _ _ _ hx => exact ⟨_, _, (Instruction.setOperand_zero hx).2.2.2⟩

theorem Request.Encodes.instructionSize {q : Request} {x : Instruction} {t : OpcodeTable}
    {bytes : List UInt8} (h : q.Encodes x) (hb : x.encode t = .ok bytes) :
    t.instructionSize q.instruction.opcode q.instruction.scale = .ok bytes.length := by
  rw [← h.same.1, ← h.same.2]
  exact Instruction.instructionSize_of_encode hb

/-- The call wrote `x`, encoded as `bytes`, for the request `q`. -/
structure Writes (a : Assembler) (c : Call) (r : Except AssemblyError Reply) (b : Assembler)
    (q : Request) (x : Instruction) (bytes : List UInt8) : Prop where
  request : c.request? = some q
  reply : r = .ok .done
  wasOpen : a.blockClosed = false
  encodes : q.Encodes x
  encoded : x.encode a.table = .ok bytes
  table : b.table = a.table
  code : b.code = (a.emit x bytes).code
  last : b.last = (a.emit x bytes).last
  log : b.log = (a.emit x bytes).log

theorem Request.Encodes.isPureLoad_eq_false {q : Request} {x : Instruction} (h : q.Encodes x)
    (hlink : q.link ≠ .free) : q.instruction.opcode.isPureLoad = false := by
  cases h with
  | free => exact absurd rfl hlink
  | @forward i _ _ ho => cases hop : i.opcode <;> simp_all [Opcode.isPureLoad, Opcode.isForwardJump]
  | back _ _ ho =>
    show Opcode.isPureLoad _ = false
    rw [ho]
    rfl

section
variable {a : Assembler} {i x : Instruction} {bytes : List UInt8}

theorem writes_write (hopen : a.blockClosed = false) (hx : i.encode a.table = .ok bytes) :
    Writes a (.write i) (.ok .done) (a.emit i bytes) ⟨i, .free⟩ i bytes :=
  ⟨rfl, rfl, hopen, .free i, hx, rfl, rfl, rfl, rfl⟩

theorem writes_jump {label : Nat} (hopen : a.blockClosed = false) (ho : i.opcode.isForwardJump)
    (hi : i.setOperand 0 0 = .ok x) (hx : x.encode a.table = .ok bytes) (site : JumpSite) :
    Writes a (.jump i label) (.ok .done) ((a.emit x bytes).await label site) ⟨i, .forward label⟩ x
      bytes :=
  ⟨rfl, rfl, hopen, .forward label ho hi, hx, rfl, rfl, rfl, rfl⟩

theorem writes_loop {header : Nat} {d : UInt32} (hopen : a.blockClosed = false)
    (ho : i.opcode = .jumpLoop) (hi : i.setOperand 0 d = .ok x)
    (hx : x.encode a.table = .ok bytes) :
    Writes a (.loop i header) (.ok .done) (a.emit x bytes) ⟨i, .back header⟩ x bytes :=
  ⟨rfl, rfl, hopen, .back header d ho hi, hx, rfl, rfl, rfl, rfl⟩

end

/-- An instruction in the code, with the bytes that were first written for it. -/
structure Placed where
  request : Request
  start : Nat
  bytes : List UInt8
  deriving DecidableEq

namespace Placed

def instruction (e : Placed) : Instruction := e.request.instruction

def stop (e : Placed) : Nat := e.start + e.bytes.length

end Placed

/-- The instructions accepted while a block was open, and those of them still in the code. -/
structure Block where
  accepted : List Instruction
  kept : List Placed
  deriving DecidableEq

abbrev Journal := List Block

namespace Journal

/-- The instructions in the code, the last one first. -/
def listing (j : Journal) : List Placed := j.flatMap (·.kept)

def cut (n : Nat) (es : List Placed) : List Placed := es.filter (·.stop ≤ n)

def trim (n : Nat) (j : Journal) : Journal := j.map fun b => { b with kept := cut n b.kept }

/-- Enters an instruction in the open block. What reached behind its start is gone. -/
def place (e : Placed) (j : Journal) : Journal :=
  match j.trim e.start with
  | [] => []
  | b :: bs => ⟨e.instruction :: b.accepted, e :: b.kept⟩ :: bs

def latest (b : Assembler) (q : Request) : Placed :=
  let size := match b.table.instructionSize q.instruction.opcode q.instruction.scale with
    | .ok n => n
    | .error _ => 0
  ⟨q, b.code.size - size, b.code.toList.drop (b.code.size - size)⟩

/-- The journal after a call that took the state from `a` to `b`: an instruction counts if it was
accepted while its block was open. -/
def note (a b : Assembler) (c : Call) (r : Except AssemblyError Reply) (j : Journal) : Journal :=
  match r with
  | .error _ => j
  | .ok _ =>
    match c.request? with
    | some q => if a.blockClosed then j else j.place (latest b q)
    | none => if c.opensBlock then ⟨[], []⟩ :: j else j

end Journal

def journalFrom (a : Assembler) (j : Journal) : List Call → Journal
  | [] => j
  | c :: calls => journalFrom (a.step c).2 (j.note a (a.step c).2 c (a.step c).1) calls

/-- The journal of a run, which begins with one open block. -/
def journal (a : Assembler) (calls : List Call) : Journal := a.journalFrom [⟨[], []⟩] calls

variable {a b : Assembler} {c : Call} {r : Except AssemblyError Reply} {j : Journal}

theorem Writes.note {q : Request} {x : Instruction} {bytes : List UInt8} (ha : a.Consistent)
    (hw : Writes a c r b q x bytes) : j.note a b c r = j.place ⟨q, a.startOf x, bytes⟩ := by
  have hsize := hw.encodes.instructionSize hw.encoded
  have hstart : b.code.size - bytes.length = a.startOf x := by
    rw [hw.code, size_emit ha, Nat.add_sub_cancel]
  have htake : (a.code.toList.take (a.startOf x)).length = a.startOf x := by
    rw [List.length_take, Array.length_toList, Nat.min_eq_left (ha.startOf_le x)]
  have hdrop : b.code.toList.drop (a.startOf x) = bytes := by
    rw [hw.code, toList_emit]
    exact List.drop_left' htake
  simp only [Journal.note, hw.reply, hw.request, hw.wasOpen, Journal.latest, hw.table, hsize, hstart,
    hdrop, Bool.false_eq_true, ↓reduceIte]

/-- A call writes an instruction, or leaves the code as long as it is and the log as it is. The
journal then changes only in that a new block begins. -/
theorem Effect.writes_or_rests (he : Effect a c r b) (j : Journal) :
    (∃ q x bytes, Writes a c r b q x bytes) ∨
      (b.code.size = a.code.size ∧ b.log = a.log) ∧ (j.note a b c r = j ∧ b.last = a.last ∨
        j.note a b c r = ⟨[], []⟩ :: j ∧ b.last = none) := by
  cases he with
  | refused | behind | rejected | labelled => exact .inr ⟨⟨rfl, rfl⟩, .inl ⟨rfl, rfl⟩⟩
  | dropped hc hclosed =>
    refine .inr ⟨⟨rfl, rfl⟩, .inl ⟨?_, rfl⟩⟩
    simp [Journal.note, hc, hclosed]
  | wrote hopen hx => exact .inl ⟨_, _, _, writes_write hopen hx⟩
  | jumped hopen ho _ hi hx => exact .inl ⟨_, _, _, writes_jump hopen ho hi hx _⟩
  | looped hopen ho _ _ hi hx => exact .inl ⟨_, _, _, writes_loop hopen ho hi hx⟩
  | began => exact .inr ⟨⟨rfl, rfl⟩, .inr ⟨rfl, rfl⟩⟩
  | bound => exact .inr ⟨⟨size_resolved .., rfl⟩, .inr ⟨rfl, rfl⟩⟩
  | stranded => exact .inr ⟨⟨size_resolved .., rfl⟩, .inl ⟨rfl, rfl⟩⟩

namespace Journal

/-- The instructions lie end to end and fill the first `n` bytes. -/
def Tiles (n : Nat) : List Placed → Prop
  | [] => n = 0
  | e :: es => e.stop = n ∧ e.bytes ≠ [] ∧ Tiles e.start es

theorem Tiles.stop_le {n : Nat} {es : List Placed} (h : Tiles n es) {e : Placed} (he : e ∈ es) :
    e.stop ≤ n := by
  induction es generalizing n with
  | nil => cases he
  | cons d es ih =>
    obtain ⟨hd, -, hes⟩ := h
    rcases List.mem_cons.mp he with rfl | he
    · exact hd.le
    · exact (ih hes he).trans (by simp [← hd, Placed.stop])

theorem Tiles.start_lt {n : Nat} {es : List Placed} (h : Tiles n es) {e : Placed} (he : e ∈ es) :
    e.start < e.stop := by
  induction es generalizing n with
  | nil => cases he
  | cons d es ih =>
    obtain ⟨-, hne, hes⟩ := h
    rcases List.mem_cons.mp he with rfl | he
    · simpa [Placed.stop] using List.length_pos_iff.mpr hne
    · exact ih hes he

theorem cut_eq_self {n : Nat} {es : List Placed} (h : ∀ e ∈ es, e.stop ≤ n) : cut n es = es :=
  List.filter_eq_self.mpr (by simpa using h)

theorem trim_eq_self {n m : Nat} (h : Tiles n j.listing) (hm : n ≤ m) : j.trim m = j := by
  have hkept : ∀ b ∈ j, ({ b with kept := cut m b.kept } : Block) = id b := by
    intro b hb
    have hcut : cut m b.kept = b.kept :=
      cut_eq_self fun e he => (h.stop_le (List.mem_flatMap.mpr ⟨b, hb, he⟩)).trans hm
    rw [hcut]
    rfl
  rw [trim, List.map_congr_left hkept, List.map_id]

/-- The journal agrees with the state: what it lists fills the code, and the last instruction of the
open block is the one the state knows of. -/
structure Sound (a : Assembler) (j : Journal) : Prop where
  consistent : a.Consistent
  tiles : Tiles a.code.size j.listing
  nonempty : j ≠ []
  last : ∀ l, a.last = some l → ∃ accepted e kept bs,
    j = ⟨accepted, e :: kept⟩ :: bs ∧ e.start = l.offset ∧ e.instruction.opcode = l.opcode

theorem sound_new (t : OpcodeTable) (options : Options) :
    Sound (Assembler.new t options) [⟨[], []⟩] where
  consistent := ⟨by simp [PositionLog.UpTo, Assembler.new, PositionLog.empty],
    by simp [Assembler.new], fun _ => rfl⟩
  tiles := rfl
  nonempty := by simp
  last := by simp [Assembler.new]

theorem Sound.place (h : Sound a j) (x : Instruction) {e : Placed} (he : e.start = a.startOf x) :
    ∃ accepted kept bs, j.place e = ⟨e.instruction :: accepted, e :: kept⟩ :: bs ∧
      Tiles (a.startOf x) (listing (⟨accepted, kept⟩ :: bs)) ∧
      (a.dead? x = none ∧ j = ⟨accepted, kept⟩ :: bs ∨
        ∃ l d, a.dead? x = some l ∧ d.start = l.offset ∧ d.instruction.opcode = l.opcode ∧
          j = ⟨accepted, d :: kept⟩ :: bs) := by
  cases hdead : a.dead? x with
  | none =>
    have hstart : a.startOf x = a.code.size := by simp [startOf, hdead]
    have htrim := trim_eq_self h.tiles le_rfl
    obtain ⟨⟨accepted, kept⟩, bs, rfl⟩ := List.exists_cons_of_ne_nil h.nonempty
    refine ⟨accepted, kept, bs, ?_, ?_, .inl ⟨rfl, rfl⟩⟩
    · simp only [Journal.place, he, hstart, htrim]
    · rw [hstart]
      exact h.tiles
  | some l =>
    have hstart : a.startOf x = l.offset := by simp [startOf, hdead]
    obtain ⟨accepted, d, kept, bs, rfl, hd, ho⟩ := h.last l (dead?_eq_some hdead).2.1
    obtain ⟨hstop, hne, hrest⟩ : Tiles a.code.size (d :: listing (⟨accepted, kept⟩ :: bs)) :=
      h.tiles
    have htrim := trim_eq_self hrest le_rfl
    have hgone : ¬ d.stop ≤ d.start := by
      have := List.length_pos_iff.mpr hne
      simp only [Placed.stop]
      omega
    refine ⟨accepted, kept, bs, ?_, ?_, .inr ⟨l, d, rfl, hd, ho, rfl⟩⟩
    · rw [trim, List.map_cons] at htrim
      injection htrim with hkept hbs
      injection hkept with _ hkept
      have hcut : cut d.start (d :: kept) = kept := by
        rw [cut, List.filter_cons_of_neg (by simpa using hgone)]
        exact hkept
      simp only [Journal.place, he, hstart, ← hd, trim, List.map_cons, hcut, hbs]
    · rw [hstart, ← hd]
      exact hrest

/-- The instructions that stay when `x` is written: all but a dead load. -/
inductive Leaves (a : Assembler) (x : Instruction) (j : Journal) (rest : List Placed) : Prop
  | all (hstart : a.startOf x = a.code.size) (hj : j.listing = rest)
  | retract (d : Placed) (hload : d.instruction.opcode.isPureLoad) (hstart : d.start = a.startOf x)
    (hj : j.listing = d :: rest)

theorem Leaves.mem {x : Instruction} {rest : List Placed} (h : Leaves a x j rest) {d : Placed}
    (hd : d ∈ rest) : d ∈ j.listing := by
  cases h with
  | all _ hj => rwa [hj]
  | retract _ _ _ hj =>
    rw [hj]
    exact List.mem_cons_of_mem _ hd

theorem Leaves.mem_or_dead {x : Instruction} {rest : List Placed} (h : Leaves a x j rest)
    {d : Placed} (hd : d ∈ j.listing) :
    d ∈ rest ∨ d.instruction.opcode.isPureLoad ∧ d.start = a.startOf x := by
  cases h with
  | all _ hj =>
    left
    rwa [← hj]
  | retract e hload hstart hj =>
    rw [hj] at hd
    rcases List.mem_cons.mp hd with rfl | hd
    · exact .inr ⟨hload, hstart⟩
    · exact .inl hd

theorem Sound.listing_place (h : Sound a j) (x : Instruction) {e : Placed}
    (he : e.start = a.startOf x) :
    ∃ rest, (j.place e).listing = e :: rest ∧ Tiles (a.startOf x) rest ∧ Leaves a x j rest := by
  obtain ⟨accepted, kept, bs, hplace, htiles, ⟨hdead, rfl⟩ | ⟨l, d, hdead, hd, ho, rfl⟩⟩ :=
    h.place x he
  · exact ⟨_, by rw [hplace]; rfl, htiles, .all (by simp [startOf, hdead]) rfl⟩
  · have hload : d.instruction.opcode.isPureLoad := by
      rw [ho]
      exact (dead?_eq_some hdead).2.2.1
    exact ⟨_, by rw [hplace]; rfl, htiles, .retract d hload (by simp [startOf, hdead, hd]) rfl⟩

theorem Sound.writes {q : Request} {x : Instruction} {bytes : List UInt8} (h : Sound a j)
    (hw : Writes a c r b q x bytes) (hb : b.Consistent) :
    Sound b (j.place ⟨q, a.startOf x, bytes⟩) := by
  obtain ⟨accepted, kept, bs, hplace, htiles, -⟩ := h.place x (e := ⟨q, a.startOf x, bytes⟩) rfl
  rw [hplace]
  refine ⟨hb, ?_, by simp, ?_⟩
  · rw [hw.code, size_emit h.consistent]
    exact ⟨rfl, Instruction.encode_ne_nil hw.encoded, htiles⟩
  · intro l hl
    rw [hw.last] at hl
    obtain ⟨hoffset, hopcode⟩ := last_emit h.consistent hl
    exact ⟨_, _, _, _, rfl, hoffset.symm, hw.encodes.same.1.symm.trans hopcode.symm⟩

theorem Sound.note (h : Sound a j) (he : Effect a c r b) : Sound b (j.note a b c r) := by
  have hb := he.consistent h.consistent
  rcases he.writes_or_rests j with ⟨q, x, bytes, hw⟩ |
    ⟨⟨hsize, -⟩, ⟨hnote, hlast⟩ | ⟨hnote, hlast⟩⟩
  · rw [hw.note h.consistent]
    exact h.writes hw hb
  · rw [hnote]
    exact ⟨hb, hsize ▸ h.tiles, h.nonempty, hlast ▸ h.last⟩
  · rw [hnote]
    exact ⟨hb, hsize ▸ h.tiles, by simp, by simp [hlast]⟩

theorem Sound.mem_note (h : Sound a j) (he : Effect a c r b) {d : Placed} (hd : d ∈ j.listing)
    (hload : d.instruction.opcode.isPureLoad = false) : d ∈ (j.note a b c r).listing := by
  rcases he.writes_or_rests j with ⟨q, x, bytes, hw⟩ | ⟨-, ⟨hnote, -⟩ | ⟨hnote, -⟩⟩
  · rw [hw.note h.consistent]
    obtain ⟨rest, hplace, -, hrest⟩ := h.listing_place x (e := ⟨q, a.startOf x, bytes⟩) rfl
    rw [hplace]
    rcases hrest.mem_or_dead hd with hd | ⟨hdead, -⟩
    · exact List.mem_cons_of_mem _ hd
    · rw [hload] at hdead
      cases hdead
  · rwa [hnote]
  · rwa [hnote]

end Journal

theorem journalFrom_append (a : Assembler) (j : Journal) (xs ys : List Call) :
    a.journalFrom j (xs ++ ys) = (a.after xs).journalFrom (a.journalFrom j xs) ys := by
  induction xs generalizing a j with
  | nil => rfl
  | cons c xs ih => exact ih (a.step c).2 _

/-- What one call preserves, a run preserves. -/
theorem journal_invariant {P : Assembler → Journal → Prop} (hcons : ∀ {a j}, P a j → a.Consistent)
    (hstep : ∀ {a b c r j}, P a j → Effect a c r b → P b (j.note a b c r)) (calls : List Call)
    {a : Assembler} {j : Journal} (h : P a j) (hsmall : a.StaysSmall calls) :
    P (a.after calls) (a.journalFrom j calls) := by
  induction calls generalizing a j with
  | nil => exact h
  | cons c calls ih =>
    obtain ⟨hsize, hrest⟩ := hsmall
    exact ih (hstep h (step_effect (hcons h) hsize c)) hrest

theorem Journal.Sound.mem_journalFrom (h : Journal.Sound a j) {calls : List Call}
    (hsmall : a.StaysSmall calls) {d : Placed} (hd : d ∈ j.listing)
    (hload : d.instruction.opcode.isPureLoad = false) : d ∈ (a.journalFrom j calls).listing := by
  refine (journal_invariant (P := fun a j => Journal.Sound a j ∧ d ∈ j.listing)
    (fun h => h.1.consistent) ?_ calls ⟨h, hd⟩ hsmall).2
  rintro a b c r j ⟨h, hd⟩ he
  exact ⟨h.note he, h.mem_note he hd hload⟩

end BytecodeAssembler.Assembler
