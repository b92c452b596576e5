import BytecodeAssembler.Assembler.Call
import BytecodeAssembler.Proofs.Assembler.Emission

/-! # What one call does

`Effect` lists the outcomes of a call with the conditions under which each comes about, and
`step_effect` says that there is no other in a consistent state whose code has less than 2^32 bytes.
Whatever holds of every call is proved by cases on its effect. A call in longer code has one of these
effects too, or the code is too long for good (`effect_or_overlong`).
-/
namespace BytecodeAssembler

def JumpSite.reaches (s : JumpSite) (target : Nat) : Bool :=
  s.width.holdsDistance (target - s.start)

namespace Assembler
open Assembly

/-- How an instruction is tied to a label. -/
inductive Link
  | free
  | forward (label : Nat)
  | back (header : Nat)
  deriving DecidableEq

/-- An instruction that a client asks to write. -/
structure Request where
  instruction : Instruction
  link : Link
  deriving DecidableEq

def Call.request? : Call → Option Request
  | .write i => some ⟨i, .free⟩
  | .jump i label => some ⟨i, .forward label⟩
  | .loop i header => some ⟨i, .back header⟩
  | .newLabel | .bind _ | .startBlock => none

def resolved (target : Nat) : List JumpSite → Array UInt8 → Array UInt8
  | [], code => code
  | s :: sites, code =>
    resolved target sites
      (overwrite code s.operandOffset (BigEndian.encode s.width.bytes (target - s.start)))

/-- The state after a label was bound to the end of the code and the jumps in `sites` resolved. -/
def settle (a : Assembler) (label : Nat) (sites : List JumpSite) : Assembler :=
  { a with
    labels := a.labels.setIfInBounds label (.bound a.code.size)
    code := resolved a.code.size sites a.code }

/-- The jump that waits for its distance once `i` is written. -/
def jumpSite (a : Assembler) (i : Instruction) (w : Width) : JumpSite :=
  ⟨a.startOf i, a.startOf i + (Instruction.header i.opcode i.scale).length, w, i.scale⟩

/-- What a call answers and what becomes of the state. -/
inductive Effect (a : Assembler) : Call → Except AssemblyError Reply → Assembler → Prop
  | refused {c : Call} {q : Request} {e : AssemblyError} (hc : c.request? = some q)
    (he : e ≠ .negativeDistance) : Effect a c (.error e) a
  | behind {i : Instruction} {header target : Nat} (hopen : a.blockClosed = false)
    (ho : i.opcode = .jumpLoop) (hl : a.labels[header]? = some (.bound target))
    (hlt : a.code.size < target) : Effect a (.loop i header) (.error .negativeDistance) a
  | dropped {c : Call} {q : Request} (hc : c.request? = some q) (hclosed : a.blockClosed) :
    Effect a c (.ok .done) a
  | wrote {i : Instruction} {bytes : List UInt8} (hopen : a.blockClosed = false)
    (hb : i.encode a.table = .ok bytes) : Effect a (.write i) (.ok .done) (a.emit i bytes)
  | jumped {i j : Instruction} {label : Nat} {sites : Array JumpSite} {bytes : List UInt8}
    {w : Width} {ws : List Width} (hopen : a.blockClosed = false) (ho : i.opcode.isForwardJump)
    (hl : a.labels[label]? = some (.pending sites)) (hj : i.setOperand 0 0 = .ok j)
    (hb : j.encode a.table = .ok bytes)
    (hw : a.table.operandWidths j.opcode j.scale = .ok (w :: ws)) :
    Effect a (.jump i label) (.ok .done) ((a.emit j bytes).await label (a.jumpSite j w))
  | looped {i j : Instruction} {header target : Nat} {bytes : List UInt8} {w : Width}
    {ws : List Width} (hopen : a.blockClosed = false) (ho : i.opcode = .jumpLoop)
    (hl : a.labels[header]? = some (.bound target))
    (hd : w.holdsDistance (a.code.size - target))
    (hj : i.setOperand 0 (.ofNat (a.code.size - target)) = .ok j)
    (hb : j.encode a.table = .ok bytes)
    (hw : a.table.operandWidths j.opcode j.scale = .ok (w :: ws)) (hle : target ≤ a.code.size) :
    Effect a (.loop i header) (.ok .done) (a.emit j bytes)
  | labelled : Effect a .newLabel (.ok (.label a.labels.size)) a.addLabel
  | began : Effect a .startBlock (.ok .done) a.startBlock
  | rejected {label : Nat} {e : AssemblyError}
    (hl : ∀ sites, a.labels[label]? ≠ some (.pending sites))
    (he : e = .unknownLabel label ∨ e = .labelAlreadyBound label) :
    Effect a (.bind label) (.error e) a
  | bound {label : Nat} {sites : Array JumpSite}
    (hl : a.labels[label]? = some (.pending sites))
    (hs : ∀ s ∈ sites.toList, s.reaches a.code.size) :
    Effect a (.bind label) (.ok .done)
      { a.settle label sites.toList with
        unboundJumps := a.unboundJumps - sites.size
        blockClosed := false
        last := none }
  | stranded {label : Nat} {sites : Array JumpSite} {done rest : List JumpSite} {s : JumpSite}
    (hl : a.labels[label]? = some (.pending sites)) (hsites : sites.toList = done ++ s :: rest)
    (hdone : ∀ s ∈ done, s.reaches a.code.size) (hs : s.reaches a.code.size = false) :
    Effect a (.bind label) (.error (.jumpOutOfRange (a.code.size - s.start) s.scale))
      (a.settle label done)

variable {a b : Assembler} {c : Call}

/-- A call that gives nothing back is answered by how its steps end. -/
def answer : EStateM.Result AssemblyError Assembler Unit → Except AssemblyError Reply × Assembler
  | .ok _ b => (.ok .done, b)
  | .error e b => (.error e, b)

theorem step_eq_answer {m : Assembly Unit} (hc : c.perform = do m; return .done) :
    a.step c = answer (m.run a) := by
  simp only [step, hc, EStateM.run_bind]
  cases m.run a <;> rfl

theorem step_of_ok {m : Assembly Unit} (hc : c.perform = do m; return .done)
    (h : m.run a = .ok () b) : a.step c = (.ok .done, b) := by
  rw [step_eq_answer hc, h]
  rfl

theorem step_of_error {m : Assembly Unit} {e : AssemblyError}
    (hc : c.perform = do m; return .done) (h : m.run a = .error e b) :
    a.step c = (.error e, b) := by
  rw [step_eq_answer hc, h]
  rfl

/-- An instruction that was encoded is written, or the code is too long for good. -/
theorem answer_commit (ha : a.Consistent) (hopen : a.blockClosed = false) {i : Instruction}
    {bytes : List UInt8} (hb : i.encode a.table = .ok bytes) :
    answer ((commit i bytes).run a) = (.ok .done, a.emit i bytes) ∨
      UInt32.size ≤ a.code.size ∧ (answer ((commit i bytes).run a)).2.Overlong := by
  obtain ⟨d, _, hd, -⟩ := Instruction.encode_eq_ok hb
  rcases Nat.lt_or_ge (a.startOf i) UInt32.size with hlt | hge
  · rw [run_commit_of_startOf_lt ha hopen hlt hd]
    exact .inl rfl
  · refine .inr ⟨hge.trans (ha.startOf_le i), ?_⟩
    obtain ⟨b, hlong, hrun | ⟨e, hrun⟩⟩ := run_commit_of_le_startOf ha hopen hge hd bytes
    · rwa [hrun]
    · rwa [hrun]

theorem step_write_eq (a : Assembler) (i : Instruction) :
    a.step (.write i) =
      if a.blockClosed then (.ok .done, a)
      else match i.encode a.table with
        | .error e => (.error (.instruction e), a)
        | .ok bytes => answer ((commit i bytes).run a) := by
  rw [step_eq_answer rfl, run_write]
  split
  · rfl
  · cases i.encode a.table <;> rfl

theorem step_write (ha : a.Consistent) (hsize : a.code.size < UInt32.size) (i : Instruction) :
    a.step (.write i) =
      if a.blockClosed then (.ok .done, a)
      else match i.encode a.table with
        | .error e => (.error (.instruction e), a)
        | .ok bytes => (.ok .done, a.emit i bytes) := by
  rw [step_write_eq]
  cases hclosed : a.blockClosed with
  | true => rfl
  | false =>
    cases hb : i.encode a.table with
    | error e => rfl
    | ok bytes => exact (answer_commit ha hclosed hb).resolve_right fun h => h.1.not_gt hsize

theorem effect_write (ha : a.Consistent) (i : Instruction) :
    Effect a (.write i) (a.step (.write i)).1 (a.step (.write i)).2 ∨
      UInt32.size ≤ a.code.size ∧ (a.step (.write i)).2.Overlong := by
  rw [step_write_eq]
  split
  next hclosed => exact .inl (.dropped rfl hclosed)
  next hopen =>
    have hopen : a.blockClosed = false := by simpa using hopen
    split
    next => exact .inl (.refused rfl (by simp))
    next hb =>
      rcases answer_commit ha hopen hb with hanswer | hlong
      · rw [hanswer]
        exact .inl (.wrote hopen hb)
      · exact .inr hlong

theorem run_siteOf (ha : a.Consistent) {j : Instruction} {bytes : List UInt8} {w : Width}
    {ws : List Width} (hw : a.table.operandWidths j.opcode j.scale = .ok (w :: ws)) :
    (siteOf j bytes.length).run (a.emit j bytes) = .ok (a.jumpSite j w) (a.emit j bytes) := by
  have hw' : (a.emit j bytes).table.operandWidths j.opcode j.scale = .ok (w :: ws) := hw
  simp [jumpSite, siteOf, EStateM.run_bind, ofInstruction, hw', size_emit ha,
    Instruction.length_header, Nat.add_assoc]

theorem siteOf_congr {i j : Instruction} (ho : j.opcode = i.opcode) (hs : j.scale = i.scale) :
    siteOf i = siteOf j := by
  unfold siteOf
  rw [ho, hs]

/-- Writes a jump, already encoded, and notes it at its label. -/
def placeJump (j : Instruction) (bytes : List UInt8) (label : Nat) : Assembly Unit := do
  commit j bytes
  let site ← siteOf j bytes.length
  modify (·.await label site)

theorem Overlong.answer_await (h : b.Overlong) (j : Instruction) (size label : Nat) :
    (answer ((do modify (·.await label (← siteOf j size)) : Assembly Unit).run b)).2.Overlong := by
  simp only [siteOf, EStateM.run_bind, EStateM.run_get, run_ofInstruction]
  cases b.table.operandWidths j.opcode j.scale with
  | error e => exact h
  | ok ws => exact ⟨h.size, h.last⟩

theorem answer_placeJump (ha : a.Consistent) (hopen : a.blockClosed = false) {j : Instruction}
    {bytes : List UInt8} (hb : j.encode a.table = .ok bytes) {w : Width} {ws : List Width}
    (hw : a.table.operandWidths j.opcode j.scale = .ok (w :: ws)) (label : Nat) :
    answer ((placeJump j bytes label).run a) =
        (.ok .done, (a.emit j bytes).await label (a.jumpSite j w)) ∨
      UInt32.size ≤ a.code.size ∧ (answer ((placeJump j bytes label).run a)).2.Overlong := by
  have hcommit := answer_commit ha hopen hb
  rw [placeJump, EStateM.run_bind]
  cases hrun : (commit j bytes).run a with
  | error e c =>
    rw [hrun] at hcommit
    exact .inr (hcommit.resolve_left fun h => by cases h)
  | ok _ c =>
    rw [hrun] at hcommit
    rcases hcommit with hemit | ⟨hsize, hlong⟩
    · obtain rfl : c = a.emit j bytes := congrArg Prod.snd hemit
      have hsite : (siteOf j bytes.length).run (a.emit j bytes) = _ := run_siteOf ha hw
      exact .inl (by simp [answer, EStateM.run_bind, hsite])
    · exact .inr ⟨hsize, Overlong.answer_await hlong j bytes.length label⟩

theorem step_jump_eq (a : Assembler) (i : Instruction) (label : Nat) :
    a.step (.jump i label) =
      match a.jumpFault? i.opcode label with
      | some e => (.error e, a)
      | none =>
        if a.blockClosed then (.ok .done, a)
        else match i.encodeWith a.table 0 with
          | .error e => (.error (.instruction e), a)
          | .ok (j, bytes) => answer ((placeJump j bytes label).run a) := by
  cases hf : a.jumpFault? i.opcode label with
  | some e => exact step_of_error rfl (by simp [writeJump, EStateM.run_bind, hf])
  | none =>
    cases hclosed : a.blockClosed with
    | true => exact step_of_ok rfl (by simp [writeJump, EStateM.run_bind, hf, hclosed])
    | false =>
      cases hx : i.encodeWith a.table 0 with
      | error e =>
        refine step_of_error rfl ?_
        rcases Instruction.encodeWith_eq_error hx with hj | ⟨j, hj, hb⟩
        · simp [writeJump, EStateM.run_bind, hf, hclosed, hj, run_ofInstruction]
        · simp [writeJump, EStateM.run_bind, hf, hclosed, hj, hb, run_ofInstruction]
      | ok x =>
        obtain ⟨j, bytes⟩ := x
        obtain ⟨hj, hb⟩ := Instruction.encodeWith_eq_ok hx
        obtain ⟨hopcode, hscale, -⟩ := Instruction.setOperand_zero hj
        rw [step_eq_answer rfl]
        simp [writeJump, placeJump, EStateM.run_bind, hf, hclosed, hj, hb, run_ofInstruction,
          siteOf_congr hopcode hscale]

theorem step_jump (ha : a.Consistent) (hsize : a.code.size < UInt32.size) (i : Instruction)
    (label : Nat) :
    a.step (.jump i label) =
      match a.jumpFault? i.opcode label with
      | some e => (.error e, a)
      | none =>
        if a.blockClosed then (.ok .done, a)
        else match i.encodeWith a.table 0 with
          | .error e => (.error (.instruction e), a)
          | .ok (j, bytes) => (.ok .done,
            (a.emit j bytes).await label (a.jumpSite j (a.table.firstWidth j.opcode j.scale))) := by
  rw [step_jump_eq]
  cases a.jumpFault? i.opcode label with
  | some e => rfl
  | none =>
    cases hclosed : a.blockClosed with
    | true => rfl
    | false =>
      cases hx : i.encodeWith a.table 0 with
      | error e => rfl
      | ok x =>
        obtain ⟨j, bytes⟩ := x
        obtain ⟨-, hb⟩ := Instruction.encodeWith_eq_ok hx
        obtain ⟨w, ws, hw⟩ := Instruction.operandWidths_of_encodeWith hx
        have hplace : answer ((placeJump j bytes label).run a) =
            (.ok .done, (a.emit j bytes).await label (a.jumpSite j w)) :=
          (answer_placeJump ha hclosed hb hw label).resolve_right fun h => h.1.not_gt hsize
        rw [← OpcodeTable.firstWidth_eq hw] at hplace
        simp only [hplace]

theorem jumpFault?_eq_none {o : Opcode} {label : Nat} (h : a.jumpFault? o label = none) :
    o.isForwardJump ∧ ∃ sites, a.labels[label]? = some (.pending sites) := by
  unfold jumpFault? at h
  split at h
  next ho =>
    split at h
    · cases h
    · cases h
    next sites hl => exact ⟨ho, sites, hl⟩
  next => cases h

theorem jumpFault?_ne_negativeDistance {o : Opcode} {label : Nat} :
    a.jumpFault? o label ≠ some .negativeDistance := by
  unfold jumpFault?
  split
  · split <;> simp
  · simp

theorem effect_jump (ha : a.Consistent) (i : Instruction) (label : Nat) :
    Effect a (.jump i label) (a.step (.jump i label)).1 (a.step (.jump i label)).2 ∨
      UInt32.size ≤ a.code.size ∧ (a.step (.jump i label)).2.Overlong := by
  rw [step_jump_eq]
  split
  next hf => exact .inl (.refused rfl fun he => jumpFault?_ne_negativeDistance (he ▸ hf))
  next hf =>
    split
    next hclosed => exact .inl (.dropped rfl hclosed)
    next hopen =>
      have hopen : a.blockClosed = false := by simpa using hopen
      split
      next => exact .inl (.refused rfl (by simp))
      next j bytes hx =>
        obtain ⟨ho, sites, hl⟩ := jumpFault?_eq_none hf
        obtain ⟨hj, hb⟩ := Instruction.encodeWith_eq_ok hx
        obtain ⟨w, ws, hw⟩ := Instruction.operandWidths_of_encodeWith hx
        rcases answer_placeJump ha hopen hb hw label with hanswer | hlong
        · rw [hanswer]
          exact .inl (.jumped hopen ho hl hj hb hw)
        · exact .inr hlong

theorem step_loop_eq (a : Assembler) (i : Instruction) (header : Nat) :
    a.step (.loop i header) =
      match a.loopTarget i.opcode header with
      | .error e => (.error e, a)
      | .ok target =>
        if a.blockClosed then (.ok .done, a)
        else if a.code.size < target then (.error .negativeDistance, a)
        else match a.table.operandWidths i.opcode i.scale with
          | .error e => (.error (.instruction e), a)
          | .ok ws =>
            if ws.head?.any (·.holdsDistance (a.code.size - target)) then
              match i.encodeWith a.table (.ofNat (a.code.size - target)) with
              | .error e => (.error (.instruction e), a)
              | .ok (j, bytes) => answer ((commit j bytes).run a)
            else (.error (.jumpOutOfRange (a.code.size - target) i.scale), a) := by
  cases ht : a.loopTarget i.opcode header with
  | error e => exact step_of_error rfl (by simp [writeLoop, EStateM.run_bind, ht])
  | ok target =>
    cases hclosed : a.blockClosed with
    | true => exact step_of_ok rfl (by simp [writeLoop, EStateM.run_bind, ht, hclosed])
    | false =>
      by_cases hlt : a.code.size < target
      · simp only [Bool.false_eq_true, hlt, ↓reduceIte]
        exact step_of_error rfl (by simp [writeLoop, EStateM.run_bind, ht, hclosed, hlt])
      simp only [Bool.false_eq_true, hlt, ↓reduceIte]
      cases hws : a.table.operandWidths i.opcode i.scale with
      | error e =>
        exact step_of_error rfl (by
          simp [writeLoop, EStateM.run_bind, ht, hclosed, hlt, hws, run_ofInstruction])
      | ok ws =>
        by_cases hd : ws.head?.any (·.holdsDistance (a.code.size - target))
        · simp only [hd, ↓reduceIte]
          cases hx : i.encodeWith a.table (.ofNat (a.code.size - target)) with
          | error e =>
            refine step_of_error rfl ?_
            rcases Instruction.encodeWith_eq_error hx with hj | ⟨j, hj, hb⟩
            · simp [writeLoop, EStateM.run_bind, ht, hclosed, hlt, hws, run_ofInstruction, hd, hj]
            · simp [writeLoop, EStateM.run_bind, ht, hclosed, hlt, hws, run_ofInstruction, hd, hj,
                run_write, hb]
          | ok x =>
            obtain ⟨j, bytes⟩ := x
            obtain ⟨hj, hb⟩ := Instruction.encodeWith_eq_ok hx
            rw [step_eq_answer rfl]
            simp [writeLoop, EStateM.run_bind, ht, hclosed, hlt, hws, run_ofInstruction, hd, hj,
              run_write, hb]
        · simp only [hd, Bool.false_eq_true, ↓reduceIte]
          exact step_of_error rfl (by
            simp [writeLoop, EStateM.run_bind, ht, hclosed, hlt, hws, run_ofInstruction, hd])

theorem step_loop (ha : a.Consistent) (hsize : a.code.size < UInt32.size) (i : Instruction)
    (header : Nat) :
    a.step (.loop i header) =
      match a.loopTarget i.opcode header with
      | .error e => (.error e, a)
      | .ok target =>
        if a.blockClosed then (.ok .done, a)
        else if a.code.size < target then (.error .negativeDistance, a)
        else match a.table.operandWidths i.opcode i.scale with
          | .error e => (.error (.instruction e), a)
          | .ok ws =>
            if ws.head?.any (·.holdsDistance (a.code.size - target)) then
              match i.encodeWith a.table (.ofNat (a.code.size - target)) with
              | .error e => (.error (.instruction e), a)
              | .ok (j, bytes) => (.ok .done, a.emit j bytes)
            else (.error (.jumpOutOfRange (a.code.size - target) i.scale), a) := by
  rw [step_loop_eq]
  cases a.loopTarget i.opcode header with
  | error e => rfl
  | ok target =>
    cases hclosed : a.blockClosed with
    | true => rfl
    | false =>
      cases hws : a.table.operandWidths i.opcode i.scale with
      | error e => rfl
      | ok ws =>
        cases hx : i.encodeWith a.table (.ofNat (a.code.size - target)) with
        | error e => simp only [hx]
        | ok x =>
          obtain ⟨j, bytes⟩ := x
          have hemit : answer ((commit j bytes).run a) = (.ok .done, a.emit j bytes) :=
            (answer_commit ha hclosed (Instruction.encodeWith_eq_ok hx).2).resolve_right
              fun h => h.1.not_gt hsize
          simp only [hx, hemit]

theorem loopTarget_eq_ok {o : Opcode} {header target : Nat}
    (h : a.loopTarget o header = .ok target) :
    o = .jumpLoop ∧ a.labels[header]? = some (.bound target) := by
  unfold loopTarget at h
  split at h
  next ho =>
    split at h
    · cases h
    · cases h
    next hl =>
      cases h
      exact ⟨ho, hl⟩
  next => cases h

theorem loopTarget_ne_negativeDistance {o : Opcode} {header : Nat} :
    a.loopTarget o header ≠ .error .negativeDistance := by
  unfold loopTarget
  split
  · split <;> simp
  · simp

theorem effect_loop (ha : a.Consistent) (i : Instruction) (header : Nat) :
    Effect a (.loop i header) (a.step (.loop i header)).1 (a.step (.loop i header)).2 ∨
      UInt32.size ≤ a.code.size ∧ (a.step (.loop i header)).2.Overlong := by
  rw [step_loop_eq]
  split
  next ht => exact .inl (.refused rfl fun he => loopTarget_ne_negativeDistance (he ▸ ht))
  next target ht =>
    obtain ⟨ho, hl⟩ := loopTarget_eq_ok ht
    split
    next hclosed => exact .inl (.dropped rfl hclosed)
    next hopen =>
      have hopen : a.blockClosed = false := by simpa using hopen
      split
      next hlt => exact .inl (.behind hopen ho hl hlt)
      next hle =>
        split
        next => exact .inl (.refused rfl (by simp))
        next ws hws =>
          split
          next hd =>
            obtain ⟨w, hhead, hfits⟩ := (Option.any_eq_true _ _).mp hd
            obtain ⟨rest, rfl⟩ := List.head?_eq_some_iff.mp hhead
            split
            next => exact .inl (.refused rfl (by simp))
            next j bytes hx =>
              obtain ⟨hj, hb⟩ := Instruction.encodeWith_eq_ok hx
              obtain ⟨hopcode, hscale, -, -⟩ := Instruction.setOperand_zero hj
              have hw : a.table.operandWidths j.opcode j.scale = .ok (w :: rest) := by
                rw [hopcode, hscale, hws]
              rcases answer_commit ha hopen hb with hanswer | hlong
              · rw [hanswer]
                exact .inl (.looped hopen ho hl hfits hj hb hw (Nat.le_of_not_lt hle))
              · exact .inr hlong
          next => exact .inl (.refused rfl (by simp))

/-- The jumps are resolved in order, up to the first one that is out of reach. -/
theorem run_forM_resolve (target : Nat) (sites : List JumpSite) (a : Assembler) :
    (forM sites (Assembly.resolve target)).run a =
      match sites.find? (!·.reaches target) with
      | none => .ok () { a with code := resolved target sites a.code }
      | some s => .error (.jumpOutOfRange (target - s.start) s.scale)
          { a with code := resolved target (sites.takeWhile (·.reaches target)) a.code } := by
  induction sites generalizing a with
  | nil => rfl
  | cons s sites ih =>
    cases hs : s.reaches target with
    | true =>
      have hfits : s.width.holdsDistance (target - s.start) := hs
      have hrest := ih (a.patch s (target - s.start))
      simpa [Assembly.resolve, EStateM.run_bind, hfits, hs, resolved, patch] using hrest
    | false =>
      have hfits : s.width.holdsDistance (target - s.start) = false := hs
      simp [Assembly.resolve, EStateM.run_bind, hfits, hs, resolved]

theorem step_bind (a : Assembler) (label : Nat) :
    a.step (.bind label) =
      match a.labels[label]? with
      | none => (.error (.unknownLabel label), a)
      | some (.bound _) => (.error (.labelAlreadyBound label), a)
      | some (.pending sites) =>
        match sites.toList.find? (!·.reaches a.code.size) with
        | none => (.ok .done,
          { a.settle label sites.toList with
            unboundJumps := a.unboundJumps - sites.size
            blockClosed := false
            last := none })
        | some s => (.error (.jumpOutOfRange (a.code.size - s.start) s.scale),
          a.settle label (sites.toList.takeWhile (·.reaches a.code.size))) := by
  cases hl : a.labels[label]? with
  | none => exact step_of_error rfl (by simp [bindLabel, EStateM.run_bind, hl])
  | some l =>
    cases l with
    | bound offset => exact step_of_error rfl (by simp [bindLabel, EStateM.run_bind, hl])
    | pending sites =>
      have hrun := run_forM_resolve a.code.size sites.toList
        { a with labels := a.labels.setIfInBounds label (.bound a.code.size) }
      dsimp only
      cases hs : sites.toList.find? (!·.reaches a.code.size) with
      | none =>
        simp only [hs] at hrun
        exact step_of_ok rfl (by simp [bindLabel, EStateM.run_bind, hl, hrun, settle, startBlock])
      | some s =>
        simp only [hs] at hrun
        exact step_of_error rfl (by simp [bindLabel, EStateM.run_bind, hl, hrun, settle])

theorem effect_bind (a : Assembler) (label : Nat) :
    Effect a (.bind label) (a.step (.bind label)).1 (a.step (.bind label)).2 := by
  rw [step_bind]
  split
  next hl => exact .rejected (by simp [hl]) (.inl rfl)
  next hl => exact .rejected (by simp [hl]) (.inr rfl)
  next sites hl =>
    split
    next hs => exact .bound hl (by simpa using hs)
    next s hs =>
      obtain ⟨hs, done, rest, hsites, hdone⟩ := List.find?_eq_some_iff_append.mp hs
      have hs : s.reaches a.code.size = false := by simpa using hs
      have hdone : ∀ r ∈ done, r.reaches a.code.size := by simpa using hdone
      have htake : sites.toList.takeWhile (·.reaches a.code.size) = done := by
        rw [hsites, List.takeWhile_append_of_pos hdone, List.takeWhile_cons_of_neg (by simp [hs]),
          List.append_nil]
      rw [htake]
      exact .stranded hl hsites hdone hs

/-- Every call has one of the listed effects, unless the code was already too long and stays so. -/
theorem effect_or_overlong (ha : a.Consistent) (c : Call) :
    Effect a c (a.step c).1 (a.step c).2 ∨ UInt32.size ≤ a.code.size ∧ (a.step c).2.Overlong := by
  cases c with
  | write i => exact effect_write ha i
  | jump i label => exact effect_jump ha i label
  | loop i header => exact effect_loop ha i header
  | newLabel => exact .inl .labelled
  | bind label => exact .inl (effect_bind a label)
  | startBlock => exact .inl .began

theorem step_effect (ha : a.Consistent) (hsize : a.code.size < UInt32.size) (c : Call) :
    Effect a c (a.step c).1 (a.step c).2 :=
  (effect_or_overlong ha c).resolve_right fun h => h.1.not_gt hsize

@[simp] theorem size_resolved (target : Nat) (sites : List JumpSite) (code : Array UInt8) :
    (resolved target sites code).size = code.size := by
  induction sites generalizing code with
  | nil => rfl
  | cons s sites ih => simp [resolved, ih]

namespace Effect
variable {r : Except AssemblyError Reply}

theorem table (h : Effect a c r b) : b.table = a.table := by cases h <;> rfl

theorem options (h : Effect a c r b) : b.options = a.options := by cases h <;> rfl

theorem consistent (ha : a.Consistent) (h : Effect a c r b) : b.Consistent := by
  cases h with
  | refused | behind | dropped | rejected => exact ha
  | wrote => exact ha.emit ..
  | looped => exact ha.emit ..
  | @jumped _ j _ _ bytes =>
    have hb := ha.emit j bytes
    exact ⟨hb.log, hb.last, hb.idle⟩
  | labelled => exact ⟨ha.log, ha.last, ha.idle⟩
  | began => exact ⟨ha.log, by simp [startBlock], fun _ => rfl⟩
  | bound => exact ⟨by simpa [settle] using ha.log, by simp, fun _ => rfl⟩
  | stranded => exact ⟨by simpa [settle] using ha.log, by simpa [settle] using ha.last, ha.idle⟩

end Effect
end Assembler
end BytecodeAssembler
