import BytecodeAssembler.Proofs.Assembler.Journal

/-! # The code as an image of its instructions

The code is the instructions of the journal one behind the other, each with the bytes it was first
written with, except that a forward jump may have been given its distance since. `resolved_render`
says that resolving jumps puts the distances into those jumps and changes no other byte.
-/
namespace BytecodeAssembler.Assembler

namespace Placed

def slot (e : Placed) : Nat := (Instruction.header e.instruction.opcode e.instruction.scale).length

def width (t : OpcodeTable) (e : Placed) : Width :=
  t.firstWidth e.instruction.opcode e.instruction.scale

/-- The bytes of the instruction, with a distance as its first operand if there is one. -/
def image (t : OpcodeTable) (e : Placed) : Option Nat → List UInt8
  | none => e.bytes
  | some d => e.bytes.take e.slot ++
      (BigEndian.encode (e.width t).bytes d ++ e.bytes.drop (e.slot + (e.width t).bytes))

def site (t : OpcodeTable) (e : Placed) : JumpSite :=
  ⟨e.start, e.start + e.slot, e.width t, e.instruction.scale⟩

def Fits (t : OpcodeTable) (e : Placed) : Prop := e.slot + (e.width t).bytes ≤ e.bytes.length

variable {t : OpcodeTable} {e : Placed}

theorem length_image (h : e.Fits t) (d : Option Nat) : (e.image t d).length = e.bytes.length := by
  unfold Fits at h
  cases d with
  | none => rfl
  | some d => simp [image]; omega

theorem image_split (h : e.Fits t) (d : Option Nat) :
    ∃ mid : List UInt8, mid.length = (e.width t).bytes ∧ e.image t d =
      e.bytes.take e.slot ++ (mid ++ e.bytes.drop (e.slot + (e.width t).bytes)) := by
  unfold Fits at h
  cases d with
  | none =>
    refine ⟨(e.bytes.drop e.slot).take (e.width t).bytes, by simp; omega, ?_⟩
    rw [← List.drop_drop, List.take_append_drop, List.take_append_drop]
    rfl
  | some d => exact ⟨_, BigEndian.length_encode .., rfl⟩

theorem take_drop_image (h : e.Fits t) (d : Nat) :
    ((e.image t (some d)).drop e.slot).take (e.width t).bytes =
      BigEndian.encode (e.width t).bytes d := by
  have hslot : (e.bytes.take e.slot).length = e.slot := by
    unfold Fits at h
    simp
    omega
  rw [image, List.drop_left' hslot]
  exact List.take_left' (BigEndian.length_encode ..)

theorem getElem?_image (h : e.Fits t) (d : Option Nat) {k : Nat}
    (hk : k < e.slot ∨ e.slot + (e.width t).bytes ≤ k) : (e.image t d)[k]? = e.bytes[k]? := by
  obtain ⟨mid, hmid, himage⟩ := image_split h d
  unfold Fits at h
  have hslot : (e.bytes.take e.slot).length = e.slot := by
    simp
    omega
  rw [himage]
  rcases hk with hk | hk
  · rw [List.getElem?_append_left (by omega), List.getElem?_take_of_lt hk]
  · rw [List.getElem?_append_right (by omega), List.getElem?_append_right (by omega), hslot, hmid,
      List.getElem?_drop]
    congr 1
    omega

end Placed

/-- The first operand of an instruction that starts at `start`, read off the code. -/
def operandAt (code : Array UInt8) (start : Nat) (o : Opcode) (s : Scale) (w : Width) : Nat :=
  BigEndian.value ((code.toList.drop (start + (Instruction.header o s).length)).take w.bytes)

/-- The code that consists of these instructions, with the distances that `f` gives to them. -/
def render (t : OpcodeTable) (f : Placed → Option Nat) : List Placed → List UInt8
  | [] => []
  | e :: es => render t f es ++ e.image t (f e)

variable {t : OpcodeTable} {f g : Placed → Option Nat} {es : List Placed} {n : Nat}

theorem render_append (xs ys : List Placed) :
    render t f (xs ++ ys) = render t f ys ++ render t f xs := by
  induction xs with
  | nil => simp [render]
  | cons x xs ih => simp [render, ih]

theorem render_congr (h : ∀ e ∈ es, f e = g e) : render t f es = render t g es := by
  induction es with
  | nil => rfl
  | cons e es ih =>
    rw [render, render, h e List.mem_cons_self, ih fun d hd => h d (List.mem_cons_of_mem _ hd)]

namespace Journal

theorem Tiles.append {xs ys : List Placed} (h : Tiles n (xs ++ ys)) : ∃ m, Tiles m ys := by
  induction xs generalizing n with
  | nil => exact ⟨n, h⟩
  | cons x xs ih => exact ih h.2.2

/-- An instruction ends before the later ones start. -/
theorem Tiles.pairwise_stop_le (h : Tiles n es) : es.Pairwise fun d e => e.stop ≤ d.start := by
  induction es generalizing n with
  | nil => exact .nil
  | cons d es ih =>
    obtain ⟨-, -, hes⟩ := h
    exact .cons (fun e he => hes.stop_le he) (ih hes)

theorem Tiles.pairwise (h : Tiles n es) : es.Pairwise fun d e => e.start < d.start :=
  h.pairwise_stop_le.imp_of_mem fun _ he hle => (h.start_lt he).trans_le hle

theorem length_render (h : Tiles n es) (hfits : ∀ e ∈ es, e.Fits t) :
    (render t f es).length = n := by
  induction es generalizing n with
  | nil => exact h.symm
  | cons e es ih =>
    obtain ⟨hstop, -, hes⟩ := h
    rw [render, List.length_append, ih hes fun d hd => hfits d (List.mem_cons_of_mem _ hd),
      Placed.length_image (hfits e List.mem_cons_self)]
    exact hstop

end Journal

theorem render_split (h : Journal.Tiles n es) (hfits : ∀ e ∈ es, e.Fits t) {e : Placed}
    (he : e ∈ es) :
    ∃ pre post, render t f es = pre ++ (e.image t (f e) ++ post) ∧ pre.length = e.start := by
  obtain ⟨later, earlier, rfl⟩ := List.append_of_mem he
  obtain ⟨m, -, -, hearlier⟩ := h.append
  refine ⟨render t f earlier, render t f later, ?_, ?_⟩
  · rw [render_append, render, List.append_assoc]
  · exact Journal.length_render hearlier fun x hx => hfits x (by simp [hx])

theorem operandAt_render (h : Journal.Tiles n es) (hfits : ∀ e ∈ es, e.Fits t) {e : Placed}
    (he : e ∈ es) :
    operandAt (render t f es).toArray e.start e.instruction.opcode e.instruction.scale (e.width t) =
      BigEndian.value (((e.image t (f e)).drop e.slot).take (e.width t).bytes) := by
  obtain ⟨pre, post, hrender, hpre⟩ := render_split (f := f) h hfits he
  have hlength := Placed.length_image (hfits e he) (f e)
  have hslot := hfits e he
  unfold Placed.Fits at hslot
  show BigEndian.value (((render t f es).drop (e.start + e.slot)).take (e.width t).bytes) = _
  rw [hrender, ← List.drop_drop, List.drop_left' hpre, List.drop_append_of_le_length (by omega),
    List.take_append_of_le_length (by rw [List.length_drop]; omega)]

theorem getElem?_render (h : Journal.Tiles n es) (hfits : ∀ e ∈ es, e.Fits t) {e : Placed}
    (he : e ∈ es) {k : Nat} (hk : k < e.bytes.length)
    (hslot : f e = none ∨ k < e.slot ∨ e.slot + (e.width t).bytes ≤ k) :
    (render t f es)[e.start + k]? = e.bytes[k]? := by
  obtain ⟨pre, post, hrender, hpre⟩ := render_split (f := f) h hfits he
  have hlength := Placed.length_image (hfits e he) (f e)
  rw [hrender, ← hpre, List.getElem?_append_right (by omega), Nat.add_sub_cancel_left,
    List.getElem?_append_left (by omega)]
  rcases hslot with hnone | hslot
  · rw [hnone]
    rfl
  · exact Placed.getElem?_image (hfits e he) (f e) hslot

theorem overwrite_append (pre mid post bytes : List UInt8) (h : bytes.length = mid.length) :
    overwrite (pre ++ (mid ++ post)).toArray pre.length bytes =
      (pre ++ (bytes ++ post)).toArray := by
  induction bytes generalizing pre mid with
  | nil =>
    cases mid with
    | nil => rfl
    | cons m mid => cases h
  | cons b bytes ih =>
    cases mid with
    | nil => cases h
    | cons m mid =>
      have hset : (pre ++ (m :: mid ++ post)).toArray.setIfInBounds pre.length b =
          ((pre ++ [b]) ++ (mid ++ post)).toArray := by simp
      rw [overwrite, hset]
      simpa using ih (pre ++ [b]) mid (by simpa using h)

open Journal

theorem overwrite_render (h : Tiles n es) (hfits : ∀ e ∈ es, e.Fits t) {e : Placed} (he : e ∈ es)
    (d : Nat) :
    overwrite (render t f es).toArray (e.start + e.slot)
        (BigEndian.encode (e.width t).bytes d) =
      (render t (fun x => if x = e then some d else f x) es).toArray := by
  obtain ⟨later, earlier, rfl⟩ := List.append_of_mem he
  obtain ⟨m, hm⟩ := h.append
  obtain ⟨-, -, hearlier⟩ := hm
  have hlength : (render t f earlier).length = e.start :=
    length_render hearlier fun x hx => hfits x (by simp [hx])
  obtain ⟨mid, hmid, himage⟩ := Placed.image_split (hfits e he) (f e)
  have hslot : e.slot ≤ e.bytes.length := (Nat.le_add_right ..).trans (hfits e he)
  obtain ⟨-, hhead, hcross⟩ := List.pairwise_append.mp h.pairwise
  -- starts rise, so neither what comes later nor what came earlier is `e` itself
  have hlater : ∀ x ∈ later, (if x = e then some d else f x) = f x := by
    intro x hx
    have hlt := hcross x hx e List.mem_cons_self
    exact if_neg fun hxe => hlt.ne' (congrArg Placed.start hxe)
  have hbefore : ∀ x ∈ earlier, (if x = e then some d else f x) = f x := by
    intro x hx
    have hlt := (List.pairwise_cons.mp hhead).1 x hx
    exact if_neg fun hxe => hlt.ne (congrArg Placed.start hxe)
  have hpre : (render t f earlier ++ e.bytes.take e.slot).length = e.start + e.slot := by
    simp [hlength, hslot]
  rw [render_append, render_append, render, render, render_congr hlater, render_congr hbefore,
    himage, if_pos rfl, ← hpre]
  simpa [Placed.image] using overwrite_append (render t f earlier ++ e.bytes.take e.slot) mid
    (e.bytes.drop (e.slot + (e.width t).bytes) ++ render t f later)
    (BigEndian.encode (e.width t).bytes d) (by simp [hmid])

/-- Resolving jumps gives each of them its distance and changes nothing else. -/
theorem resolved_render (h : Tiles n es) (hfits : ∀ e ∈ es, e.Fits t) (target : Nat)
    {ds : List Placed} (hds : ∀ d ∈ ds, d ∈ es) :
    resolved target (ds.map (·.site t)) (render t f es).toArray =
      (render t (fun x => if x ∈ ds then some (target - x.start) else f x) es).toArray := by
  induction ds generalizing f with
  | nil => simp [resolved]
  | cons d ds ih =>
    have hd := overwrite_render (f := f) h hfits (hds d List.mem_cons_self) (target - d.start)
    show resolved target (ds.map (·.site t)) (overwrite (render t f es).toArray
      (d.start + d.slot) (BigEndian.encode (d.width t).bytes (target - d.start))) = _
    rw [hd, ih fun e he => hds e (List.mem_cons_of_mem _ he)]
    refine congrArg List.toArray (render_congr fun x _ => ?_)
    by_cases hx : x = d
    · simp [hx]
    · simp [hx]

end BytecodeAssembler.Assembler
