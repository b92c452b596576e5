import BytecodeAssembler.Json.Literal
import Mathlib.Data.List.TakeWhile

/-! # Literals read back

An integer is the value of its decimal digits, and a text is what its escaped characters stand for.
A number has only characters of which words are made, and an escaped text has no quote that would
end it and no control character.
-/
namespace BytecodeAssembler.Json
variable {cs : List Char}

/-! ## Numbers -/

theorem head?_toDigits_ne {n : Nat} (hn : n ≠ 0) : (Nat.toDigits 10 n).head? ≠ some '0' := by
  induction n using Nat.strongRecOn with
  | ind n ih =>
    by_cases hlt : n < 10
    · rw [Nat.toDigits_of_lt_base hlt, List.head?_singleton]
      simpa [Nat.digitChar_eq_zero] using hn
    · have hhead := ih (n / 10) (by omega) (by omega)
      rw [Nat.toDigits_of_base_le (by decide) (by omega)]
      cases hdigits : Nat.toDigits 10 (n / 10) with
      | nil => exact absurd hdigits Nat.toDigits_ne_nil
      | cons c cs =>
        rw [hdigits] at hhead
        exact hhead

theorem all_isDigit_toDigits (n : Nat) : (Nat.toDigits 10 n).all Char.isDigit := by
  rw [List.all_eq_true]
  exact fun c hc => Nat.isDigit_of_mem_toDigits (by decide) (by decide) hc

theorem isIntegerPart_toDigits (n : Nat) : isIntegerPart (Nat.toDigits 10 n) := by
  have hdigits := all_isDigit_toDigits n
  unfold isIntegerPart
  split
  next hnil => exact absurd hnil Nat.toDigits_ne_nil
  next => rfl
  next c cs hzero hcons =>
    have hn : n ≠ 0 := by
      rintro rfl
      cases hcons
      exact hzero rfl rfl
    have hhead := head?_toDigits_ne hn
    rw [hcons] at hhead hdigits
    have hc : c ≠ '0' := by simpa using hhead
    simpa [hc] using hdigits

theorem natLiteral?_toDigits (n : Nat) : natLiteral? (Nat.toDigits 10 n) = some n := by
  rw [natLiteral?, if_pos (isIntegerPart_toDigits n), Nat.ofDigitChars_ten_toDigits]

theorem isUnsignedNumber_toDigits (n : Nat) : isUnsignedNumber (Nat.toDigits 10 n) := by
  have hdigits := List.all_eq_true.mp (all_isDigit_toDigits n)
  rw [isUnsignedNumber, List.takeWhile_eq_self_iff.mpr hdigits,
    List.dropWhile_eq_nil_iff.mpr hdigits, isIntegerPart_toDigits]
  rfl

theorem toDigits_ne_minus (n : Nat) (cs : List Char) : Nat.toDigits 10 n ≠ '-' :: cs := by
  intro h
  have hdigits := all_isDigit_toDigits n
  rw [h, List.all_cons] at hdigits
  simp at hdigits

theorem isNumber_intLiteral (n : Int) : isNumber (intLiteral n) := by
  cases n with
  | ofNat n =>
    show isNumber (Nat.toDigits 10 n)
    unfold isNumber
    split
    next h => exact absurd h (toDigits_ne_minus n _)
    next => exact isUnsignedNumber_toDigits n
  | negSucc n => exact isUnsignedNumber_toDigits (n + 1)

theorem intLiteral?_intLiteral (n : Int) : intLiteral? (intLiteral n) = some n := by
  cases n with
  | ofNat n =>
    show intLiteral? (Nat.toDigits 10 n) = _
    unfold intLiteral?
    split
    next h => exact absurd h (toDigits_ne_minus n _)
    next =>
      rw [natLiteral?_toDigits]
      rfl
  | negSucc n =>
    show (natLiteral? (Nat.toDigits 10 (n + 1))).bind _ = _
    rw [natLiteral?_toDigits]
    rfl

/-- The characters that numbers are made of. -/
def isNumberChar (c : Char) : Bool := c.isDigit || ['-', '+', '.', 'e', 'E'].contains c

theorem isNumberChar_of_isDigit {c : Char} (h : c.isDigit) : isNumberChar c := by
  simp [isNumberChar, h]

theorem all_cons {c : Char} (hc : isNumberChar c) (hcs : cs.all isNumberChar) :
    (c :: cs).all isNumberChar := by
  rw [List.all_cons, hc, hcs]
  rfl

theorem all_of_isDigits (h : isDigits cs) : cs.all isNumberChar := by
  simp only [isDigits, Bool.and_eq_true, List.all_eq_true] at h ⊢
  exact fun c hc => isNumberChar_of_isDigit (h.2 c hc)

theorem all_of_isExponent (h : isExponent cs) : cs.all isNumberChar := by
  unfold isExponent at h
  split at h
  next => exact all_cons rfl (all_of_isDigits h)
  next => exact all_cons rfl (all_of_isDigits h)
  next => exact all_of_isDigits h

theorem all_cons_of_isExponent {c : Char} (h : ((c == 'e' || c == 'E') && isExponent cs) = true) :
    (c :: cs).all isNumberChar := by
  simp only [Bool.and_eq_true, Bool.or_eq_true, beq_iff_eq] at h
  obtain ⟨rfl | rfl, hexponent⟩ := h
  · exact all_cons rfl (all_of_isExponent hexponent)
  · exact all_cons rfl (all_of_isExponent hexponent)

theorem all_takeWhile_isDigit (cs : List Char) : (cs.takeWhile Char.isDigit).all isNumberChar := by
  rw [List.all_eq_true]
  exact fun c hc => isNumberChar_of_isDigit (List.mem_takeWhile_imp hc)

theorem all_of_isNumberTail (h : isNumberTail cs) : cs.all isNumberChar := by
  unfold isNumberTail at h
  split at h
  next => rfl
  next cs =>
    have hdigits := all_takeWhile_isDigit cs
    have hrest : (cs.dropWhile Char.isDigit).all isNumberChar := by
      simp only [Bool.and_eq_true] at h
      cases hdrop : cs.dropWhile Char.isDigit with
      | nil => rfl
      | cons c rest =>
        rw [hdrop] at h
        exact all_cons_of_isExponent h.2
    refine all_cons rfl ?_
    rw [← List.takeWhile_append_dropWhile (p := Char.isDigit) (l := cs), List.all_append, hdigits,
      hrest]
    rfl
  next => exact all_cons_of_isExponent h

theorem all_of_isUnsignedNumber (h : isUnsignedNumber cs) : cs.all isNumberChar := by
  rw [isUnsignedNumber, Bool.and_eq_true] at h
  rw [← List.takeWhile_append_dropWhile (p := Char.isDigit) (l := cs), List.all_append,
    all_takeWhile_isDigit, all_of_isNumberTail h.2]
  rfl

theorem all_of_isNumber (h : isNumber cs) : cs.all isNumberChar := by
  unfold isNumber at h
  split at h
  next => exact all_cons rfl (all_of_isUnsignedNumber h)
  next => exact all_of_isUnsignedNumber h

/-! ## Strings -/

/-- A character that stands for itself inside a string. -/
def isBare (c : Char) : Bool := c != '"' && c != '\\' && decide (32 ≤ c.toNat)

/-- What may stand between the quotes of a string: a quote only behind a backslash, and no control
character. -/
def isRaw : List Char → Bool
  | '\\' :: _ :: cs => isRaw cs
  | c :: cs => isBare c && isRaw cs
  | [] => true

theorem hexDigit?_digitChar :
    ∀ n < 16, hexDigit? (Nat.digitChar n) = some n ∧ isBare (Nat.digitChar n) := by
  decide

/-- The ways in which a character is written. -/
inductive Spells (c : Char) : List Char → Prop
  | bare (hbare : isBare c) : Spells c [c]
  | short {e : Char} (he : escapes.lookup e = some c) (hu : e ≠ 'u') : Spells c ['\\', e]
  | unit {x y : Char} (hunit : unit? '0' '0' x y = some c.toNat) (hcontrol : c.toNat < 32)
    (hx : isBare x) (hy : isBare y) : Spells c ['\\', 'u', '0', '0', x, y]

theorem lookup_escapes : ∀ p ∈ escapes, escapes.lookup p.1 = some p.2 ∧ p.1 ≠ 'u' := by
  decide

theorem spells_escapeChar (c : Char) : Spells c (escapeChar c) := by
  unfold escapeChar
  split
  next hquote =>
    obtain rfl := beq_iff_eq.mp hquote
    exact .short rfl (by decide)
  next hquote =>
    split
    next hback =>
      obtain rfl := beq_iff_eq.mp hback
      exact .short rfl (by decide)
    next hback =>
      split
      next hcontrol =>
        split
        next e d hfind =>
          have hd : d = c := by simpa using List.find?_some hfind
          obtain ⟨he, hu⟩ := lookup_escapes _ (List.mem_of_find?_eq_some hfind)
          subst hd
          exact .short he hu
        next =>
          obtain ⟨hx, hxbare⟩ := hexDigit?_digitChar (c.toNat / 16) (by omega)
          obtain ⟨hy, hybare⟩ := hexDigit?_digitChar (c.toNat % 16) (by omega)
          have hzero : hexDigit? '0' = some 0 := rfl
          refine .unit ?_ hcontrol hxbare hybare
          simp only [unit?, hx, hy, hzero]
          exact congrArg some (by omega)
      next hcontrol =>
        have hbare : isBare c := by
          simp only [beq_iff_eq] at hquote hback
          simp [isBare, hquote, hback, Nat.le_of_not_lt hcontrol]
        exact .bare hbare

theorem ne_backslash_of_isBare {c : Char} (h : isBare c) : c ≠ '\\' := by
  rintro rfl
  cases h

theorem isRaw_cons {c : Char} (h : isBare c) (cs : List Char) : isRaw (c :: cs) = isRaw cs := by
  rw [isRaw, h, Bool.true_and]
  rintro _ _ rfl
  exact absurd rfl (ne_backslash_of_isBare h)

namespace Spells
variable {c : Char} {w : List Char}

theorem isRaw_append (h : Spells c w) (cs : List Char) : isRaw (w ++ cs) = isRaw cs := by
  cases h with
  | bare hbare => exact isRaw_cons hbare cs
  | short => rfl
  | unit _ _ hx hy =>
    simp only [List.cons_append, List.nil_append, isRaw]
    rw [isRaw_cons rfl, isRaw_cons rfl, isRaw_cons hx, isRaw_cons hy]

theorem isEscaped_append (h : Spells c w) (cs : List Char) :
    isEscaped (w ++ cs) = isEscaped cs := by
  cases h with
  | bare hbare =>
    have hc := ne_backslash_of_isBare hbare
    rw [List.singleton_append, isEscaped]
    · simp [hc]
    · simp [hc]
    · simp [hc]
  | short he hu =>
    rw [List.cons_append, List.singleton_append, isEscaped, he]
    · rfl
    · simp [hu]
  | unit hunit =>
    simp only [List.cons_append, List.nil_append, isEscaped, hunit]
    rfl

theorem unescape?_append (h : Spells c w) (cs : List Char) :
    unescape? (w ++ cs) = (unescape? cs).map (c :: ·) := by
  cases h with
  | bare hbare =>
    have hc := ne_backslash_of_isBare hbare
    rw [List.singleton_append, unescape?]
    · simp [hc]
    · simp [hc]
    · simp [hc]
  | short he hu =>
    rw [List.cons_append, List.singleton_append, unescape?, he]
    · rfl
    · simp [hu]
  | unit hunit hcontrol =>
    have hhigh : ¬(0xD800 ≤ c.toNat ∧ c.toNat < 0xDC00) := by omega
    have hlow : ¬(0xDC00 ≤ c.toNat ∧ c.toNat < 0xE000) := by omega
    simp only [List.cons_append, List.nil_append, unescape?, hunit, Option.bind_eq_bind,
      Option.bind_some, if_neg hhigh, if_neg hlow, Char.ofNat_toNat]

end Spells

theorem unescape?_escape (cs : List Char) : unescape? (cs.flatMap escapeChar) = some cs := by
  induction cs with
  | nil => rfl
  | cons c cs ih =>
    rw [List.flatMap_cons, (spells_escapeChar c).unescape?_append, ih]
    rfl

theorem isEscaped_escape (cs : List Char) : isEscaped (cs.flatMap escapeChar) := by
  induction cs with
  | nil => rfl
  | cons c cs ih =>
    rw [List.flatMap_cons, (spells_escapeChar c).isEscaped_append]
    exact ih

theorem isRaw_escape (cs : List Char) : isRaw (cs.flatMap escapeChar) := by
  induction cs with
  | nil => rfl
  | cons c cs ih =>
    rw [List.flatMap_cons, (spells_escapeChar c).isRaw_append]
    exact ih

/-- A text reads back from the string that is written for it. -/
theorem text?_ofText (s : String) : (ofText s).text? = some s := by
  rw [ofText, text?, unescape?_escape, Option.map_some, String.ofList_toList]

/-- An integer reads back from the number that is written for it. -/
theorem int?_ofInt (n : Int) : (ofInt n).int? = some n := intLiteral?_intLiteral n

end BytecodeAssembler.Json
