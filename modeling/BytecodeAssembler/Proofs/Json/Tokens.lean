import BytecodeAssembler.Json.Token
import BytecodeAssembler.Proofs.Json.Literals

/-! # The tokens of a text

The compact text of a well-formed document is cut into the tokens of the document. A word, such as a
number, has no end of its own: it is read once the next character ends it, and until then it is only
settled what it will be. So characters are read as tokens (`Reads`) if they lead to a state in which
these are settled.
-/
namespace BytecodeAssembler.Json

/-- The tokens of the compact text. -/
def tokens : Json → List Token
  | .string raw => [.string raw]
  | .array items =>
    .openArray :: [Token.comma].intercalate (items.map fun j => tokens j) ++ [.closeArray]
  | .object members =>
    .openObject ::
      [Token.comma].intercalate (members.map fun m => .string m.1 :: .colon :: tokens m.2) ++
      [.closeObject]
  | j => [.scalar j]
decreasing_by
  · rename_i h
    have := List.sizeOf_lt_of_mem h
    simp; omega
  · rename_i h
    have := List.sizeOf_lt_of_mem h
    cases m
    simp at this ⊢; omega

/-- The numbers of the document are numbers, and its strings and names may stand between quotes. -/
inductive WellFormed : Json → Prop
  | null : WellFormed .null
  | bool (b : Bool) : WellFormed (.bool b)
  | number {literal : List Char} (h : isNumber literal) : WellFormed (.number literal)
  | string {raw : List Char} (h : isRaw raw) (he : isEscaped raw) : WellFormed (.string raw)
  | array {items : List Json} (h : ∀ j ∈ items, WellFormed j) : WellFormed (.array items)
  | object {members : List (List Char × Json)}
    (hnames : ∀ m ∈ members, isRaw m.1 ∧ isEscaped m.1)
    (hvalues : ∀ m ∈ members, WellFormed m.2) : WellFormed (.object members)

/-! ## Tokens -/

namespace Token
variable {c : Char} {cs ds : List Char} {t : Token} {ts us : List Token}

theorem ofWord?_of_isNumber {w : List Char} (h : isNumber w) :
    ofWord? w = some (.scalar (.number w)) := by
  have hnull : w ≠ ['n', 'u', 'l', 'l'] := by
    rintro rfl
    cases h
  have htrue : w ≠ ['t', 'r', 'u', 'e'] := by
    rintro rfl
    cases h
  have hfalse : w ≠ ['f', 'a', 'l', 's', 'e'] := by
    rintro rfl
    cases h
  simp [ofWord?, hnull, htrue, hfalse, h]

namespace Lexer

def delimiters : List Char := [' ', '\n', '\t', '\r', '"', '[', ']', '\x7b', '\x7d', ',', ':']

theorem mem_delimiters_of_endsWord (h : endsWord c) : c ∈ delimiters := by
  unfold endsWord punctuation? at h
  split at h
  case h_7 =>
    simp only [isBlank, Option.isSome_none, Bool.or_false, Bool.or_eq_true, beq_iff_eq] at h
    rcases h with (((rfl | rfl) | rfl) | rfl) | rfl
    all_goals decide
  all_goals decide

theorem endsWord_of_isNumberChar (h : isNumberChar c) : endsWord c = false := by
  have hdelimiters : delimiters.all fun d => !isNumberChar d := rfl
  by_contra hends
  have hmem := mem_delimiters_of_endsWord (Bool.not_eq_false _ ▸ hends)
  have hnot := List.all_eq_true.mp hdelimiters c hmem
  rw [h] at hnot
  cases hnot

/-- The tokens that are read if the text ends here, the last one first. -/
def settled (l : Lexer) : Option (List Token) :=
  match l.scan with
  | .between => some l.tokens
  | .word rev => (ofWord? rev.reverse).map (· :: l.tokens)
  | .quoted _ | .escape _ => none

theorem finish_eq (l : Lexer) : l.finish = l.settled.map List.reverse := by
  obtain ⟨ts, scan⟩ := l
  cases scan with
  | between | quoted | escape => rfl
  | word rev =>
    rw [settled, Option.map_map]
    rfl

theorem step_of_endsWord {l : Lexer} (hl : l.settled = some ts) (hc : endsWord c) :
    l.step c = some (begin ts c) := by
  obtain ⟨before, scan⟩ := l
  cases scan with
  | between =>
    cases hl
    rfl
  | word rev =>
    obtain ⟨t, ht, rfl⟩ := Option.map_eq_some_iff.mp hl
    simp only [step, hc, ↓reduceIte, ht, Option.map_some]
  | quoted | escape => cases hl

theorem begin_of_punctuation (hc : punctuation? c = some t) (ts : List Token) :
    begin ts c = ⟨t :: ts, .between⟩ := by
  unfold punctuation? at hc
  split at hc
  all_goals cases hc
  all_goals rfl

theorem foldlM_word (hcs : ∀ c ∈ cs, endsWord c = false) (ts : List Token) (rev : List Char) :
    cs.foldlM step ⟨ts, .word rev⟩ = some ⟨ts, .word (cs.reverse ++ rev)⟩ := by
  induction cs generalizing rev with
  | nil => rfl
  | cons c cs ih =>
    obtain ⟨hc, hrest⟩ := List.forall_mem_cons.mp hcs
    have hstep : step ⟨ts, .word rev⟩ c = some ⟨ts, .word (c :: rev)⟩ := by simp [step, hc]
    rw [List.foldlM_cons, hstep, List.reverse_cons, List.append_assoc]
    exact ih hrest (c :: rev)

theorem foldlM_quoted (h : isRaw cs) (ts : List Token) (rev : List Char) :
    cs.foldlM step ⟨ts, .quoted rev⟩ = some ⟨ts, .quoted (cs.reverse ++ rev)⟩ := by
  fun_induction isRaw cs generalizing rev with
  | case1 c cs ih =>
    have hstep : step ⟨ts, .quoted rev⟩ '\\' = some ⟨ts, .escape ('\\' :: rev)⟩ := by simp [step]
    have hescaped : step ⟨ts, .escape ('\\' :: rev)⟩ c = some ⟨ts, .quoted (c :: '\\' :: rev)⟩ := rfl
    rw [List.foldlM_cons, hstep, Option.bind_eq_bind, Option.bind_some, List.foldlM_cons, hescaped]
    simpa using ih h (c :: '\\' :: rev)
  | case2 c cs _ ih =>
    obtain ⟨hbare, hcs⟩ := Bool.and_eq_true_iff.mp h
    have hstep : step ⟨ts, .quoted rev⟩ c = some ⟨ts, .quoted (c :: rev)⟩ := by
      simp only [isBare, Bool.and_eq_true, bne_iff_ne, decide_eq_true_eq] at hbare
      simp [step, hbare, Nat.not_lt.mpr hbare.2]
    rw [List.foldlM_cons, hstep, List.reverse_cons, List.append_assoc]
    exact ih hcs (c :: rev)
  | case3 => rfl

/-- Where something new begins, these characters are read as these tokens. -/
def Reads (cs : List Char) (ts : List Token) : Prop :=
  ∀ before, ∃ l : Lexer, cs.foldlM step ⟨before, .between⟩ = some l ∧
    l.settled = some (ts.reverse ++ before)

namespace Reads

theorem nil : Reads [] [] := fun before => ⟨⟨before, .between⟩, rfl, rfl⟩

/-- Punctuation ends what is in front of it, and something new begins behind it. -/
theorem join (hcs : Reads cs ts) (hc : punctuation? c = some t) (hds : Reads ds us) :
    Reads (cs ++ c :: ds) (ts ++ t :: us) := by
  intro before
  obtain ⟨l, hl, hsettled⟩ := hcs before
  obtain ⟨m, hm, hmsettled⟩ := hds (t :: (ts.reverse ++ before))
  have hends : endsWord c := by simp [endsWord, hc]
  refine ⟨m, ?_, ?_⟩
  · rw [List.foldlM_append, hl, Option.bind_eq_bind, Option.bind_some, List.foldlM_cons,
      step_of_endsWord hsettled hends, begin_of_punctuation hc]
    exact hm
  · rw [hmsettled]
    simp

theorem word (hcs : cs.all fun c => !endsWord c) (hw : ofWord? cs = some t) : Reads cs [t] := by
  intro before
  simp only [List.all_eq_true, Bool.not_eq_true'] at hcs
  cases cs with
  | nil => cases hw
  | cons c cs =>
    obtain ⟨hc, hrest⟩ := List.forall_mem_cons.mp hcs
    have hbegin : step ⟨before, .between⟩ c = some ⟨before, .word [c]⟩ := by
      simp only [endsWord, Bool.or_eq_false_iff, Option.isSome_eq_false_iff, Option.isNone_iff_eq_none]
        at hc
      simp [step, begin, hc]
    refine ⟨⟨before, .word (cs.reverse ++ [c])⟩, ?_, ?_⟩
    · rw [List.foldlM_cons, hbegin]
      exact foldlM_word hrest before [c]
    · simp [settled, hw]

theorem quoted (hraw : isRaw cs) (he : isEscaped cs) :
    Reads ('"' :: cs ++ ['"']) [.string cs] := by
  intro before
  refine ⟨⟨.string cs :: before, .between⟩, ?_, rfl⟩
  have hbegin : step ⟨before, .between⟩ '"' = some ⟨before, .quoted []⟩ := rfl
  rw [List.cons_append, List.foldlM_cons, hbegin, Option.bind_eq_bind, Option.bind_some,
    List.foldlM_append, foldlM_quoted hraw]
  simp [step, ofQuoted?, he]

theorem intercalate {α : Type} {xs : List α} {f : α → List Char} {g : α → List Token}
    (h : ∀ x ∈ xs, Reads (f x) (g x)) :
    Reads ([','].intercalate (xs.map f)) ([.comma].intercalate (xs.map g)) := by
  induction xs with
  | nil => exact nil
  | cons x xs ih =>
    obtain ⟨hx, hxs⟩ := List.forall_mem_cons.mp h
    cases xs with
    | nil => simpa using hx
    | cons y ys =>
      simp only [List.map_cons, List.intercalate_cons_cons, List.append_assoc, List.cons_append,
        List.nil_append]
      exact hx.join rfl (ih hxs)

end Reads
end Lexer
end Token

open Token.Lexer in
theorem WellFormed.reads {j : Json} (h : j.WellFormed) : Reads j.chars j.tokens := by
  induction h with
  | null =>
    simp only [chars, tokens]
    exact .word rfl rfl
  | bool b =>
    cases b with
    | false =>
      simp only [chars, tokens]
      exact .word rfl rfl
    | true =>
      simp only [chars, tokens]
      exact .word rfl rfl
  | @number literal h =>
    simp only [chars, tokens]
    have hplain : literal.all fun c => !endsWord c := by
      rw [List.all_eq_true]
      intro c hc
      rw [endsWord_of_isNumberChar (List.all_eq_true.mp (all_of_isNumber h) c hc)]
      rfl
    exact .word hplain (Token.ofWord?_of_isNumber h)
  | string hraw he =>
    simp only [chars, tokens]
    exact .quoted hraw he
  | array _ ih =>
    simp only [chars, tokens]
    exact Reads.nil.join rfl ((Reads.intercalate ih).join rfl .nil)
  | @object members hnames _ ih =>
    have hmembers : ∀ m ∈ members, Reads ('"' :: m.1 ++ '"' :: ':' :: m.2.chars)
        (.string m.1 :: .colon :: m.2.tokens) := by
      intro m hm
      obtain ⟨hraw, he⟩ := hnames m hm
      simpa using (Reads.quoted hraw he).join rfl (ih m hm)
    simp only [chars, tokens]
    exact Reads.nil.join rfl ((Reads.intercalate hmembers).join rfl .nil)

theorem Token.ofChars?_chars {j : Json} (h : j.WellFormed) :
    Token.ofChars? j.chars = some j.tokens := by
  obtain ⟨l, hl, hsettled⟩ := h.reads []
  rw [Token.ofChars?, hl, Option.bind_some, Token.Lexer.finish_eq, hsettled]
  simp

end BytecodeAssembler.Json
