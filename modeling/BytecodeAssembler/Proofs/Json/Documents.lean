import BytecodeAssembler.Json.Reader
import BytecodeAssembler.Proofs.Json.Tokens

/-! # Documents read back

From its tokens every document is built again, so a well-formed one reads back from its text.
-/
namespace BytecodeAssembler.Json

namespace Reader

/-- What is read where a value is due leaves the reader with this document. -/
def Builds (ts : List Token) (j : Json) : Prop :=
  ∀ open_, ts.foldlM step ⟨open_, .value⟩ = some ⟨open_, .next j⟩

/-- What stands between commas is read one after the other. -/
theorem foldlM_separated {α : Type} {f : α → List Token} (close : Token)
    (start : List α → Reader) (stop : List α → α → Reader) (done : List α → Reader)
    (hcomma : ∀ rev x, step (stop rev x) .comma = some (start (x :: rev)))
    (hclose : ∀ rev x, step (stop rev x) close = some (done (x :: rev).reverse)) {x : α}
    {xs : List α} (h : ∀ y ∈ x :: xs, ∀ rev, (f y).foldlM step (start rev) = some (stop rev y))
    (rev : List α) :
    ([Token.comma].intercalate ((x :: xs).map f) ++ [close]).foldlM step (start rev) =
      some (done (rev.reverse ++ x :: xs)) := by
  induction xs generalizing x rev with
  | nil =>
    have hx := h x List.mem_cons_self rev
    rw [List.map_singleton, List.intercalate_singleton, List.foldlM_append, hx]
    simpa using hclose rev x
  | cons y ys ih =>
    obtain ⟨hx, hrest⟩ := List.forall_mem_cons.mp h
    rw [List.map_cons, List.map_cons, List.intercalate_cons_cons, List.append_assoc,
      List.append_assoc, List.foldlM_append, hx, Option.bind_eq_bind, Option.bind_some,
      List.singleton_append, List.foldlM_cons, hcomma]
    simpa using ih hrest (x :: rev)

theorem Builds.member {m : List Char × Json} (h : Builds m.2.tokens m.2)
    (open_ : List Container) (rev : List (List Char × Json)) :
    (Token.string m.1 :: .colon :: m.2.tokens).foldlM step ⟨open_, .name rev⟩ =
      some ⟨.object rev m.1 :: open_, .next m.2⟩ := by
  have hname : step ⟨open_, .name rev⟩ (.string m.1) = some ⟨open_, .colon rev m.1⟩ := by
    cases rev <;> rfl
  rw [List.foldlM_cons, hname]
  exact h _

/-- The first item of an array is read like any other, for none begins with the end of the array. -/
theorem foldlM_item (x : Json) (xs : List Json) (ts : List Token) (open_ : List Container) :
    ([Token.comma].intercalate ((x :: xs).map tokens) ++ ts).foldlM step ⟨open_, .item⟩ =
      ([Token.comma].intercalate ((x :: xs).map tokens) ++ ts).foldlM step ⟨open_, .value⟩ := by
  obtain ⟨rest, hrest⟩ : ∃ rest, [Token.comma].intercalate ((x :: xs).map tokens) ++ ts =
      x.tokens ++ rest := by
    cases xs with
    | nil => exact ⟨ts, by simp⟩
    | cons y ys =>
      rw [List.map_cons, List.map_cons, List.intercalate_cons_cons, List.append_assoc,
        List.append_assoc]
      exact ⟨_, rfl⟩
  rw [hrest]
  cases x with
  | null | bool | number | string => simp [tokens, step]
  | array | object => simp [tokens, step]

theorem builds_tokens (j : Json) : Builds j.tokens j := by
  fun_induction tokens j with
  | case1 raw => exact fun _ => rfl
  | case2 items ih =>
    intro open_
    cases items with
    | nil => rfl
    | cons x xs =>
      have hopen : step ⟨open_, .value⟩ .openArray = some ⟨.array [] :: open_, .item⟩ := rfl
      rw [List.cons_append, List.foldlM_cons, hopen]
      exact (foldlM_item x xs _ _).trans <|
        foldlM_separated .closeArray (fun rev => ⟨.array rev :: open_, .value⟩)
          (fun rev x => ⟨.array rev :: open_, .next x⟩)
          (fun items => ⟨open_, .next (.array items)⟩)
          (fun _ _ => rfl) (fun _ _ => rfl) (fun y hy _ => ih y hy _) []
  | case3 members ih =>
    intro open_
    cases members with
    | nil => rfl
    | cons m ms =>
      exact foldlM_separated .closeObject (fun rev => ⟨open_, .name rev⟩)
        (fun rev m => ⟨.object rev m.1 :: open_, .next m.2⟩)
        (fun members => ⟨open_, .next (.object members)⟩)
        (fun _ _ => rfl) (fun _ _ => rfl) (fun n hn rev => (ih n hn).member open_ rev) []
  | case4 j => exact fun _ => rfl

end Reader

theorem ofTokens?_tokens (j : Json) : ofTokens? j.tokens = some j := by
  rw [ofTokens?, Reader.builds_tokens j []]
  rfl

/-- A well-formed document reads back from its text. -/
theorem ofChars?_chars {j : Json} (h : j.WellFormed) : ofChars? j.chars = some j := by
  rw [ofChars?, Token.ofChars?_chars h, Option.bind_some, ofTokens?_tokens]

end BytecodeAssembler.Json
