import Scriptlet.Proofs.Seam
import Scriptlet.Proofs.Strictness

/-!
A NUL in a source is its end. What stands behind it is in no token, and a parser that goes
on to ask for tokens is given the end of input as often as it asks. So all that can be told
apart of two parses is what their cursors have left unread.
-/

namespace Scriptlet

namespace Layout

variable {start : Nat} {input : List UInt8} {tokens : List Token}

theorem append_nul (h : Layout start input tokens) (more : List UInt8) :
    Layout start (input ++ 0 :: more) tokens := by
  have seam : ∀ b ∈ (0 :: more).head?, IsSeam b := by
    rintro b ⟨⟩
    exact .zero
  induction h with
  | @ending start gap rest blank ended =>
    rw [List.append_assoc]
    refine .ending blank fun b head => ?_
    cases rest with
    | nil => exact (Option.some.inj head).symm
    | cons c rest => exact ended b head
  | @token start gap rest lexeme tokens blank visible opens behind ih =>
    rw [List.append_assoc, List.append_assoc]
    exact .token blank visible (opens.extend_seam seam) ih

end Layout

theorem tokenize_append_nul (a b : String) : tokenize (a ++ "\x00" ++ b) = tokenize a := by
  have split : Text.bytes (a ++ "\x00" ++ b) = Text.bytes a ++ 0 :: Text.bytes b := by
    rw [Text.bytes_append, Text.bytes_append, List.append_assoc]
    rfl
  rw [tokenize, Cursor.ofSource, split]
  exact Cursor.tokens_of_layout ((Cursor.layout_tokenize a).append_nul (Text.bytes b))

theorem Diagnostic.eq_of_alike {ds es : List Diagnostic}
    (h : List.Forall₂ (Diagnostic.Alike Eq) ds es) : es = ds := by
  induction h with
  | nil => rfl
  | @cons d e ds es same more ih =>
    obtain ⟨fault, position⟩ := same
    obtain ⟨_, _⟩ := d
    obtain ⟨_, _⟩ := e
    obtain rfl := UInt32.toNat_inj.1 position
    dsimp only at fault
    rw [fault, ih]

namespace Parser

theorem Twins.eq {p q : Parser} (h : p.Twins Eq q) : q = { p with cursor := q.cursor } := by
  have current := h.current.eq
  have peek := h.peek.eq
  have diagnostics := Diagnostic.eq_of_alike h.diagnostics
  obtain ⟨-, policy, pulled, exhausted, -⟩ := h
  obtain ⟨_, _, _, _, _, _, _⟩ := p
  obtain ⟨_, _, _, _, _, _, _⟩ := q
  dsimp only at current peek diagnostics policy pulled exhausted
  subst current peek diagnostics policy pulled exhausted
  rfl

theorem parse?_of_tokens {source other : String} (policy : Policy)
    (same : tokenize other = tokenize source) :
    Both Eq (fun p q => q = { p with cursor := q.cursor }) (parse? policy source)
      (parse? policy other) := by
  have alike : List.Forall₂ (Token.Alike Eq) (tokenize source) (tokenize other) := by
    rw [same]
    exact List.forall₂_same.2 fun t _ => .refl t
  have both := parse?_alike policy alike
  generalize parse? policy source = r at both ⊢
  generalize parse? policy other = r' at both ⊢
  cases both with
  | none => exact .none
  | @some r r' h =>
    obtain ⟨statements, twins⟩ := h
    exact .some ⟨congrArg Program.mk (Statement.eq_of_alike statements).symm, twins.eq⟩

/-- With a NUL and anything behind it a source has the same tokens as without, and any parse
of it ends where that of the source alone ends, with the same program. Of the two parsers
nothing differs but their cursors: they hold the same two tokens, have pulled as many, have
found the same faults and have spent their limit or not. -/
theorem parse?_append_nul (a b : String) (policy : Policy) :
    let source := a ++ "\x00" ++ b
    tokenize source = tokenize a ∧
    (policy.maxTokens.isSome → (parse? policy a).isSome) ∧
    (parse? policy source = none ↔ parse? policy a = none) ∧
    ∀ program p, parse? policy a = some (program, p) →
      ∃ q, parse? policy source = some (program, q) ∧ q = { p with cursor := q.cursor } := by
  intro source
  have tokens : tokenize source = tokenize a := tokenize_append_nul a b
  have both := parse?_of_tokens policy tokens
  refine ⟨tokens, fun limited => parse?_isSome limited a, both.eq_none_iff.symm, ?_⟩
  intro program p parsed
  rw [parsed] at both
  obtain ⟨_, q, parsed', rfl, same⟩ := both.exists_some
  exact ⟨q, parsed', same⟩

example : parse? ⟨false, none⟩ ("return 1" ++ "\x00" ++ ";") = none := by decide +kernel

end Parser

end Scriptlet
