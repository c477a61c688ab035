import Scriptlet.Proofs.Window

/-!
The tokens of a source as a stream without an end: behind the last of them, the
end of input, nothing else comes however often one asks. What a parser holds is
a window of two tokens on this stream, and its cursor stands right behind it.
-/

namespace Scriptlet

namespace Cursor

def after (c : Cursor) : Nat → Cursor
  | 0 => c
  | n + 1 => c.next.2.after n

theorem after_succ (c : Cursor) (n : Nat) : c.after (n + 1) = (c.after n).next.2 := by
  induction n generalizing c with
  | zero => rfl
  | succ n ih => exact ih c.next.2

theorem after_add (c : Cursor) (m n : Nat) : c.after (m + n) = (c.after m).after n := by
  induction n with
  | zero => rfl
  | succ n ih => rw [← Nat.add_assoc, after_succ, ih, after_succ]

theorem tokens_ne_nil (c : Cursor) : c.tokens ≠ [] := by
  obtain ⟨body, same, -⟩ := c.layout_tokens.ends
  simp [same]

/-- The tokens from a place on, the last of them for ever. -/
def stream (c : Cursor) (n : Nat) : Token :=
  c.tokens.getD n (c.tokens.getLast c.tokens_ne_nil)

theorem stream_zero (c : Cursor) : c.stream 0 = c.next.1 := by
  by_cases ended : c.next.1.kind = .endOfInput
  · simp [stream, tokens_of_end ended]
  · simp [stream, tokens_of_token ended]

theorem stream_succ (c : Cursor) (n : Nat) : c.stream (n + 1) = c.next.2.stream n := by
  by_cases ended : c.next.1.kind = .endOfInput
  · have tokens : c.next.2.tokens = [c.next.1] :=
      (tokens_next_of_end ended).trans (tokens_of_end ended)
    cases n with
    | zero => simp [stream, tokens_of_end ended, tokens]
    | succ n => simp [stream, tokens_of_end ended, tokens]
  · simp [stream, tokens_of_token ended, List.getLast_cons c.next.2.tokens_ne_nil]

theorem next_after (c : Cursor) (n : Nat) : (c.after n).next.1 = c.stream n := by
  induction n generalizing c with
  | zero => exact c.stream_zero.symm
  | succ n ih => rw [stream_succ, ← ih]; rfl

theorem after_of_fixed {c : Cursor} (fixed : c.next.2 = c) (n : Nat) : c.after n = c := by
  induction n with
  | zero => rfl
  | succ n ih => rw [after_succ, ih, fixed]

theorem after_of_end {c : Cursor} {m n : Nat} (ended : (c.stream m).kind = .endOfInput)
    (behind : m < n) : c.after n = c.after (m + 1) := by
  rw [← next_after] at ended
  have fixed : (c.after (m + 1)).next.2 = c.after (m + 1) := by
    rw [after_succ, next_next_of_end ended]
  obtain ⟨k, rfl⟩ := Nat.exists_eq_add_of_lt behind
  rw [Nat.add_right_comm, after_add, after_of_fixed fixed]

theorem tokens_after {c : Cursor} {body : List Token} {last : Token}
    (whole : c.tokens = body ++ [last]) (going : ∀ t ∈ body, t.kind ≠ .endOfInput)
    (ended : last.kind = .endOfInput) (n : Nat) : (c.after n).tokens = body.drop n ++ [last] := by
  induction n generalizing c body with
  | zero => exact whole
  | succ n ih =>
    by_cases final : c.next.1.kind = .endOfInput
    · have same := whole
      rw [tokens_of_end final] at same
      cases body with
      | nil =>
        have left := ih ((tokens_next_of_end final).trans whole) going
        rw [List.drop_nil] at left ⊢
        exact left
      | cons t body => simp at same
    · rw [tokens_of_token final] at whole
      obtain ⟨more, rfl, behind⟩ := cons_eq_concat whole (by rwa [ended])
      exact ih behind (List.forall_mem_cons.1 going).2

end Cursor

def stream (source : String) : Nat → Token :=
  (Cursor.ofSource source).stream

namespace Parser

/-- The window was filled from as many tokens on as the parser has left behind. -/
def Watches (p : Parser) (source : String) : Prop :=
  ∃ n, p.pulled = n + 2 ∧ p.Shows ((Cursor.ofSource source).after n)

section
variable {p : Parser} {source : String}

theorem watches_ofSource (policy : Policy) (source : String) :
    (ofSource policy source).Watches source :=
  ⟨0, rfl, shows_ofSource policy source⟩

theorem Watches.record (h : p.Watches source) (d : Diagnostic) : (p.record d).Watches source := by
  obtain ⟨n, pulled, shown⟩ := h
  exact ⟨n, pulled, shown.current, shown.peek, shown.cursor⟩

theorem Watches.shift (h : p.Watches source) : p.shift.Watches source := by
  obtain ⟨n, pulled, shown⟩ := h
  refine ⟨n + 1, congrArg (· + 1) pulled, ?_⟩
  rw [Cursor.after_succ]
  exact shown.shift

theorem Watches.exhaust (h : p.Watches source) (limit : Nat) :
    (p.exhaust limit).Watches source := by
  obtain ⟨n, pulled, shown⟩ := h
  exact ⟨n, pulled, shown.current, shown.peek, shown.cursor⟩

/-- The window and the cursor as the count of pulled tokens places them. -/
structure Aligned (p : Parser) (source : String) : Prop where
  two_le : 2 ≤ p.pulled
  current : p.current = stream source (p.pulled - 2)
  peek : p.peek = stream source (p.pulled - 1)
  cursor : ∀ n, (p.cursor.after n).next.1 = stream source (p.pulled + n)

theorem Watches.aligned (h : p.Watches source) : p.Aligned source := by
  obtain ⟨n, pulled, shown⟩ := h
  constructor
  · omega
  · rw [shown.current, pulled, Nat.add_sub_cancel]
    exact Cursor.next_after _ n
  · rw [shown.peek, pulled, ← Cursor.after_succ]
    exact Cursor.next_after _ (n + 1)
  · intro m
    rw [shown.cursor, ← Cursor.after_succ, ← Cursor.after_succ, ← Cursor.after_add, pulled]
    exact Cursor.next_after _ (n + 2 + m)

end

end Parser

end Scriptlet
