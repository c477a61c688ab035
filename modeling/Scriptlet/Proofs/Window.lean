import Scriptlet.Parser.Program
import Scriptlet.Proofs.Layout

/-!
What a parser has ahead. Its window of two tokens is a view of the token list
of its source, and every operation is a step on that list, as long as the limit
lasts. At the end of input a search for a semicolon goes on for ever, or until
the limit is spent.
-/

namespace Scriptlet

def Policy.Affords (policy : Policy) (count : Nat) : Prop :=
  ∀ limit ∈ policy.maxTokens, count ≤ limit

theorem Policy.affords_of_unlimited {policy : Policy} (unlimited : policy.maxTokens = none)
    (count : Nat) : policy.Affords count := by
  simp [Affords, unlimited]

namespace Parser

/-- The window was filled from here. -/
structure Shows (p : Parser) (c : Cursor) : Prop where
  current : p.current = c.next.1
  peek : p.peek = c.next.2.next.1
  cursor : p.cursor = c.next.2.next.2

theorem shows_ofSource (policy : Policy) (source : String) :
    (ofSource policy source).Shows (.ofSource source) :=
  ⟨rfl, rfl, rfl⟩

theorem Shows.shift {p : Parser} {c : Cursor} (h : p.Shows c) : p.shift.Shows c.next.2 :=
  ⟨h.peek, congrArg (·.next.1) h.cursor, congrArg (·.next.2) h.cursor⟩

/-- The tokens from the current one to the end of input. -/
def Ahead (p : Parser) (tokens : List Token) : Prop :=
  ∃ c, p.Shows c ∧ c.tokens = tokens

section
variable {p : Parser} {t u : Token} {rest : List Token}

theorem Ahead.exists_cursor (h : p.Ahead (t :: rest)) :
    ∃ c, p.Shows c ∧ c.next.1 = t ∧ c.tokens = t :: rest := by
  obtain ⟨c, shown, tokens⟩ := h
  refine ⟨c, shown, ?_, tokens⟩
  rw [Cursor.tokens] at tokens
  split at tokens
  · exact (List.cons.inj tokens).1
  · exact (List.cons.inj tokens).1

theorem Ahead.exists_cons {tokens : List Token} (h : p.Ahead tokens) :
    ∃ t rest, tokens = t :: rest := by
  obtain ⟨c, -, rfl⟩ := h
  rw [Cursor.tokens]
  split
  · exact ⟨_, _, rfl⟩
  · exact ⟨_, _, rfl⟩

theorem Ahead.current (h : p.Ahead (t :: rest)) : p.current = t := by
  obtain ⟨c, shown, rfl, -⟩ := h.exists_cursor
  exact shown.current

theorem Ahead.shift (h : p.Ahead (t :: rest)) (going : t.kind ≠ .endOfInput) :
    p.shift.Ahead rest := by
  obtain ⟨c, shown, rfl, tokens⟩ := h.exists_cursor
  rw [Cursor.tokens_of_token going] at tokens
  exact ⟨c.next.2, shown.shift, (List.cons.inj tokens).2⟩

theorem Ahead.rest_eq_nil (h : p.Ahead (t :: rest)) (ended : t.kind = .endOfInput) :
    rest = [] := by
  obtain ⟨c, shown, rfl, tokens⟩ := h.exists_cursor
  rw [Cursor.tokens_of_end ended] at tokens
  exact (List.cons.inj tokens).2.symm

theorem Ahead.shift_of_end (h : p.Ahead (t :: rest)) (ended : t.kind = .endOfInput) :
    p.shift.Ahead (t :: rest) := by
  obtain ⟨c, shown, rfl, tokens⟩ := h.exists_cursor
  exact ⟨c.next.2, shown.shift, (Cursor.tokens_next_of_end ended).trans tokens⟩

theorem Ahead.record {tokens : List Token} (h : p.Ahead tokens) (d : Diagnostic) :
    (p.record d).Ahead tokens := by
  obtain ⟨c, shown, same⟩ := h
  exact ⟨c, ⟨shown.current, shown.peek, shown.cursor⟩, same⟩

theorem Ahead.exhaust {tokens : List Token} (h : p.Ahead tokens) (limit : Nat) :
    (p.exhaust limit).Ahead tokens := by
  obtain ⟨c, shown, same⟩ := h
  exact ⟨c, ⟨shown.current, shown.peek, shown.cursor⟩, same⟩

theorem Ahead.peek (h : p.Ahead (t :: u :: rest)) : p.peek = u := by
  by_cases ended : t.kind = .endOfInput
  · exact absurd (h.rest_eq_nil ended) (List.cons_ne_nil _ _)
  · exact (h.shift ended).current

theorem Ahead.isDrained_iff (h : p.Ahead (t :: rest)) :
    p.isDrained ↔ t.kind = .endOfInput := by
  have current := h.current
  constructor
  · intro drained
    simp only [isDrained, Bool.and_eq_true, beq_iff_eq] at drained
    exact current ▸ drained.1.1
  · intro ended
    have once := h.shift_of_end ended
    have twice := once.shift_of_end ended
    have peek : p.peek = t := once.current
    have next : p.cursor.next.1 = t := twice.current
    simp [isDrained, current, peek, next, ended]

end

/-- A running parser that has come to some of all the tokens of its source. It
has pulled two tokens more than it has left behind. -/
structure Faces (p : Parser) (policy : Policy) (all tokens : List Token)
    (diagnostics : List Diagnostic) : Prop where
  ahead : p.Ahead tokens
  suffix : tokens <:+ all
  policy : p.policy = policy
  running : p.exhausted = false
  pulled : p.pulled + tokens.length = all.length + 2
  diagnostics : p.diagnostics = diagnostics

theorem faces_ofSource (policy : Policy) (source : String) :
    (ofSource policy source).Faces policy (tokenize source) (tokenize source) [] :=
  ⟨⟨_, shows_ofSource policy source, rfl⟩, List.suffix_rfl, rfl, rfl, Nat.add_comm _ _, rfl⟩

structure Spent (p : Parser) (limit : Nat) (diagnostics : List Diagnostic) : Prop where
  exhausted : p.exhausted = true
  pulled : p.pulled = limit
  diagnostics : p.diagnostics = diagnostics

def unexpected (expected : TokenKind) (t : Token) : Diagnostic :=
  ⟨.unexpectedToken expected t.kind t.literal, t.span.start⟩

def unrecognised (t : Token) : Diagnostic :=
  ⟨.unrecognisedStatement t.kind t.literal, t.span.start⟩

def outOfTokens (limit : Nat) (t : Token) : Diagnostic :=
  ⟨.tokenLimitExceeded limit, t.span.start⟩

section
variable {p : Parser} {policy : Policy} {all rest : List Token} {t u : Token}
  {ds : List Diagnostic}

theorem Faces.record (h : p.Faces policy all rest ds) (d : Diagnostic) :
    (p.record d).Faces policy all rest (ds ++ [d]) := by
  obtain ⟨ahead, suffix, same, running, pulled, found⟩ := h
  exact ⟨ahead.record d, suffix, same, running, pulled, congrArg (· ++ [d]) found⟩

theorem advance_of_exhausted (h : p.exhausted) : p.advance = p := by
  rw [advance, if_pos h]

theorem advance_eq_shift (running : p.exhausted = false)
    (lasts : p.policy.Affords (p.pulled + 1)) : p.advance = p.shift := by
  rcases p.advance_cases with ⟨spent, -⟩ | ⟨-, -, shifts⟩ | ⟨-, limit, limited, beyond, -⟩
  · simp [running] at spent
  · exact shifts
  · have := lasts limit limited
    omega

theorem Faces.advance (h : p.Faces policy all (t :: rest) ds)
    (lasts : policy.Affords (all.length + 1)) (going : t.kind ≠ .endOfInput) :
    p.advance.Faces policy all rest ds := by
  have next := h.ahead.shift going
  have pulled := h.pulled
  obtain ⟨u, us, rfl⟩ := next.exists_cons
  simp only [List.length_cons] at pulled
  have lasts' : p.policy.Affords (p.pulled + 1) := by
    intro limit limited
    have := lasts limit (h.policy ▸ limited)
    omega
  rw [advance_eq_shift h.running lasts']
  refine ⟨next, (List.suffix_cons t _).trans h.suffix, h.policy, h.running, ?_, h.diagnostics⟩
  simp only [Parser.shift, List.length_cons]
  omega

theorem Faces.expectPeek_met (h : p.Faces policy all (t :: u :: rest) ds)
    (lasts : policy.Affords (all.length + 1)) : p.expectPeek u.kind = (true, p.advance) := by
  have going : t.kind ≠ .endOfInput := fun ended => by simpa using h.ahead.rest_eq_nil ended
  have next := h.advance lasts going
  rw [expectPeek, if_pos (congrArg Token.kind h.ahead.peek), next.running]
  rfl

theorem Faces.expectPeek_unmet (h : p.Faces policy all (t :: u :: rest) ds)
    {kind : TokenKind} (other : u.kind ≠ kind) :
    p.expectPeek kind = (false, p.record (unexpected kind u)) := by
  have peek := h.ahead.peek
  rw [expectPeek, if_neg (by rw [peek]; exact other), peek]
  rfl

theorem skipToSemicolon_step (running : p.exhausted = false)
    (other : p.current.kind ≠ .semicolon) (moves : p.isStuck = false) :
    p.skipToSemicolon = p.advance.skipToSemicolon := by
  rw [skipToSemicolon, if_neg other, running, moves]
  rfl

theorem Faces.skipToSemicolon_advance (h : p.Faces policy all (t :: rest) ds)
    (going : t.kind ≠ .endOfInput) (other : t.kind ≠ .semicolon) :
    p.skipToSemicolon = p.advance.skipToSemicolon := by
  refine skipToSemicolon_step h.running (by rwa [h.ahead.current]) ?_
  have drained : p.isDrained = false := by simpa using mt h.ahead.isDrained_iff.1 going
  simp [isStuck, drained]

theorem Faces.skipToSemicolon_found {skipped : List Token}
    (h : p.Faces policy all (skipped ++ t :: rest) ds) (lasts : policy.Affords (all.length + 1))
    (others : ∀ s ∈ skipped, s.kind ≠ .semicolon) (found : t.kind = .semicolon) :
    ∃ q, p.skipToSemicolon = some (true, q) ∧ q.Faces policy all (t :: rest) ds := by
  induction skipped generalizing p with
  | nil =>
    refine ⟨p, ?_, h⟩
    rw [skipToSemicolon, if_pos (by rw [h.ahead.current, found])]
  | cons s skipped ih =>
    have going : s.kind ≠ .endOfInput := fun ended => by simpa using h.ahead.rest_eq_nil ended
    rw [h.skipToSemicolon_advance going (others s List.mem_cons_self)]
    exact ih (h.advance lasts going) (List.forall_mem_cons.1 others).2

theorem Faces.skipToSemicolon_endless {tokens : List Token}
    (h : p.Faces policy all tokens ds) (unlimited : policy.maxTokens = none)
    (missing : ∀ t ∈ tokens, t.kind ≠ .semicolon) : p.skipToSemicolon = none := by
  induction tokens generalizing p with
  | nil =>
    obtain ⟨t, rest, impossible⟩ := h.ahead.exists_cons
    exact absurd impossible (by simp)
  | cons t rest ih =>
    have other := missing t List.mem_cons_self
    by_cases ended : t.kind = .endOfInput
    · have stuck : p.isStuck := by
        simp [isStuck, h.ahead.isDrained_iff.2 ended, h.policy, unlimited]
      rw [skipToSemicolon, if_neg (by rwa [h.ahead.current]), h.running, stuck]
      rfl
    · have next := h.advance (Policy.affords_of_unlimited unlimited _) ended
      rw [h.skipToSemicolon_advance ended other]
      exact ih next (List.forall_mem_cons.1 missing).2

theorem Ahead.skipToSemicolon_spent (h : p.Ahead (t :: rest)) (ended : t.kind = .endOfInput)
    (running : p.exhausted = false) {limit : Nat} (limited : p.policy.maxTokens = some limit)
    (lasts : p.pulled ≤ limit) : ∃ q, p.skipToSemicolon = some (false, q) ∧
      q.Spent limit (p.diagnostics ++ [outOfTokens limit t]) := by
  -- The window stays as it is, so only what is left of the limit can carry the induction.
  generalize left : limit - p.pulled = n
  induction n generalizing p with
  | zero =>
    have last : p.pulled = limit := by omega
    have exhausts : p.advance = p.exhaust limit := by simp [advance, running, limited, last]
    have other : p.current.kind ≠ .semicolon := by simp [h.current, ended]
    have same : (p.exhaust limit).current = p.current := rfl
    have spent : (p.exhaust limit).exhausted = true := rfl
    refine ⟨p.exhaust limit, ?_, rfl, last, ?_⟩
    · rw [skipToSemicolon_step running other (by simp [isStuck, limited]), exhausts,
        skipToSemicolon, same, if_neg other, spent, if_pos rfl]
    · rw [← h.current]
      rfl
  | succ n ih =>
    have other : p.current.kind ≠ .semicolon := by simp [h.current, ended]
    have lasts' : p.policy.Affords (p.pulled + 1) := by
      intro limit' found
      obtain rfl : limit = limit' := by simpa [limited] using found
      omega
    have count : p.shift.pulled = p.pulled + 1 := rfl
    rw [skipToSemicolon_step running other (by simp [isStuck, limited]),
      advance_eq_shift running lasts']
    exact ih (h.shift_of_end ended) running limited (by omega) (by omega)

theorem Faces.skipToSemicolon_spent {skipped : List Token} {limit : Nat}
    (h : p.Faces policy all (skipped ++ [t]) ds) (ended : t.kind = .endOfInput)
    (limited : policy.maxTokens = some limit) (lasts : policy.Affords (all.length + 1))
    (missing : ∀ s ∈ skipped, s.kind ≠ .semicolon) : ∃ q, p.skipToSemicolon = some (false, q) ∧
      q.Spent limit (ds ++ [outOfTokens limit t]) := by
  induction skipped generalizing p with
  | nil =>
    have pulled := h.pulled
    have within := lasts limit limited
    simp only [List.nil_append, List.length_singleton] at pulled
    rw [← h.diagnostics]
    exact h.ahead.skipToSemicolon_spent ended h.running (h.policy ▸ limited) (by omega)
  | cons s skipped ih =>
    have going : s.kind ≠ .endOfInput := fun ended => by simpa using h.ahead.rest_eq_nil ended
    rw [h.skipToSemicolon_advance going (missing s List.mem_cons_self)]
    exact ih (h.advance lasts going) (List.forall_mem_cons.1 missing).2

end

end Parser

end Scriptlet
