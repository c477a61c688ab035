import Scriptlet.Parser.Statement

/-!
What every step of a parser keeps: its policy stays, its measure does not
grow, and from a token of the source it never ends up resting on the end of
input. With a limit every step has a result. Without one, a search that has none is one
that would go on for ever: however often the parser advances, it is neither exhausted nor
at a semicolon.
-/

namespace Scriptlet.Parser

structure Follows (p q : Parser) : Prop where
  policy : q.policy = p.policy
  work : q.work ≤ p.work

theorem Follows.refl (p : Parser) : Follows p p := ⟨rfl, Nat.le_refl _⟩

theorem Follows.trans {p q r : Parser} (h : Follows p q) (k : Follows q r) : Follows p r :=
  ⟨k.policy.trans h.policy, Nat.le_trans k.work h.work⟩

theorem advance_policy (p : Parser) : p.advance.policy = p.policy := by
  rcases p.advance_cases with ⟨-, stays⟩ | ⟨-, -, shifts⟩ | ⟨-, limit, -, -, stops⟩
  · rw [stays]
  · rw [shifts, shift]
  · rw [stops, exhaust, record]

theorem advance_follows (p : Parser) : Follows p p.advance :=
  ⟨p.advance_policy, p.advance_work_le⟩

theorem record_follows (p : Parser) (d : Diagnostic) : Follows p (p.record d) :=
  ⟨rfl, Nat.le_refl _⟩

theorem Moves.follows {may : Parser → Diagnostic → Prop} {p q : Parser} (h : p.Moves may q) :
    Follows p q := by
  induction h with
  | stay => exact .refl _
  | advance more ih => exact (advance_follows _).trans ih
  | record allowed more ih => exact (record_follows _ _).trans ih

theorem expectPeek_follows (p : Parser) (kind : TokenKind) :
    Follows p (p.expectPeek kind).2 := by
  have moves : p.Moves (fun _ _ => True) _ := expectPeek_moves (fun _ _ => trivial) kind
  exact moves.follows

theorem parseStatement_follows {p q : Parser} {s : Option Statement}
    (h : p.parseStatement = some (s, q)) : Follows p q := by
  have moves : p.Moves (fun _ _ => True) q :=
    parseStatement_moves (fun _ _ _ _ => trivial) (fun _ _ => trivial) h
  exact moves.follows

/-- The parser rests on a token of the source, or for ever. -/
def Settled (p : Parser) : Prop :=
  p.exhausted ∨ p.current.kind ≠ .endOfInput

theorem skipToSemicolon_settled {p q : Parser} {found : Bool}
    (h : p.skipToSemicolon = some (found, q)) : q.Settled := by
  fun_induction skipToSemicolon p with
  | case1 p | case2 p => simp_all [Settled]
  | case3 => simp at h
  | case4 p _ _ _ ih => exact ih h

theorem skipToSemicolon_isSome {p : Parser} (limited : p.policy.maxTokens.isSome) :
    p.skipToSemicolon.isSome := by
  fun_induction skipToSemicolon p with
  | case1 | case2 => rfl
  | case3 p _ _ stuck => simp_all [isStuck]
  | case4 p _ _ _ ih => exact ih (p.advance_policy ▸ limited)

theorem advance_current {p : Parser} (h : p.advance.exhausted = false) :
    p.advance.current = p.peek := by
  rcases p.advance_cases with ⟨spent, stays⟩ | ⟨-, -, shifts⟩ | ⟨-, limit, -, -, stops⟩
  · simp [stays, spent] at h
  · rw [shifts, shift]
  · simp [stops, exhaust] at h

theorem expectPeek_settled {p : Parser} {kind : TokenKind} (start : p.Settled)
    (visible : kind ≠ .endOfInput) : (p.expectPeek kind).2.Settled := by
  rw [expectPeek]
  split
  · next matching =>
    by_cases spent : p.advance.exhausted
    · exact .inl spent
    · have := advance_current (Bool.eq_false_iff.2 spent)
      exact .inr (this ▸ matching ▸ visible)
  · exact start

theorem parseLet_settled {p q : Parser} {s : Option Statement} (start : p.Settled)
    (h : p.parseLet = some (s, q)) : q.Settled := by
  have first := @expectPeek_settled p .identifier start (by decide)
  rw [parseLet] at h
  split at h
  · simp_all
  · next r opened =>
    rw [opened] at first
    have second := @expectPeek_settled r .assign first (by decide)
    split at h
    · next t closed =>
      rw [closed] at second
      simp only [Option.some.injEq, Prod.mk.injEq] at h
      exact h.2 ▸ second
    · obtain ⟨⟨found, u⟩, skipped, same⟩ := Option.map_eq_some_iff.1 h
      simp only [Prod.mk.injEq] at same
      exact same.2 ▸ skipToSemicolon_settled skipped

theorem parseStatement_settled {p q : Parser} {s : Option Statement} (start : p.Settled)
    (h : p.parseStatement = some (s, q)) : q.Settled := by
  rw [parseStatement] at h
  split at h
  · exact parseLet_settled start h
  · obtain ⟨⟨found, r⟩, skipped, same⟩ := Option.map_eq_some_iff.1 h
    simp only [Prod.mk.injEq] at same
    exact same.2 ▸ skipToSemicolon_settled skipped
  · simp only [Option.some.injEq, Prod.mk.injEq] at h
    obtain ⟨-, rfl⟩ := h
    split <;> exact start

theorem parseLet_isSome {p : Parser} (limited : p.policy.maxTokens.isSome) :
    p.parseLet.isSome := by
  have carried {p q : Parser} (h : Follows p q) (limited : p.policy.maxTokens.isSome) :
      q.policy.maxTokens.isSome := h.policy ▸ limited
  have first := p.expectPeek_follows .identifier
  rw [parseLet]
  split
  · rfl
  · next q opened =>
    have second := q.expectPeek_follows .assign
    split
    · rfl
    · next r closed =>
      rw [opened] at first
      rw [closed] at second
      simpa using skipToSemicolon_isSome (carried second (carried first limited))

theorem parseReturn_isSome {p : Parser} (limited : p.policy.maxTokens.isSome) :
    p.parseReturn.isSome := by
  rw [← p.advance_policy] at limited
  simpa [parseReturn] using skipToSemicolon_isSome limited

theorem parseStatement_isSome {p : Parser} (limited : p.policy.maxTokens.isSome) :
    p.parseStatement.isSome := by
  rw [parseStatement]
  split
  · exact parseLet_isSome limited
  · exact parseReturn_isSome limited
  · rfl

theorem advance_of_stuck {p : Parser} (running : p.exhausted = false) (h : p.isStuck) :
    p.advance.exhausted = false ∧ p.advance.isStuck ∧ p.advance.diagnostics = p.diagnostics := by
  simp only [isStuck, isDrained, Bool.and_eq_true, beq_iff_eq, Option.isNone_iff_eq_none] at h
  obtain ⟨unlimited, ⟨-, peeked⟩, last⟩ := h
  have moved : p.advance = p.shift := by simp [advance, running, unlimited]
  rw [moved]
  refine ⟨running, ?_, rfl⟩
  simp [isStuck, isDrained, shift, unlimited, peeked, last, Cursor.next_next_of_end]

def advanced (p : Parser) : Nat → Parser
  | 0 => p
  | n + 1 => p.advance.advanced n

theorem advanced_of_stuck {p : Parser} (running : p.exhausted = false) (h : p.isStuck)
    (n : Nat) : (p.advanced n).exhausted = false ∧ (p.advanced n).isStuck := by
  induction n generalizing p with
  | zero => exact ⟨running, h⟩
  | succ n ih =>
    have next := advance_of_stuck running h
    exact ih next.1 next.2.1

theorem current_of_stuck {p : Parser} (h : p.isStuck) : p.current.kind = .endOfInput := by
  simp_all [isStuck, isDrained]

theorem skipToSemicolon_eq_none_iff {p : Parser} : p.skipToSemicolon = none ↔
    ∀ n, (p.advanced n).current.kind ≠ .semicolon ∧ (p.advanced n).exhausted = false := by
  fun_induction skipToSemicolon p with
  | case1 p found => simpa using ⟨0, fun other => absurd found other⟩
  | case2 p _ spent => simpa using ⟨0, fun _ => spent⟩
  | case3 p _ running stuck =>
    refine ⟨fun _ n => ?_, fun _ => rfl⟩
    have kept := advanced_of_stuck (Bool.eq_false_iff.2 running) stuck n
    exact ⟨by simp [current_of_stuck kept.2], kept.1⟩
  | case4 p other running _ ih =>
    rw [ih]
    refine ⟨fun h n => ?_, fun h n => h (n + 1)⟩
    cases n with
    | zero => exact ⟨other, Bool.eq_false_iff.2 running⟩
    | succ n => exact h n

end Scriptlet.Parser
