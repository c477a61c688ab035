import Scriptlet.Proofs.Budget

/-!
How the reading of a statement ends. Either the statement is there, nothing was reported
and the parser rests on its semicolon, or there is no statement and one diagnostic says
why. Only a `return` that is read from a semicolon with the limit spent ends otherwise:
the parser cannot leave that semicolon and takes it for the one it looks for.
-/

namespace Scriptlet.Parser

/-- The second parser is the first one, moved to the first semicolon from its current
token on, with nothing reported on the way. -/
structure Finds (p q : Parser) : Prop where
  diagnostics : q.diagnostics = p.diagnostics
  running : q.exhausted = false
  semicolon : q.current.kind = .semicolon
  first : ∃ n, q = p.advanced n ∧ ∀ k < n, (p.advanced k).current.kind ≠ .semicolon

/-- A whole statement up to the first semicolon behind the current token, or none and one
diagnostic. -/
inductive Concludes (p q : Parser) : Option Statement → Prop
  | read {s : Statement} (silent : q.diagnostics = p.diagnostics) (found : p.advance.Finds q) :
      Concludes p q (some s)
  | failed {d : Diagnostic} (reported : q.diagnostics = p.diagnostics ++ [d]) :
      Concludes p q none

def IsSpent (p : Parser) : Prop :=
  ∃ limit ∈ p.policy.maxTokens, limit ≤ p.pulled

section
variable {p q : Parser} {s : Option Statement}

theorem advance_ends (running : p.exhausted = false) :
    (¬p.IsSpent ∧ p.advance.exhausted = false ∧ p.advance.diagnostics = p.diagnostics) ∨
    (p.IsSpent ∧ p.advance.exhausted = true ∧ p.advance.current = p.current ∧
      ∃ d, p.advance.diagnostics = p.diagnostics ++ [d]) := by
  rcases p.advance_cases with ⟨spent, -⟩ | ⟨-, lasts, shifts⟩ | ⟨-, limit, limited, beyond, stops⟩
  · simp [running] at spent
  · left
    rw [shifts]
    refine ⟨?_, running, rfl⟩
    rintro ⟨limit, limited, beyond⟩
    exact absurd (lasts limit limited) (Nat.not_lt.2 beyond)
  · right
    rw [stops]
    exact ⟨⟨limit, limited, beyond⟩, rfl, rfl, _, rfl⟩

theorem finds_self (running : p.exhausted = false) (semicolon : p.current.kind = .semicolon) :
    p.Finds p :=
  ⟨rfl, running, semicolon, 0, rfl, fun k impossible => absurd impossible (Nat.not_lt_zero k)⟩

theorem Finds.of_advance (h : p.advance.Finds q) (silent : p.advance.diagnostics = p.diagnostics)
    (other : p.current.kind ≠ .semicolon) : p.Finds q := by
  obtain ⟨diagnostics, running, semicolon, n, reached, others⟩ := h
  refine ⟨diagnostics.trans silent, running, semicolon, n + 1, reached, fun k before => ?_⟩
  cases k with
  | zero => exact other
  | succ k => exact others k (Nat.lt_of_succ_lt_succ before)

theorem skipToSemicolon_of_current (semicolon : p.current.kind = .semicolon) :
    p.skipToSemicolon = some (true, p) := by
  rw [skipToSemicolon, if_pos semicolon]

theorem skipToSemicolon_ends {found : Bool} (running : p.exhausted = false)
    (h : p.skipToSemicolon = some (found, q)) :
    (found = true ∧ p.Finds q) ∨
    (found = false ∧ ∃ d, q.diagnostics = p.diagnostics ++ [d]) := by
  fun_induction skipToSemicolon p with
  | case1 p semicolon =>
    obtain ⟨rfl, rfl⟩ := Prod.mk.inj (Option.some.inj h)
    exact .inl ⟨rfl, finds_self running semicolon⟩
  | case2 p other spent => simp [running] at spent
  | case3 p other going stuck => simp at h
  | case4 p other going moves ih =>
    rcases advance_ends running with ⟨-, onward, silent⟩ | ⟨-, spent, stays, d, reported⟩
    · rcases ih onward h with ⟨rfl, found⟩ | ⟨rfl, d, reported⟩
      · exact .inl ⟨rfl, found.of_advance silent other⟩
      · exact .inr ⟨rfl, d, silent ▸ reported⟩
    · rw [skipToSemicolon_of_exhausted spent (by rwa [stays])] at h
      obtain ⟨rfl, rfl⟩ := Prod.mk.inj (Option.some.inj h)
      exact .inr ⟨rfl, d, reported⟩

theorem expectPeek_ends {kind : TokenKind} {met : Bool} (running : p.exhausted = false)
    (h : p.expectPeek kind = (met, q)) :
    (met = true ∧ q = p.advance ∧ q.exhausted = false ∧ q.diagnostics = p.diagnostics ∧
      q.current.kind = kind) ∨
    (met = false ∧ ∃ d, q.diagnostics = p.diagnostics ++ [d]) := by
  rw [expectPeek] at h
  split at h
  · next expected =>
    obtain ⟨rfl, rfl⟩ := Prod.mk.inj h
    rcases advance_ends running with ⟨-, onward, silent⟩ | ⟨-, spent, -, reported⟩
    · have current := advance_current onward
      exact .inl ⟨by rw [onward]; rfl, rfl, onward, silent, by rw [current, expected]⟩
    · exact .inr ⟨by rw [spent]; rfl, reported⟩
  · obtain ⟨rfl, rfl⟩ := Prod.mk.inj h
    exact .inr ⟨rfl, _, rfl⟩

theorem concludes_of_skip {r : Parser} {statement : Statement} (running : r.exhausted = false)
    (silent : r.diagnostics = p.diagnostics) (closes : ∀ q, r.Finds q → p.advance.Finds q)
    (h : r.skipToSemicolon.map
      (fun (found, t) => (if found then some statement else none, t)) = some (s, q)) :
    Concludes p q s := by
  obtain ⟨⟨found, t⟩, skipped, same⟩ := Option.map_eq_some_iff.1 h
  obtain ⟨rfl, rfl⟩ := Prod.mk.inj same
  rcases skipToSemicolon_ends running skipped with ⟨rfl, found⟩ | ⟨rfl, d, reported⟩
  · exact .read (found.diagnostics.trans silent) (closes _ found)
  · exact .failed (silent ▸ reported)

theorem parseLet_concludes (running : p.exhausted = false) (h : p.parseLet = some (s, q)) :
    Concludes p q s := by
  rw [parseLet] at h
  split at h
  · next r opened =>
    obtain ⟨rfl, rfl⟩ := Prod.mk.inj (Option.some.inj h)
    rcases expectPeek_ends running opened with ⟨impossible, -⟩ | ⟨-, d, reported⟩
    · exact absurd impossible Bool.false_ne_true
    · exact .failed reported
  · next r opened =>
    rcases expectPeek_ends running opened with ⟨-, rfl, onward, silent, named⟩ | ⟨impossible, -⟩
    · split at h
      · next t closed =>
        obtain ⟨rfl, rfl⟩ := Prod.mk.inj (Option.some.inj h)
        rcases expectPeek_ends onward closed with ⟨impossible, -⟩ | ⟨-, d, reported⟩
        · exact absurd impossible Bool.false_ne_true
        · exact .failed (silent ▸ reported)
      · next t closed =>
        rcases expectPeek_ends onward closed with ⟨-, rfl, further, still, -⟩ | ⟨impossible, -⟩
        · have other : p.advance.current.kind ≠ .semicolon := by simp [named]
          exact concludes_of_skip further (still.trans silent)
            (fun q found => found.of_advance still other) h
        · exact absurd impossible.symm Bool.false_ne_true
    · exact absurd impossible.symm Bool.false_ne_true

theorem parseReturn_of_spent (running : p.exhausted = false)
    (semicolon : p.current.kind = .semicolon) (spent : p.IsSpent) :
    p.parseReturn = some (some (.returnValue p.current none), p.advance) ∧
      p.advance.exhausted = true ∧ ∃ d, p.advance.diagnostics = p.diagnostics ++ [d] := by
  rcases advance_ends running with ⟨lasts, -⟩ | ⟨-, stopped, stays, reported⟩
  · exact absurd spent lasts
  · refine ⟨?_, stopped, reported⟩
    rw [parseReturn, skipToSemicolon_of_current (by rwa [stays])]
    rfl

/-- A `return` concludes unless its own token is a semicolon that it cannot leave. -/
theorem parseReturn_concludes_iff (running : p.exhausted = false)
    (h : p.parseReturn = some (s, q)) :
    Concludes p q s ↔ ¬(p.current.kind = .semicolon ∧ p.IsSpent) := by
  rcases advance_ends running with ⟨lasts, onward, silent⟩ | ⟨spent, stopped, stays, d, reported⟩
  · refine iff_of_true ?_ fun both => lasts both.2
    exact concludes_of_skip onward silent (fun q found => found) h
  · by_cases semicolon : p.current.kind = .semicolon
    · refine iff_of_false (fun concluded => ?_) fun neither => neither ⟨semicolon, spent⟩
      rw [(parseReturn_of_spent running semicolon spent).1] at h
      obtain ⟨rfl, rfl⟩ := Prod.mk.inj (Option.some.inj h)
      obtain ⟨-, found⟩ := concluded
      exact absurd found.running (by simp [stopped])
    · refine iff_of_true ?_ fun both => semicolon both.1
      rw [parseReturn, skipToSemicolon_of_exhausted stopped (by rwa [stays])] at h
      obtain ⟨rfl, rfl⟩ := Prod.mk.inj (Option.some.inj h)
      exact .failed reported

/-- A binding concludes, and so does a statement that begins with its own word. A `return`
read from another token concludes unless that is a semicolon and the limit is spent: then
the limit is reported, and yet there is a statement. -/
theorem parse_concludes (running : p.exhausted = false) :
    (p.parseLet = some (s, q) → Concludes p q s) ∧
    (p.current.kind = .letWord ∨ p.current.kind = .returnWord →
      p.parseStatement = some (s, q) → Concludes p q s) ∧
    (p.parseReturn = some (s, q) →
      (Concludes p q s ↔ ¬(p.current.kind = .semicolon ∧ p.IsSpent))) ∧
    (p.current.kind = .semicolon → p.IsSpent →
      p.parseReturn = some (some (.returnValue p.current none), p.advance) ∧
        p.advance.exhausted = true ∧ ∃ d, p.advance.diagnostics = p.diagnostics ++ [d]) := by
  refine ⟨parseLet_concludes running, fun opens h => ?_, parseReturn_concludes_iff running,
    parseReturn_of_spent running⟩
  rw [parseStatement] at h
  rcases opens with word | word
  · simp only [word] at h
    exact parseLet_concludes running h
  · simp only [word] at h
    refine (parseReturn_concludes_iff running h).2 fun both => ?_
    rw [word] at both
    exact absurd both.1 (by decide)

end

theorem parse_concludes_spent :
    let p := ofSource ⟨false, some 4⟩ "let a = 1;"
    p.exhausted = false ∧ ∃ s q, p.parseLet = some (s, q) ∧ q.exhausted ∧ Concludes p q s := by
  intro p
  have read : (p.parseLet.map (·.2.exhausted)) = some true := by decide +kernel
  obtain ⟨⟨s, q⟩, parsed, spent⟩ := Option.map_eq_some_iff.1 read
  exact ⟨rfl, s, q, parsed, spent, (parse_concludes rfl).1 parsed⟩

/-- A lone semicolon is read as a statement while the limit is reported. -/
theorem semicolon_not_concludes :
    let p := ofSource ⟨false, some 2⟩ ";"
    p.exhausted = false ∧ ∃ s q, p.parseReturn = some (some s, q) ∧ q.exhausted = true ∧
      q.diagnostics = [⟨.tokenLimitExceeded 2, 0⟩] ∧ ¬Concludes p q (some s) := by
  intro p
  refine ⟨rfl, .returnValue p.current none, p.advance, by decide +kernel, by decide +kernel,
    by decide +kernel, ?_⟩
  rintro ⟨silent, -⟩
  exact absurd silent (by decide +kernel)

end Scriptlet.Parser
