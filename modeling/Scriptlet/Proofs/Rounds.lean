import Scriptlet.Proofs.Window

/-!
The program loop, round by round. A round reads what the current token starts
and advances once more. The only way for a round to have no end is a search for
a semicolon that is not there.
-/

namespace Scriptlet.Parser

/-- The loop has come from `p` to `q`, and these statements are complete. -/
inductive Reaches : Parser → List Statement → Parser → Prop
  | stay {p : Parser} : Reaches p [] p
  | round {p q r : Parser} {s : Option Statement} {statements : List Statement}
      (going : p.current.kind ≠ .endOfInput) (running : p.exhausted = false)
      (parsed : p.parseStatement = some (s, q)) (more : Reaches q.advance statements r) :
      Reaches p (s.toList ++ statements) r

/-- The statement that starts at `p` has been read up to `r`, and all that it
lacks is its semicolon. -/
inductive Searches (p : Parser) : Statement → Parser → Prop
  | letBinding {q r : Parser} (word : p.current.kind = .letWord)
      (named : p.expectPeek .identifier = (true, q)) (assigned : q.expectPeek .assign = (true, r)) :
      Searches p (.letBinding p.current (.ofToken q.current) none) r
  | returnValue (word : p.current.kind = .returnWord) :
      Searches p (.returnValue p.current none) p.advance

section
variable {p q r : Parser} {s : Option Statement} {statements : List Statement}

theorem parseStatements_of_done (h : p.current.kind = .endOfInput ∨ p.exhausted) :
    p.parseStatements = some ([], p) := by
  rw [parseStatements, if_pos h]

theorem parseStatements_of_round (going : p.current.kind ≠ .endOfInput)
    (running : p.exhausted = false) (parsed : p.parseStatement = some (s, q)) :
    p.parseStatements =
      q.advance.parseStatements.map fun (more, r) => (s.toList ++ more, r) := by
  rw [parseStatements, if_neg (by simp [going, running])]
  split <;> simp_all

theorem parseStatements_of_endless (going : p.current.kind ≠ .endOfInput)
    (running : p.exhausted = false) (endless : p.parseStatement = none) :
    p.parseStatements = none := by
  rw [parseStatements, if_neg (by simp [going, running])]
  split <;> simp_all

theorem exists_round_of_parseStatements (going : p.current.kind ≠ .endOfInput)
    (running : p.exhausted = false) (h : p.parseStatements = some (statements, r)) :
    ∃ s q more, p.parseStatement = some (s, q) ∧ q.advance.parseStatements = some (more, r) ∧
      statements = s.toList ++ more := by
  cases first : p.parseStatement with
  | none => simp [parseStatements_of_endless going running first] at h
  | some read =>
    obtain ⟨s, q⟩ := read
    rw [parseStatements_of_round going running first] at h
    obtain ⟨⟨more, r'⟩, onward, same⟩ := Option.map_eq_some_iff.1 h
    obtain ⟨rfl, rfl⟩ := Prod.mk.inj same
    exact ⟨s, q, more, rfl, onward, rfl⟩

theorem parseStatements_of_parseProgram {program : Program}
    (h : p.parseProgram = some (program, q)) :
    p.parseStatements = some (program.statements, q) := by
  obtain ⟨⟨statements, r⟩, read, same⟩ := Option.map_eq_some_iff.1 h
  obtain ⟨rfl, rfl⟩ := Prod.mk.inj same
  exact read

theorem parseStatements_moves {may : Parser → Diagnostic → Prop}
    (running : ∀ (r : Parser) (d : Diagnostic),
      r.exhausted = false → d.isLimit = false → may r d)
    (h : p.parseStatements = some (statements, q)) : p.Moves may q := by
  fun_induction parseStatements p generalizing statements with
  | case1 p =>
    obtain ⟨-, rfl⟩ := Prod.mk.inj (Option.some.inj h)
    exact .stay
  | case2 => simp at h
  | case3 p going s r parsed ih =>
    rw [not_or, Bool.not_eq_true] at going
    obtain ⟨⟨more, r'⟩, onward, same⟩ := Option.map_eq_some_iff.1 h
    obtain ⟨-, rfl⟩ := Prod.mk.inj same
    have first := parseStatement_moves running (fun d => running p d going.2) parsed
    exact first.trans (.advance (ih onward))

theorem Reaches.parseStatements_eq (h : p.Reaches statements q) : p.parseStatements =
    q.parseStatements.map fun (more, r) => (statements ++ more, r) := by
  induction h with
  | stay => simp
  | round going running parsed more ih =>
    rw [parseStatements_of_round going running parsed, ih, Option.map_map]
    simp [Function.comp_def, List.append_assoc]

theorem Searches.parseStatement_eq {statement : Statement} (h : p.Searches statement r) :
    p.parseStatement =
      r.skipToSemicolon.map fun (found, q) => (if found then some statement else none, q) := by
  cases h with
  | letBinding word named assigned =>
    simp only [parseStatement, word, parseLet, named, assigned]
  | returnValue word =>
    simp only [parseStatement, word, parseReturn]

theorem Searches.going {statement : Statement} (h : p.Searches statement r) :
    p.current.kind ≠ .endOfInput := by
  cases h with
  | letBinding word => simp [word]
  | returnValue word => simp [word]

theorem advanced_of_unlimited (unlimited : p.policy.maxTokens = none) (n : Nat) :
    (p.advanced n).diagnostics = p.diagnostics := by
  induction n generalizing p with
  | zero => rfl
  | succ n ih =>
    have kept : p.advance.diagnostics = p.diagnostics := by
      rw [advance, unlimited]
      split
      · rfl
      · rfl
    rw [advanced, ih (p.advance_policy ▸ unlimited), kept]

end

end Scriptlet.Parser
