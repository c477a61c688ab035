import Scriptlet.Parser.Follows

/-!
Reading a whole program. Tokens that start no statement are stepped over, so
one mistake does not hide the statements after it. Without a limit a parse may
have no end, and with one it always has.
-/

namespace Scriptlet

namespace Parser

theorem advance_after_statement_lt {p q : Parser} {s : Option Statement}
    (going : ¬(p.current.kind = .endOfInput ∨ p.exhausted = true))
    (h : p.parseStatement = some (s, q)) : q.advance.work < p.work := by
  simp only [not_or, Bool.not_eq_true] at going
  have kept := (parseStatement_follows h).work
  rcases parseStatement_settled (.inr going.1) h with spent | visible
  · have : q.advance.work = 0 := by simp [advance, work, spent]
    have := work_pos going.2
    omega
  · have moves : q.isStuck = false := by simp [isStuck, isDrained, visible]
    by_cases spent : q.exhausted
    · have : q.advance.work = 0 := by simp [advance, work, spent]
      have := work_pos going.2
      omega
    · exact Nat.lt_of_lt_of_le (advance_work_lt (Bool.eq_false_iff.2 spent) moves) kept

def parseStatements (p : Parser) : Option (List Statement × Parser) :=
  if p.current.kind = .endOfInput ∨ p.exhausted then some ([], p)
  else match _h : p.parseStatement with
    | none => none
    | some (statement, q) =>
      q.advance.parseStatements.map fun (statements, r) => (statement.toList ++ statements, r)
termination_by p.work
decreasing_by exact advance_after_statement_lt ‹_› ‹_›

def parseProgram (p : Parser) : Option (Program × Parser) :=
  p.parseStatements.map fun (statements, q) => (⟨statements⟩, q)

theorem parseStatements_isSome {p : Parser} (limited : p.policy.maxTokens.isSome) :
    p.parseStatements.isSome := by
  fun_induction parseStatements p with
  | case1 => rfl
  | case2 p _ endless =>
    have := parseStatement_isSome limited
    simp_all
  | case3 p _ s q h ih =>
    have kept := (parseStatement_follows h).policy
    simpa using ih (by rw [advance_policy, kept]; exact limited)

end Parser

/-- The program that a source holds, and the parser that has read it. -/
def parse? (policy : Policy) (source : String) : Option (Program × Parser) :=
  (Parser.ofSource policy source).parseProgram

theorem parse?_isSome {policy : Policy} (limited : policy.maxTokens.isSome) (source : String) :
    (parse? policy source).isSome := by
  simpa [parse?, Parser.parseProgram] using
    Parser.parseStatements_isSome (p := .ofSource policy source) limited

/-- Parses under the limit of the policy, or one that the source gives. -/
def parse (policy : Policy) (source : String) : Program × Parser :=
  (parse? (policy.limitedFor source) source).get
    (parse?_isSome (policy.limitedFor_isSome source) source)

end Scriptlet
