import Scriptlet.Parser.Basic

/-!
Why advancing comes to an end. Each move takes a token or spends the limit,
until the parser is exhausted or, without a limit, stuck at the end of input.
-/

namespace Scriptlet.Parser

def isDrained (p : Parser) : Bool :=
  p.current.kind == .endOfInput && p.peek.kind == .endOfInput
    && p.cursor.next.1.kind == .endOfInput

/-- Advancing changes nothing that a search for a token could see. -/
def isStuck (p : Parser) : Bool :=
  p.policy.maxTokens.isNone && p.isDrained

def weight (token : Token) : Nat :=
  if token.kind = .endOfInput then 0 else 1

def distance (p : Parser) : Nat :=
  4 * p.cursor.rest.length + 2 * weight p.peek + weight p.current

/-- Bounds how often a parser can advance before it is stuck or exhausted. -/
def work (p : Parser) : Nat :=
  if p.exhausted then 0
  else 1 + p.distance + (p.policy.maxTokens.getD 0 - p.pulled)

theorem work_pos {p : Parser} (running : p.exhausted = false) : 0 < p.work := by
  rw [work, running, if_neg Bool.false_ne_true]
  omega

theorem weight_le (token : Token) : weight token ≤ 1 := by
  rw [weight]
  split <;> omega

theorem weight_eq_zero {token : Token} : weight token = 0 ↔ token.kind = .endOfInput := by
  simp [weight]

theorem shift_distance (p : Parser) : p.shift.distance ≤ p.distance ∧
    (p.isDrained = false → p.shift.distance < p.distance) := by
  have shorter := p.cursor.next_length_le
  have strictly := @Cursor.next_length_lt p.cursor
  have hc := weight_le p.current
  have hp := weight_le p.peek
  have hn := weight_le p.cursor.next.1
  rw [Ne, ← weight_eq_zero] at strictly
  have drained : p.isDrained = false ↔
      ¬(weight p.current = 0 ∧ weight p.peek = 0 ∧ weight p.cursor.next.1 = 0) := by
    simp [isDrained, weight_eq_zero, Bool.and_eq_true, ← Bool.not_eq_true, and_assoc]
  rw [drained]
  simp only [distance, shift]
  by_cases last : weight p.cursor.next.1 = 0
  · omega
  · have := strictly last
    omega

theorem exhaust_work (p : Parser) (limit : Nat) : (p.exhaust limit).work = 0 := rfl

theorem shift_work_le (p : Parser) : p.shift.work ≤ p.work := by
  have := p.shift_distance.1
  have policy : p.shift.policy = p.policy := rfl
  have flag : p.shift.exhausted = p.exhausted := rfl
  have count : p.shift.pulled = p.pulled + 1 := rfl
  simp only [work, policy, flag, count]
  split <;> omega

theorem advance_work_le (p : Parser) : p.advance.work ≤ p.work := by
  rcases p.advance_cases with ⟨-, stays⟩ | ⟨-, -, shifts⟩ | ⟨-, limit, -, -, stops⟩
  · exact Nat.le_of_eq (congrArg work stays)
  · rw [shifts]
    exact p.shift_work_le
  · rw [stops, exhaust_work]
    exact Nat.zero_le _

theorem advance_work_lt {p : Parser} (running : p.exhausted = false)
    (moves : p.isStuck = false) : p.advance.work < p.work := by
  have closer := p.shift_distance
  have flag : p.shift.exhausted = false := running
  have policy : p.shift.policy = p.policy := rfl
  have count : p.shift.pulled = p.pulled + 1 := rfl
  rcases p.advance_cases with ⟨spent, -⟩ | ⟨-, lasts, shifts⟩ | ⟨-, limit, -, -, stops⟩
  · simp [running] at spent
  · rw [shifts]
    simp only [work, flag, running, policy, count, Bool.false_eq_true, ↓reduceIte]
    cases limited : p.policy.maxTokens with
    | none =>
      have : p.isDrained = false := by simpa [isStuck, limited] using moves
      have := closer.2 this
      simp only [Option.getD_none]
      omega
    | some limit =>
      have := lasts limit limited
      simp only [Option.getD_some]
      omega
  · rw [stops, exhaust_work]
    exact work_pos running

end Scriptlet.Parser
