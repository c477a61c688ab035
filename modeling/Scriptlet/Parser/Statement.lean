import Scriptlet.Parser.Progress
import Scriptlet.Program

/-!
Reading one statement. A statement is read whole or not at all: whatever goes
wrong leaves a diagnostic and no statement. Without a limit the search for a
semicolon that never comes would not end, and its result is `none`.

All of this is made of steps that advance and steps that record a diagnostic. What both
kinds of step keep, every operation keeps.
-/

namespace Scriptlet.Parser

/-- Advances to the next semicolon, if the limit lasts that long. -/
def skipToSemicolon (p : Parser) : Option (Bool × Parser) :=
  if p.current.kind = .semicolon then some (true, p)
  else if p.exhausted then some (false, p)
  else if p.isStuck then none
  else p.advance.skipToSemicolon
termination_by p.work
decreasing_by exact advance_work_lt (by simp_all) (by simp_all)

def parseLet (p : Parser) : Option (Option Statement × Parser) :=
  match p.expectPeek .identifier with
  | (false, q) => some (none, q)
  | (true, q) =>
    match q.expectPeek .assign with
    | (false, r) => some (none, r)
    | (true, r) => r.skipToSemicolon.map fun (found, s) =>
      (if found then some (.letBinding p.current (.ofToken q.current) none) else none, s)

def parseReturn (p : Parser) : Option (Option Statement × Parser) :=
  p.advance.skipToSemicolon.map fun (found, q) =>
    (if found then some (.returnValue p.current none) else none, q)

/-- Reads the statement that the current token starts. One that starts none is
reported by a strict parser, and stays current. -/
def parseStatement (p : Parser) : Option (Option Statement × Parser) :=
  match p.current.kind with
  | .letWord => p.parseLet
  | .returnWord => p.parseReturn
  | kind =>
    let fault := .unrecognisedStatement kind p.current.literal
    some (none, if p.policy.strict then p.record ⟨fault, p.current.span.start⟩ else p)

/-- The way from one parser to another. On it a diagnostic is recorded only by
a parser that may record it. -/
inductive Moves (may : Parser → Diagnostic → Prop) : Parser → Parser → Prop
  | stay {p : Parser} : Moves may p p
  | advance {p q : Parser} (more : Moves may p.advance q) : Moves may p q
  | record {p q : Parser} {d : Diagnostic} (allowed : may p d) (more : Moves may (p.record d) q) :
      Moves may p q

section
variable {may : Parser → Diagnostic → Prop} {p q r : Parser}

theorem Moves.trans (h : p.Moves may q) (k : q.Moves may r) : p.Moves may r := by
  induction h with
  | stay => exact k
  | advance more ih => exact .advance (ih k)
  | record allowed more ih => exact .record allowed (ih k)

theorem skipToSemicolon_moves {found : Bool} (h : p.skipToSemicolon = some (found, q)) :
    p.Moves may q := by
  fun_induction skipToSemicolon p with
  | case1 p | case2 p =>
    obtain ⟨-, rfl⟩ := Prod.mk.inj (Option.some.inj h)
    exact .stay
  | case3 => simp at h
  | case4 p _ _ _ ih => exact .advance (ih h)

theorem parseReturn_moves {s : Option Statement} (h : p.parseReturn = some (s, q)) :
    p.advance.Moves may q := by
  obtain ⟨⟨found, r⟩, skipped, same⟩ := Option.map_eq_some_iff.1 h
  obtain ⟨-, rfl⟩ := Prod.mk.inj same
  exact skipToSemicolon_moves skipped

theorem expectPeek_moves (here : ∀ d : Diagnostic, d.isUnexpected → may p d)
    (kind : TokenKind) : p.Moves may (p.expectPeek kind).2 := by
  rw [expectPeek]
  split
  · exact .advance .stay
  · exact .record (here _ rfl) .stay

theorem running_of_expectPeek {kind : TokenKind} (h : p.expectPeek kind = (true, q)) :
    q.exhausted = false := by
  rw [expectPeek] at h
  split at h
  · obtain ⟨met, rfl⟩ := Prod.mk.inj h
    simpa using met
  · exact absurd (Prod.mk.inj h).1 Bool.false_ne_true

theorem parseLet_moves
    (running : ∀ (r : Parser) (d : Diagnostic), r.exhausted = false → d.isUnexpected → may r d)
    {s : Option Statement} (h : p.parseLet = some (s, q)) :
    (p.expectPeek .identifier).2.Moves may q ∧ ((p.expectPeek .identifier).1 →
      ((p.expectPeek .identifier).2.expectPeek .assign).2.Moves may q) := by
  rw [parseLet] at h
  split at h
  · next r opened =>
    obtain ⟨-, rfl⟩ := Prod.mk.inj (Option.some.inj h)
    rw [opened]
    exact ⟨.stay, fun impossible => absurd impossible Bool.false_ne_true⟩
  · next r opened =>
    have onward := expectPeek_moves (fun d => running r d (running_of_expectPeek opened)) .assign
    rw [opened]
    split at h
    · next t closed =>
      obtain ⟨-, rfl⟩ := Prod.mk.inj (Option.some.inj h)
      rw [closed] at onward ⊢
      exact ⟨onward, fun _ => .stay⟩
    · next t closed =>
      obtain ⟨⟨found, u⟩, skipped, same⟩ := Option.map_eq_some_iff.1 h
      obtain ⟨-, rfl⟩ := Prod.mk.inj same
      rw [closed] at onward ⊢
      exact ⟨onward.trans (skipToSemicolon_moves skipped), fun _ => skipToSemicolon_moves skipped⟩

theorem parseStatement_moves
    (running : ∀ (r : Parser) (d : Diagnostic), r.exhausted = false → d.isLimit = false → may r d)
    (here : ∀ d : Diagnostic, d.isLimit = false → may p d)
    {s : Option Statement} (h : p.parseStatement = some (s, q)) : p.Moves may q := by
  rw [parseStatement] at h
  split at h
  · have onward := parseLet_moves
      (fun r d lasts found => running r d lasts (d.not_isLimit_of_isUnexpected found)) h
    exact (expectPeek_moves (fun d found => here d (d.not_isLimit_of_isUnexpected found)) _).trans
      onward.1
  · exact .advance (parseReturn_moves h)
  · obtain ⟨-, rfl⟩ := Prod.mk.inj (Option.some.inj h)
    split
    · exact .record (here _ rfl) .stay
    · exact .stay

end

end Scriptlet.Parser
