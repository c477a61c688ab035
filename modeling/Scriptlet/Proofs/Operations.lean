import Scriptlet.Proofs.Budget
import Scriptlet.Proofs.Stream

/-!
A parser in the hands of a user, who may call its operations in any order. What
holds then is what every single step keeps: the window stays on the stream of
tokens, nothing that was recorded is lost, and a parser whose limit is spent has
said so once and stays where it is.
-/

namespace Scriptlet

inductive Operation
  | advance
  | expectPeek (kind : TokenKind)
  | parseStatement
  | parseLet
  | parseReturn
  | parseProgram
  | record (d : Diagnostic)
deriving DecidableEq

namespace Parser

/-- The parser after an operation, unless the operation has no end. -/
def perform? (p : Parser) : Operation → Option Parser
  | .advance => some p.advance
  | .expectPeek kind => some (p.expectPeek kind).2
  | .parseStatement => p.parseStatement.map Prod.snd
  | .parseLet => p.parseLet.map Prod.snd
  | .parseReturn => p.parseReturn.map Prod.snd
  | .parseProgram => p.parseProgram.map Prod.snd
  | .record d => some (p.record d)

def performAll? (p : Parser) : List Operation → Option Parser
  | [] => some p
  | operation :: more => (p.perform? operation).bind (·.performAll? more)

section
variable {may : Parser → Diagnostic → Prop} {p q : Parser}

theorem perform?_moves (faults : ∀ (r : Parser) (d : Diagnostic), d.isLimit = false → may r d)
    {operation : Operation} (given : ∀ r d, operation = .record d → may r d)
    (h : p.perform? operation = some q) : p.Moves may q := by
  have running (r : Parser) (d : Diagnostic) (_ : r.exhausted = false) := faults r d
  have unexpected (r : Parser) (d : Diagnostic) (found : d.isUnexpected) :=
    faults r d (d.not_isLimit_of_isUnexpected found)
  cases operation with
  | advance =>
    obtain rfl := Option.some.inj h
    exact .advance .stay
  | expectPeek kind =>
    obtain rfl := Option.some.inj h
    exact expectPeek_moves (unexpected p) kind
  | parseStatement =>
    obtain ⟨⟨s, r⟩, parsed, rfl⟩ := Option.map_eq_some_iff.1 h
    exact parseStatement_moves running (faults p) parsed
  | parseLet =>
    obtain ⟨⟨s, r⟩, parsed, rfl⟩ := Option.map_eq_some_iff.1 h
    have onward := parseLet_moves (fun r d _ => unexpected r d) parsed
    exact (expectPeek_moves (unexpected p) _).trans onward.1
  | parseReturn =>
    obtain ⟨⟨s, r⟩, parsed, rfl⟩ := Option.map_eq_some_iff.1 h
    exact .advance (parseReturn_moves parsed)
  | parseProgram =>
    obtain ⟨⟨program, r⟩, parsed, rfl⟩ := Option.map_eq_some_iff.1 h
    exact parseStatements_moves running (parseStatements_of_parseProgram parsed)
  | record d =>
    obtain rfl := Option.some.inj h
    exact .record (given p d rfl) .stay

theorem performAll?_moves (faults : ∀ (r : Parser) (d : Diagnostic), d.isLimit = false → may r d)
    {operations : List Operation} (given : ∀ r d, .record d ∈ operations → may r d)
    (h : p.performAll? operations = some q) : p.Moves may q := by
  induction operations generalizing p with
  | nil =>
    obtain rfl := Option.some.inj h
    exact .stay
  | cons operation more ih =>
    obtain ⟨r, first, onward⟩ := Option.bind_eq_some_iff.1 h
    have here : p.Moves may r := by
      apply perform?_moves faults _ first
      rintro r d rfl
      exact given r d List.mem_cons_self
    exact here.trans (ih (fun r d found => given r d (List.mem_cons_of_mem _ found)) onward)

theorem perform?_isSome (limited : p.policy.maxTokens.isSome) (operation : Operation) :
    (p.perform? operation).isSome := by
  cases operation with
  | advance => rfl
  | expectPeek kind => rfl
  | parseStatement => simpa [perform?] using parseStatement_isSome limited
  | parseLet => simpa [perform?] using parseLet_isSome limited
  | parseReturn => simpa [perform?] using parseReturn_isSome limited
  | parseProgram => simpa [perform?, parseProgram] using parseStatements_isSome limited
  | record d => rfl

theorem performAll?_isSome (limited : p.policy.maxTokens.isSome) (operations : List Operation) :
    (p.performAll? operations).isSome := by
  induction operations generalizing p with
  | nil => rfl
  | cons operation more ih =>
    obtain ⟨q, first⟩ := Option.isSome_iff_exists.1 (perform?_isSome limited operation)
    have moves : p.Moves (fun _ _ => True) q :=
      perform?_moves (fun _ _ _ => trivial) (fun _ _ _ => trivial) first
    rw [performAll?, first]
    exact ih (moves.follows.policy ▸ limited)

theorem Moves.watches {source : String} (h : p.Moves may q) (start : p.Watches source) :
    q.Watches source := by
  induction h with
  | stay => exact start
  | @advance p q more ih =>
    apply ih
    rcases p.advance_cases with ⟨-, stays⟩ | ⟨-, -, shifts⟩ | ⟨-, limit, -, -, stops⟩
    · rwa [stays]
    · rw [shifts]
      exact start.shift
    · rw [stops]
      exact start.exhaust limit
  | record allowed more ih => exact ih (start.record _)

/-- Filling the window apart, no more tokens are pulled than the limit allows. -/
def WithinLimit (p : Parser) : Prop :=
  ∀ limit ∈ p.policy.maxTokens, p.pulled ≤ max 2 limit

theorem Moves.withinLimit (h : p.Moves may q) (start : p.WithinLimit) : q.WithinLimit := by
  induction h with
  | stay => exact start
  | @advance p q more ih =>
    apply ih
    rcases p.advance_cases with ⟨-, stays⟩ | ⟨-, lasts, shifts⟩ | ⟨-, limit, -, -, stops⟩
    · rwa [stays]
    · rw [shifts]
      intro limit limited
      exact Nat.le_trans (lasts limit limited) (Nat.le_max_right 2 limit)
    · rw [stops]
      exact start
  | record allowed more ih => exact ih start

theorem Moves.frozen (h : p.Moves may q) (spent : p.exhausted) :
    q.exhausted ∧ q.current = p.current ∧ q.peek = p.peek ∧ q.pulled = p.pulled := by
  induction h with
  | stay => exact ⟨spent, rfl, rfl, rfl⟩
  | advance more ih =>
    rw [advance_of_exhausted spent] at ih
    exact ih spent
  | record allowed more ih => exact ih spent

theorem Moves.unlimited (h : p.Moves may q) (free : p.policy.maxTokens = none)
    (running : p.exhausted = false) : q.exhausted = false := by
  induction h with
  | stay => exact running
  | @advance p q more ih =>
    apply ih (p.advance_policy ▸ free)
    rcases p.advance_cases with ⟨spent, -⟩ | ⟨-, -, shifts⟩ | ⟨-, limit, limited, -, -⟩
    · simp [running] at spent
    · rw [shifts]
      exact running
    · simp [free] at limited
  | record allowed more ih => exact ih free running

/-- The limit is reported when it is spent, and not again. -/
def ReportsLimitOnce (p : Parser) : Prop :=
  p.diagnostics.countP (·.isLimit) = if p.exhausted then 1 else 0

theorem ReportsLimitOnce.record (h : p.ReportsLimitOnce) {d : Diagnostic}
    (fault : d.isLimit = false) : (p.record d).ReportsLimitOnce := by
  have kept : (p.record d).diagnostics.countP (·.isLimit) = p.diagnostics.countP (·.isLimit) := by
    simp [Parser.record, fault]
  exact kept.trans h

theorem ReportsLimitOnce.advance (h : p.ReportsLimitOnce) : p.advance.ReportsLimitOnce := by
  rcases p.advance_cases with ⟨-, stays⟩ | ⟨-, -, shifts⟩ | ⟨running, limit, -, -, stops⟩
  · rwa [stays]
  · rw [shifts]
    exact h
  · have before : p.diagnostics.countP (·.isLimit) = 0 := by
      rw [h, running, if_neg Bool.false_ne_true]
    rw [stops, ReportsLimitOnce, exhaust, Parser.record, List.countP_append, before]
    rfl

theorem Moves.reportsLimitOnce (h : p.Moves (fun _ d => d.isLimit = false) q)
    (start : p.ReportsLimitOnce) : q.ReportsLimitOnce := by
  induction h with
  | stay => exact start
  | advance more ih => exact ih start.advance
  | record fault more ih => exact ih (start.record fault)

end

/-- However its operations are called, a parser looks at the stream of its source's
tokens, two of them at a time, and neither leaves one out nor goes back to one. -/
theorem performAll?_aligned (policy : Policy) (source : String) {operations : List Operation}
    {p : Parser} (h : (ofSource policy source).performAll? operations = some p) :
    p.Aligned source ∧ (∀ limit ∈ policy.maxTokens, p.pulled ≤ max 2 limit) ∧
      ∀ more q, p.performAll? more = some q → p.pulled ≤ q.pulled := by
  have moves {p q : Parser} {operations : List Operation}
      (h : p.performAll? operations = some q) : p.Moves (fun _ _ => True) q :=
    performAll?_moves (fun _ _ _ => trivial) (fun _ _ _ => trivial) h
  have aligned := ((moves h).watches (watches_ofSource policy source)).aligned
  have within := (moves h).withinLimit fun limit _ => Nat.le_max_left 2 limit
  rw [WithinLimit, (moves h).follows.policy] at within
  exact ⟨aligned, within, fun more q onward => (moves onward).extends.pulled⟩

theorem performAll?_aligned_seven :
    let operations : List Operation := [.expectPeek .assign, .parseLet, .parseStatement,
      .record ⟨.tokenLimitExceeded 1, 0⟩, .expectPeek .identifier, .parseReturn, .parseProgram]
    ∃ p, (ofSource ⟨true, some 7⟩ "let a = 1; b").performAll? operations = some p ∧
      p.Aligned "let a = 1; b" ∧ p.pulled ≤ max 2 7 ∧
        ∀ more q, p.performAll? more = some q → p.pulled ≤ q.pulled := by
  intro operations
  have ends := @performAll?_isSome (ofSource ⟨true, some 7⟩ "let a = 1; b") rfl operations
  obtain ⟨p, done⟩ := Option.isSome_iff_exists.1 ends
  obtain ⟨aligned, within, onward⟩ := performAll?_aligned ⟨true, some 7⟩ "let a = 1; b" done
  exact ⟨p, done, aligned, within 7 rfl, onward⟩

/-- A limit is reported when it is spent, and from then on the parser stays where it
is, whatever is asked of it. Nothing that was recorded is ever taken back. -/
theorem performAll?_exhausted_once (policy : Policy) (source : String)
    {operations : List Operation} {p : Parser}
    (h : (ofSource policy source).performAll? operations = some p)
    (faults : ∀ d, .record d ∈ operations → d.isLimit = false) :
    p.diagnostics.countP (·.isLimit) = (if p.exhausted then 1 else 0) ∧
      (policy.maxTokens = none → p.exhausted = false) ∧
      (∀ more q, p.performAll? more = some q →
        p.diagnostics <+: q.diagnostics ∧ (p.exhausted → q.exhausted)) ∧
      (p.exhausted →
        (∀ more, ∃ q, p.performAll? more = some q ∧ q.current = p.current ∧ q.peek = p.peek ∧
          q.pulled = p.pulled) ∧
        (∀ kind, (p.expectPeek kind).1 = false) ∧ p.parseProgram = some (⟨[]⟩, p)) := by
  have moves : (ofSource policy source).Moves (fun _ d => d.isLimit = false) p :=
    performAll?_moves (fun _ _ fault => fault) (fun _ d given => faults d given) h
  have onward {more : List Operation} {q : Parser} (k : p.performAll? more = some q) :
      p.Moves (fun _ _ => True) q :=
    performAll?_moves (fun _ _ _ => trivial) (fun _ _ _ => trivial) k
  have free (unlimited : policy.maxTokens = none) : p.exhausted = false :=
    moves.unlimited unlimited rfl
  refine ⟨moves.reportsLimitOnce rfl, free, fun more q k => ?_, fun spent => ⟨?_, ?_, ?_⟩⟩
  · exact ⟨(onward k).extends.diagnostics, fun spent => ((onward k).frozen spent).1⟩
  · intro more
    have limited : p.policy.maxTokens.isSome := by
      rw [moves.follows.policy, Option.isSome_iff_ne_none]
      intro unlimited
      exact absurd (free unlimited) (by simp [spent])
    obtain ⟨q, k⟩ := Option.isSome_iff_exists.1 (performAll?_isSome limited more)
    exact ⟨q, k, ((onward k).frozen spent).2⟩
  · intro kind
    rw [expectPeek, advance_of_exhausted spent, spent]
    split
    · rfl
    · rfl
  · rw [parseProgram, parseStatements_of_done (.inr spent)]
    rfl

theorem performAll?_exhausted_once_five :
    let operations : List Operation := [.parseLet, .parseReturn, .parseLet]
    ∃ p, (ofSource ⟨true, some 5⟩ "let a = 1 let").performAll? operations = some p ∧
      p.exhausted ∧ p.diagnostics.countP (·.isLimit) = 1 ∧ p.diagnostics.length = 2 ∧
      (∀ more, ∃ q, p.performAll? more = some q ∧ q.current = p.current ∧ q.peek = p.peek ∧
        q.pulled = p.pulled) ∧
      (∀ kind, (p.expectPeek kind).1 = false) ∧ p.parseProgram = some (⟨[]⟩, p) := by
  intro operations
  let start : Parser := ofSource ⟨true, some 5⟩ "let a = 1 let"
  have ends := @performAll?_isSome start rfl operations
  obtain ⟨p, done⟩ := Option.isSome_iff_exists.1 ends
  have found : (start.performAll? operations).map (fun q => (q.exhausted, q.diagnostics.length)) =
      some (true, 2) := by decide +kernel
  rw [done] at found
  obtain ⟨spent, count⟩ := Prod.mk.inj (Option.some.inj found)
  obtain ⟨once, -, -, frozen⟩ :=
    performAll?_exhausted_once ⟨true, some 5⟩ "let a = 1 let" done (by simp [operations])
  rw [spent] at once
  exact ⟨p, done, spent, once, count, frozen spent⟩

end Parser

end Scriptlet
