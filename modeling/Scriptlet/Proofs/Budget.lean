import Scriptlet.Proofs.Rounds

/-!
One source under two limits. As long as the smaller limit lasts the two parsers
make the same moves. The parser that has spent it stays where it is, and the
other one can only add to what both have found.
-/

namespace Scriptlet

structure Policy.Tighter (tight loose : Policy) : Prop where
  strict : loose.strict = tight.strict
  limited : tight.maxTokens.isSome
  affords : ∀ count, tight.Affords count → loose.Affords count

theorem Policy.tighter_of_le (strict : Bool) {limit : Nat} {more : Option Nat}
    (le : ∀ l ∈ more, limit ≤ l) : Tighter ⟨strict, some limit⟩ ⟨strict, more⟩ where
  strict := rfl
  limited := rfl
  affords := by
    intro count lasts l found
    exact Nat.le_trans (lasts limit rfl) (le l found)

namespace Parser

def faults (p : Parser) : List Diagnostic :=
  p.diagnostics.filter fun d => !d.isLimit

/-- Nothing that was found is lost, and no token is put back. -/
structure Extends (p q : Parser) : Prop where
  diagnostics : p.diagnostics <+: q.diagnostics
  pulled : p.pulled ≤ q.pulled

section
variable {p q r : Parser}

theorem Extends.refl (p : Parser) : p.Extends p :=
  ⟨List.prefix_rfl, Nat.le_refl _⟩

theorem Extends.trans (h : p.Extends q) (k : q.Extends r) : p.Extends r :=
  ⟨h.diagnostics.trans k.diagnostics, Nat.le_trans h.pulled k.pulled⟩

theorem Extends.faults (h : p.Extends q) : p.faults <+: q.faults :=
  h.diagnostics.filter _

theorem record_extends (p : Parser) (d : Diagnostic) : p.Extends (p.record d) :=
  ⟨List.prefix_append _ _, Nat.le_refl _⟩

theorem advance_extends (p : Parser) : p.Extends p.advance := by
  rcases p.advance_cases with ⟨-, stays⟩ | ⟨-, -, shifts⟩ | ⟨-, limit, -, -, stops⟩
  · rw [stays]
    exact .refl p
  · rw [shifts]
    exact ⟨List.prefix_rfl, Nat.le_succ _⟩
  · rw [stops]
    exact ⟨List.prefix_append _ _, Nat.le_refl _⟩

theorem Moves.extends {may : Parser → Diagnostic → Prop} (h : p.Moves may q) : p.Extends q := by
  induction h with
  | stay => exact .refl _
  | advance more ih => exact (advance_extends _).trans ih
  | record allowed more ih => exact (record_extends _ _).trans ih

theorem skipToSemicolon_extends {found : Bool} (h : p.skipToSemicolon = some (found, q)) :
    p.Extends q := by
  have moves : p.Moves (fun _ _ => True) q := skipToSemicolon_moves h
  exact moves.extends

theorem parseLet_extends {s : Option Statement} (h : p.parseLet = some (s, q)) :
    (p.expectPeek .identifier).2.Extends q ∧ ((p.expectPeek .identifier).1 →
      ((p.expectPeek .identifier).2.expectPeek .assign).2.Extends q) := by
  have moves := @parseLet_moves (fun _ _ => True) p q (fun _ _ _ _ => trivial) s h
  exact ⟨moves.1.extends, fun met => (moves.2 met).extends⟩

theorem parseReturn_extends {s : Option Statement} (h : p.parseReturn = some (s, q)) :
    p.advance.Extends q := by
  have moves : p.advance.Moves (fun _ _ => True) q := parseReturn_moves h
  exact moves.extends

theorem parseStatements_extends {statements : List Statement}
    (h : p.parseStatements = some (statements, q)) : p.Extends q := by
  have moves : p.Moves (fun _ _ => True) q := parseStatements_moves (fun _ _ _ _ => trivial) h
  exact moves.extends

theorem current_of_spent (running : p.exhausted = false) (spent : p.advance.exhausted) :
    p.advance.current = p.current := by
  rcases p.advance_cases with ⟨-, stays⟩ | ⟨-, -, shifts⟩ | ⟨-, limit, -, -, stops⟩
  · rw [stays]
  · simp [shifts, shift, running] at spent
  · rw [stops, exhaust, record]

theorem skipToSemicolon_of_exhausted (spent : p.exhausted) (other : p.current.kind ≠ .semicolon) :
    p.skipToSemicolon = some (false, p) := by
  rw [skipToSemicolon, if_neg other, if_pos spent]

end

/-- Two running parsers in the same state, the first of which is under the tighter policy. -/
structure InStep (p q : Parser) : Prop where
  running : p.exhausted = false
  tighter : p.policy.Tighter q.policy
  same : q = { p with policy := q.policy }

/-- The limit of the first parser is spent, and the second one is as far or farther. -/
structure Stopped (p q : Parser) : Prop where
  exhausted : p.exhausted = true
  faults : p.faults <+: q.faults
  pulled : p.pulled ≤ q.pulled

/-- The same result of an operation on parsers in step, or no result where the first
of them has stopped. -/
inductive Keeps {α : Type} (failure : α) : α × Parser → α × Parser → Prop
  | inStep {a : α} {p q : Parser} (same : p.InStep q) : Keeps failure (a, p) (a, q)
  | stopped {b : α} {p q : Parser} (behind : p.Stopped q) : Keeps failure (failure, p) (b, q)

section
variable {p q r : Parser}

theorem inStep_ofSource {tight loose : Policy} (tighter : tight.Tighter loose) (source : String) :
    (ofSource tight source).InStep (ofSource loose source) :=
  ⟨rfl, tighter, rfl⟩

theorem InStep.current (h : p.InStep q) : q.current = p.current := by
  rw [h.same]

theorem InStep.peek (h : p.InStep q) : q.peek = p.peek := by
  rw [h.same]

theorem InStep.running_right (h : p.InStep q) : q.exhausted = false := by
  rw [h.same]
  exact h.running

theorem InStep.record (h : p.InStep q) (d : Diagnostic) : (p.record d).InStep (q.record d) :=
  ⟨h.running, h.tighter, by rw [h.same]; rfl⟩

theorem Stopped.extends (h : p.Stopped q) (k : q.Extends r) : p.Stopped r :=
  ⟨h.exhausted, h.faults.trans k.faults, Nat.le_trans h.pulled k.pulled⟩

theorem InStep.advance (h : p.InStep q) :
    p.advance.InStep q.advance ∨ p.advance.Stopped q.advance := by
  have pulled : q.pulled = p.pulled := by rw [h.same]
  rcases p.advance_cases with ⟨spent, -⟩ | ⟨-, lasts, shifts⟩ | ⟨-, limit, -, -, stops⟩
  · simp [h.running] at spent
  · left
    have lasts' := h.tighter.affords (p.pulled + 1) lasts
    rw [← pulled] at lasts'
    rw [shifts, advance_eq_shift h.running_right lasts']
    exact ⟨h.running, h.tighter, by rw [h.same]; rfl⟩
  · right
    have onward := q.advance_extends
    have kept : (p.exhaust limit).faults = q.faults := by
      rw [h.same]
      simp [faults, exhaust, Parser.record, Diagnostic.isLimit]
    rw [stops]
    exact ⟨rfl, kept ▸ onward.faults, pulled ▸ onward.pulled⟩

theorem InStep.expectPeek (h : p.InStep q) (kind : TokenKind) :
    Keeps false (p.expectPeek kind) (q.expectPeek kind) := by
  rw [Parser.expectPeek, Parser.expectPeek, h.peek]
  split
  · rcases h.advance with next | behind
    · rw [next.running, next.running_right]
      exact .inStep next
    · rw [behind.exhausted]
      exact .stopped behind
  · exact .inStep (h.record _)

theorem InStep.skipToSemicolon (h : p.InStep q) {found : Bool} {q' : Parser}
    (skips : q.skipToSemicolon = some (found, q')) :
    ∃ r, p.skipToSemicolon = some r ∧ Keeps false r (found, q') := by
  fun_induction Parser.skipToSemicolon p generalizing q with
  | case1 p semicolon =>
    rw [Parser.skipToSemicolon, if_pos (by rwa [h.current])] at skips
    obtain ⟨rfl, rfl⟩ := Prod.mk.inj (Option.some.inj skips)
    exact ⟨_, rfl, .inStep h⟩
  | case2 p _ spent => simp [h.running] at spent
  | case3 p _ _ stuck =>
    have := h.tighter.limited
    simp_all [isStuck]
  | case4 p other _ moves ih =>
    have moves' : q.isStuck = false := by
      by_contra stuck
      rw [Bool.not_eq_false] at stuck
      rw [Parser.skipToSemicolon, if_neg (by rwa [h.current]), h.running_right, stuck] at skips
      simp at skips
    rw [skipToSemicolon_step h.running_right (by rwa [h.current]) moves'] at skips
    rcases h.advance with next | behind
    · exact ih next skips
    · have stays := current_of_spent h.running behind.exhausted
      have stops := skipToSemicolon_of_exhausted behind.exhausted (by rwa [stays])
      exact ⟨_, stops, .stopped (behind.extends (skipToSemicolon_extends skips))⟩

theorem InStep.closes (h : p.InStep q) (statement : Statement) {s : Option Statement}
    {q' : Parser} (closed : q.skipToSemicolon.map
      (fun (found, r) => (if found then some statement else none, r)) = some (s, q')) :
    ∃ r, p.skipToSemicolon.map
      (fun (found, r) => (if found then some statement else none, r)) = some r ∧
        Keeps none r (s, q') := by
  obtain ⟨⟨found, u⟩, skips, same⟩ := Option.map_eq_some_iff.1 closed
  obtain ⟨rfl, rfl⟩ := Prod.mk.inj same
  obtain ⟨r, skipped, keeps⟩ := h.skipToSemicolon skips
  rw [skipped]
  cases keeps with
  | inStep next => exact ⟨_, rfl, .inStep next⟩
  | stopped behind => exact ⟨_, rfl, .stopped behind⟩

theorem InStep.parseLet (h : p.InStep q) {s : Option Statement} {q' : Parser}
    (parsed : q.parseLet = some (s, q')) :
    ∃ r, p.parseLet = some r ∧ Keeps none r (s, q') := by
  have onward := parseLet_extends parsed
  have opens := h.expectPeek .identifier
  rw [Parser.parseLet, h.current] at parsed
  rw [Parser.parseLet]
  generalize p.expectPeek .identifier = r at *
  generalize q.expectPeek .identifier = r' at *
  cases opens with
  | stopped behind => exact ⟨_, rfl, .stopped (behind.extends onward.1)⟩
  | @inStep met r r' next =>
    cases met with
    | false =>
      obtain ⟨rfl, rfl⟩ := Prod.mk.inj (Option.some.inj parsed)
      exact ⟨_, rfl, .inStep next⟩
    | true =>
      have closes := next.expectPeek .assign
      replace onward := onward.2 rfl
      dsimp only at parsed onward ⊢
      rw [next.current] at parsed
      generalize r.expectPeek .assign = t at *
      generalize r'.expectPeek .assign = t' at *
      cases closes with
      | stopped behind => exact ⟨_, rfl, .stopped (behind.extends onward)⟩
      | @inStep met t t' next =>
        cases met with
        | false =>
          obtain ⟨rfl, rfl⟩ := Prod.mk.inj (Option.some.inj parsed)
          exact ⟨_, rfl, .inStep next⟩
        | true => exact next.closes _ parsed

theorem InStep.parseReturn (h : p.InStep q) (word : p.current.kind = .returnWord)
    {s : Option Statement} {q' : Parser} (parsed : q.parseReturn = some (s, q')) :
    ∃ r, p.parseReturn = some r ∧ Keeps none r (s, q') := by
  have onward := parseReturn_extends parsed
  rw [Parser.parseReturn, h.current] at parsed
  rw [Parser.parseReturn]
  rcases h.advance with next | behind
  · exact next.closes _ parsed
  · -- What is current is still the `return`, so the search ends where it starts.
    have stays := current_of_spent h.running behind.exhausted
    have stops := skipToSemicolon_of_exhausted behind.exhausted (by simp [stays, word])
    rw [stops]
    exact ⟨_, rfl, .stopped (behind.extends onward)⟩

theorem InStep.parseStatement (h : p.InStep q) {s : Option Statement} {q' : Parser}
    (parsed : q.parseStatement = some (s, q')) :
    ∃ r, p.parseStatement = some r ∧ Keeps none r (s, q') := by
  rw [Parser.parseStatement, h.current] at parsed
  rw [Parser.parseStatement]
  split at parsed
  · next word => exact h.parseLet parsed
  · next word => exact h.parseReturn word parsed
  · obtain ⟨rfl, rfl⟩ := Prod.mk.inj (Option.some.inj parsed)
    rw [h.tighter.strict]
    refine ⟨_, rfl, .inStep ?_⟩
    split
    · exact h.record _
    · exact h

theorem InStep.parseStatements (h : p.InStep q) {statements : List Statement} {q' : Parser}
    (parsed : q.parseStatements = some (statements, q')) :
    ∃ statements' p', p.parseStatements = some (statements', p') ∧
      (statements' = statements ∧ p'.InStep q' ∨ statements' <+: statements ∧ p'.Stopped q') := by
  fun_induction Parser.parseStatements p generalizing q statements with
  | case1 p done =>
    have ended : q.current.kind = .endOfInput := by
      rw [h.current]
      exact done.resolve_right (by simp [h.running])
    rw [parseStatements_of_done (.inl ended)] at parsed
    obtain ⟨rfl, rfl⟩ := Prod.mk.inj (Option.some.inj parsed)
    exact ⟨_, _, rfl, .inl ⟨rfl, h⟩⟩
  | case2 p going endless =>
    have := parseStatement_isSome h.tighter.limited
    simp [endless] at this
  | case3 p going s r first ih =>
    rw [not_or, Bool.not_eq_true] at going
    obtain ⟨s', r', more, second, onward, rfl⟩ :=
      exists_round_of_parseStatements (by rw [h.current]; exact going.1) h.running_right parsed
    have extended := parseStatements_extends onward
    obtain ⟨read, same, keeps⟩ := h.parseStatement second
    obtain rfl : (s, r) = read := Option.some.inj (first.symm.trans same)
    cases keeps with
    | stopped behind =>
      have stays := parseStatements_of_done (.inr behind.exhausted)
      rw [advance_of_exhausted behind.exhausted, stays]
      refine ⟨_, _, rfl, .inr ⟨List.nil_prefix, ?_⟩⟩
      exact behind.extends (r'.advance_extends.trans extended)
    | inStep next =>
      rcases next.advance with next | behind
      · obtain ⟨_, _, again, kept⟩ := ih next onward
        rw [again]
        refine ⟨_, _, rfl, kept.imp (fun k => ⟨congrArg _ k.1, k.2⟩) fun k => ⟨?_, k.2⟩⟩
        exact (List.prefix_append_right_inj _).2 k.1
      · rw [parseStatements_of_done (.inr behind.exhausted)]
        refine ⟨_, _, rfl, .inr ⟨?_, behind.extends extended⟩⟩
        simp

end

end Parser

/-- A smaller limit can only cut a parse short. Under the larger one, or under none
where the parse ends without one, the same statements are read first and the same
faults are found first, and all is the same if the smaller limit is not spent. -/
theorem parse?_cut_short (strict : Bool) (source : String) {limit : Nat} {more : Option Nat}
    (le : ∀ l ∈ more, limit ≤ l)
    (ends : more = none → (parse? ⟨strict, none⟩ source).isSome) :
    ∃ short p long q, parse? ⟨strict, some limit⟩ source = some (short, p) ∧
      parse? ⟨strict, more⟩ source = some (long, q) ∧
      short.statements <+: long.statements ∧ p.faults <+: q.faults ∧ p.pulled ≤ q.pulled ∧
      (p.exhausted = false → short = long ∧ p.diagnostics = q.diagnostics ∧
        p.pulled = q.pulled ∧ p.exhausted = q.exhausted) := by
  have ended : (parse? ⟨strict, more⟩ source).isSome := by
    cases more with
    | none => exact ends rfl
    | some l => exact parse?_isSome rfl source
  obtain ⟨⟨long, q⟩, parsed⟩ := Option.isSome_iff_exists.1 ended
  obtain ⟨⟨statements, q'⟩, onward, same⟩ := Option.map_eq_some_iff.1 parsed
  obtain ⟨rfl, rfl⟩ := Prod.mk.inj same
  have start := Parser.inStep_ofSource (Policy.tighter_of_le strict le) source
  obtain ⟨statements', p, first, keeps⟩ := start.parseStatements onward
  refine ⟨⟨statements'⟩, p, _, _, by rw [parse?, Parser.parseProgram, first]; rfl, parsed, ?_⟩
  rcases keeps with ⟨rfl, next⟩ | ⟨shorter, behind⟩
  · rw [next.same]
    exact ⟨List.prefix_rfl, List.prefix_rfl, Nat.le_refl _, fun _ => ⟨rfl, rfl, rfl, rfl⟩⟩
  · refine ⟨shorter, behind.faults, behind.pulled, fun running => ?_⟩
    simp [behind.exhausted] at running

theorem parse?_cut_short_seven : ∃ short p long q,
    parse? ⟨true, some 7⟩ "let a = 1; return b;" = some (short, p) ∧
    parse? ⟨true, none⟩ "let a = 1; return b;" = some (long, q) ∧
    short.statements <+: long.statements ∧ p.faults <+: q.faults ∧ p.pulled ≤ q.pulled ∧
    (p.exhausted = false → short = long ∧ p.diagnostics = q.diagnostics ∧
      p.pulled = q.pulled ∧ p.exhausted = q.exhausted) :=
  parse?_cut_short true _ (by simp) (fun _ => by decide +kernel)

end Scriptlet
