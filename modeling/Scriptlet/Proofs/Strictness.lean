import Scriptlet.Proofs.Lockstep

/-!
What strictness adds. A strict parser makes the moves of a lenient one, and all that
it finds besides is one fault for each token that the program loop looks at and that
starts no statement.
-/

namespace Scriptlet

section
variable {t u : Token}

theorem Token.Alike.refl (t : Token) : t.Alike Eq t := ⟨rfl, rfl, rfl, rfl⟩

theorem Token.Alike.eq (h : t.Alike Eq u) : u = t := by
  obtain ⟨kind, literal, start, stop⟩ := h
  obtain ⟨k, l, ⟨a, b⟩⟩ := t
  obtain ⟨k', l', ⟨a', b'⟩⟩ := u
  obtain rfl : a = a' := UInt32.toNat_inj.1 start
  obtain rfl : b = b' := UInt32.toNat_inj.1 stop
  dsimp only at kind literal
  rw [kind, literal]

theorem Statement.Alike.eq {s s' : Statement} (h : s.Alike Eq s') : s' = s := by
  cases h with
  | @letBinding _ _ name name' token named value =>
    obtain ⟨_, _⟩ := name
    obtain ⟨_, _⟩ := name'
    dsimp only at named value
    rw [token.eq, named.eq, value]
  | returnValue token => rw [token.eq]

theorem Statement.eq_of_alike {statements read : List Statement}
    (h : List.Forall₂ (Statement.Alike Eq) statements read) : read = statements := by
  induction h with
  | nil => rfl
  | cons same more ih => rw [same.eq, ih]

end

namespace TokenKind

def opensStatement : TokenKind → Bool
  | letWord | returnWord => true
  | _ => false

theorem opensStatement_iff {kind : TokenKind} :
    kind.opensStatement ↔ kind = .letWord ∨ kind = .returnWord := by
  cases kind <;> simp [opensStatement]

end TokenKind

namespace Parser

/-- The tokens that the program loop looks at for the statement that they start, in
the order in which it comes to them. -/
def dispatched (p : Parser) : List Token :=
  if p.current.kind = .endOfInput ∨ p.exhausted then []
  else match _h : p.parseStatement with
    | none => [p.current]
    | some (_, q) => p.current :: q.advance.dispatched
termination_by p.work
decreasing_by exact advance_after_statement_lt ‹_› ‹_›

/-- The faults that only a strict parser finds. -/
def strays (p : Parser) : List Diagnostic :=
  p.diagnostics.filter (·.isUnrecognised)

section
variable {may : Parser → Diagnostic → Prop} {p q : Parser}

theorem dispatched_of_done (h : p.current.kind = .endOfInput ∨ p.exhausted) :
    p.dispatched = [] := by
  rw [dispatched, if_pos h]

theorem dispatched_of_round {s : Option Statement} (going : p.current.kind ≠ .endOfInput)
    (running : p.exhausted = false) (parsed : p.parseStatement = some (s, q)) :
    p.dispatched = p.current :: q.advance.dispatched := by
  rw [dispatched, if_neg (by simp [going, running])]
  split
  · next endless => simp [parsed] at endless
  · next read =>
    rw [parsed] at read
    obtain ⟨-, rfl⟩ := Prod.mk.inj (Option.some.inj read)
    rfl

theorem advance_strays (p : Parser) : p.advance.strays = p.strays := by
  rcases p.advance_cases with ⟨-, stays⟩ | ⟨-, -, shifts⟩ | ⟨-, limit, -, -, stops⟩
  · rw [stays]
  · rw [shifts]
    rfl
  · rw [stops, strays, exhaust, Parser.record, List.filter_append]
    exact List.append_nil _

theorem Moves.strays_eq (h : p.Moves (fun _ d => d.isUnrecognised = false) q) :
    q.strays = p.strays := by
  induction h with
  | stay => rfl
  | advance more ih => rw [ih, advance_strays]
  | @record p q d allowed more ih =>
    rw [ih, strays, Parser.record, List.filter_append, List.filter_singleton, allowed]
    exact List.append_nil _

theorem strays_of_opened {s : Option Statement} (opens : p.current.kind.opensStatement)
    (h : p.parseStatement = some (s, q)) : q.strays = p.strays := by
  have unexpected (d : Diagnostic) (found : d.isUnexpected) : d.isUnrecognised = false :=
    d.not_isUnrecognised_of_isUnexpected found
  rw [parseStatement] at h
  split at h
  · have onward := parseLet_moves (fun _ d _ => unexpected d) h
    exact ((expectPeek_moves unexpected _).trans onward.1).strays_eq
  · exact (Moves.advance (parseReturn_moves h)).strays_eq
  · next binds returns =>
    rcases TokenKind.opensStatement_iff.1 opens with word | word
    · exact absurd word binds
    · exact absurd word returns

theorem strays_of_closed {s : Option Statement} (strict : p.policy.strict)
    (closed : p.current.kind.opensStatement = false) (h : p.parseStatement = some (s, q)) :
    q.strays = p.strays ++ [unrecognised p.current] := by
  rw [parseStatement] at h
  split at h
  · next word => exact absurd closed (by simp [word, TokenKind.opensStatement])
  · next word => exact absurd closed (by simp [word, TokenKind.opensStatement])
  · obtain ⟨-, rfl⟩ := Prod.mk.inj (Option.some.inj h)
    rw [if_pos strict, strays, Parser.record, List.filter_append]
    rfl

/-- The loop of a strict parser reports the tokens that it looks at and that start no
statement, once each and in their order. -/
theorem strays_of_parseStatements {statements : List Statement} (strict : p.policy.strict)
    (h : p.parseStatements = some (statements, q)) : q.strays =
      p.strays ++ (p.dispatched.filter fun t => !t.kind.opensStatement).map unrecognised := by
  fun_induction parseStatements p generalizing statements with
  | case1 p done =>
    obtain ⟨-, rfl⟩ := Prod.mk.inj (Option.some.inj h)
    rw [dispatched_of_done done]
    exact (List.append_nil _).symm
  | case2 => simp at h
  | case3 p going s r parsed ih =>
    rw [not_or, Bool.not_eq_true] at going
    obtain ⟨⟨more, r'⟩, onward, same⟩ := Option.map_eq_some_iff.1 h
    obtain ⟨-, rfl⟩ := Prod.mk.inj same
    have policy : r.advance.policy = p.policy := by
      rw [advance_policy, (parseStatement_follows parsed).policy]
    rw [ih (policy ▸ strict) onward, advance_strays,
      dispatched_of_round going.1 going.2 parsed]
    cases opens : p.current.kind.opensStatement with
    | true => rw [strays_of_opened opens parsed, List.filter_cons_of_neg (by simp [opens])]
    | false =>
      rw [strays_of_closed strict opens parsed, List.filter_cons_of_pos (by simp [opens]),
        List.map_cons, List.append_assoc, List.singleton_append]

theorem Moves.ahead {tokens : List Token} (h : p.Moves may q) (start : p.Ahead tokens) :
    ∃ left, q.Ahead left ∧ left <:+ tokens := by
  induction h generalizing tokens with
  | stay => exact ⟨tokens, start, List.suffix_rfl⟩
  | @advance p q more ih =>
    rcases p.advance_cases with ⟨-, stays⟩ | ⟨-, -, shifts⟩ | ⟨-, limit, -, -, stops⟩
    · rw [stays] at ih
      exact ih start
    · obtain ⟨t, rest, rfl⟩ := start.exists_cons
      rw [shifts] at ih
      by_cases ended : t.kind = .endOfInput
      · exact ih (start.shift_of_end ended)
      · obtain ⟨left, ahead, suffix⟩ := ih (start.shift ended)
        exact ⟨left, ahead, suffix.trans (List.suffix_cons t rest)⟩
    · rw [stops] at ih
      exact ih (start.exhaust limit)
  | record allowed more ih => exact ih (start.record _)

theorem Ahead.dispatched_sublist {tokens : List Token} (h : p.Ahead tokens) :
    p.dispatched.Sublist tokens := by
  fun_induction dispatched p generalizing tokens with
  | case1 => exact List.nil_sublist _
  | case2 p going endless =>
    obtain ⟨t, rest, rfl⟩ := h.exists_cons
    rw [h.current]
    exact List.singleton_sublist.2 List.mem_cons_self
  | case3 p going s q parsed ih =>
    obtain ⟨t, rest, rfl⟩ := h.exists_cons
    rw [h.current, List.cons_sublist_cons]
    have moves : p.Moves (fun _ _ => True) q :=
      parseStatement_moves (fun _ _ _ _ => trivial) (fun _ _ => trivial) parsed
    obtain ⟨left, ahead, suffix⟩ := moves.ahead h
    obtain ⟨u, us, rfl⟩ := ahead.exists_cons
    -- The token that the statement ends on is skipped, so the first one is behind for good.
    have behind : us <:+ rest := by
      rcases List.suffix_cons_iff.1 suffix with same | within
      · exact (List.cons.inj same).2 ▸ List.suffix_rfl
      · exact (List.suffix_cons u us).trans within
    rcases q.advance_cases with ⟨spent, stays⟩ | ⟨-, -, shifts⟩ | ⟨-, limit, -, -, stops⟩
    · rw [stays, dispatched_of_done (.inr spent)]
      exact List.nil_sublist _
    · rw [shifts] at ih ⊢
      by_cases ended : u.kind = .endOfInput
      · have stays := ahead.shift_of_end ended
        rw [dispatched_of_done (.inl (by rw [stays.current, ended]))]
        exact List.nil_sublist _
      · exact (ih (ahead.shift ended)).trans behind.sublist
    · rw [stops, dispatched_of_done (.inr rfl)]
      exact List.nil_sublist _

end

/-- The second parser is the first one if that were not strict. -/
structure Relaxes (p q : Parser) : Prop where
  strict : p.policy.strict = true
  same : q = { p with
    policy := { p.policy with strict := false }
    diagnostics := p.diagnostics.filter (!·.isUnrecognised) }

namespace Relaxes

variable {p q : Parser}

theorem record (h : p.Relaxes q) {d : Diagnostic} (shared : d.isUnrecognised = false) :
    (p.record d).Relaxes (q.record d) where
  strict := h.strict
  same := by
    rw [h.same]
    simp [Parser.record, shared]

theorem skips (h : p.Relaxes q) {d : Diagnostic} (stray : d.isUnrecognised) :
    (p.record d).Relaxes q where
  strict := h.strict
  same := by
    rw [h.same]
    simp [Parser.record, stray]

theorem shift (h : p.Relaxes q) : p.shift.Relaxes q.shift where
  strict := h.strict
  same := by
    rw [h.same]
    rfl

theorem exhaust (h : p.Relaxes q) (limit : Nat) : (p.exhaust limit).Relaxes (q.exhaust limit) where
  strict := h.strict
  same := by
    rw [h.same]
    simp [Parser.exhaust, Parser.record, Diagnostic.isUnrecognised]

theorem advance (h : p.Relaxes q) : p.advance.Relaxes q.advance := by
  have exhausted : q.exhausted = p.exhausted := by rw [h.same]
  have limit : q.policy.maxTokens = p.policy.maxTokens := by rw [h.same]
  have pulled : q.pulled = p.pulled := by rw [h.same]
  rw [Parser.advance, Parser.advance, exhausted, limit, pulled]
  split
  · exact h
  · split
    · exact h.shift
    · split
      · exact h.shift
      · exact h.exhaust _

theorem lockstep : Lockstep Eq Relaxes where
  current p q h := by
    rw [h.same]
    exact .refl _
  peek p q h := by
    rw [h.same]
    exact .refl _
  exhausted p q h := by rw [h.same]
  stuck p q h := by
    rw [h.same]
    rfl
  advance _ _ h := h.advance
  unexpected p q h kind := by
    have peek : q.peek = p.peek := by rw [h.same]
    rw [peek]
    exact h.record rfl
  unrecognised p q h := by
    have lenient : q.policy.strict = false := by rw [h.same]
    rw [if_pos h.strict, lenient, if_neg Bool.false_ne_true]
    exact h.skips rfl

theorem ofSource (limit : Option Nat) (source : String) :
    (ofSource ⟨true, limit⟩ source).Relaxes (ofSource ⟨false, limit⟩ source) :=
  ⟨rfl, rfl⟩

end Relaxes

/-- Strictness only adds reports. Where a strict parse ends a lenient one does, with the
same program, after as many tokens and with what is left of the limit; it finds the same
faults in the same order, but for those that are only the strict one's. These are one for
each token that the program loop looks at, except for those that start a statement. -/
theorem parse?_strict (limit : Option Nat) (source : String) :
    let dispatched := (ofSource ⟨true, limit⟩ source).dispatched
    (parse? ⟨true, limit⟩ source = none ↔ parse? ⟨false, limit⟩ source = none) ∧
    (limit.isSome → (parse? ⟨true, limit⟩ source).isSome) ∧
    dispatched.Sublist (tokenize source) ∧
    ∀ program p, parse? ⟨true, limit⟩ source = some (program, p) →
      p.diagnostics.filter (·.isUnrecognised) =
        (dispatched.filter fun t => !t.kind.opensStatement).map unrecognised ∧
      ∃ q, parse? ⟨false, limit⟩ source = some (program, q) ∧ q.pulled = p.pulled ∧
        q.exhausted = p.exhausted ∧
        q.diagnostics = p.diagnostics.filter (!·.isUnrecognised) := by
  intro dispatched
  have both := Relaxes.lockstep.parseStatements (.ofSource limit source)
  refine ⟨?_, fun limited => parse?_isSome limited source, ?_, fun program p parsed => ⟨?_, ?_⟩⟩
  · rw [parse?, parse?, parseProgram, parseProgram, Option.map_eq_none_iff,
      Option.map_eq_none_iff]
    exact both.eq_none_iff
  · exact (faces_ofSource _ source).ahead.dispatched_sublist
  · exact strays_of_parseStatements rfl (parseStatements_of_parseProgram parsed)
  · rw [parseStatements_of_parseProgram parsed] at both
    obtain ⟨statements, q, parsed', alike, relaxes⟩ := both.exists_some
    obtain rfl := Statement.eq_of_alike alike
    refine ⟨q, ?_, ?_, ?_, ?_⟩
    · rw [parse?, parseProgram, parsed']
      rfl
    · rw [relaxes.same]
    · rw [relaxes.same]
    · rw [relaxes.same]

end Parser

end Scriptlet
