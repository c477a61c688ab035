import Scriptlet.Proofs.Alike

/-!
Two parsers side by side. Which move a parser makes depends on the kinds in its window,
on whether it is exhausted and on whether it is stuck. Parsers that are equal in these
and stay related with every move read alike statements, and where one of them comes to
no end the other does not either.
-/

namespace Scriptlet.Parser

/-- Both operations have a result, and results that are related, or none has. -/
def Both {α β : Type} (same : α → β → Prop) (related : Parser → Parser → Prop) :
    Option (α × Parser) → Option (β × Parser) → Prop :=
  Option.Rel fun r r' => same r.1 r'.1 ∧ related r.2 r'.2

section
variable {α β γ δ : Type} {same : α → β → Prop} {related : Parser → Parser → Prop}
  {a : Option (α × Parser)} {b : Option (β × Parser)}

theorem Both.map {same' : γ → δ → Prop} {f : α → γ} {g : β → δ} (h : Both same related a b)
    (onward : ∀ x y, same x y → same' (f x) (g y)) : Both same' related
      (a.map fun (x, p) => (f x, p)) (b.map fun (y, q) => (g y, q)) := by
  cases h with
  | none => exact .none
  | some h => exact .some ⟨onward _ _ h.1, h.2⟩

theorem Both.eq_none (h : Both same related none b) : b = none := by
  cases h with
  | none => rfl

theorem Both.eq_none_iff (h : Both same related a b) : a = none ↔ b = none := by
  cases h with
  | none => simp
  | some h => simp

theorem Both.exists_some {x : α} {p : Parser} (h : Both same related (some (x, p)) b) :
    ∃ y q, b = some (y, q) ∧ same x y ∧ related p q := by
  cases h with
  | some h => exact ⟨_, _, rfl, h.1, h.2⟩

end

/-- Related parsers show tokens that differ in their places only, and no move of
both tells them apart. -/
structure Lockstep (near : Nat → Nat → Prop) (related : Parser → Parser → Prop) : Prop where
  current : ∀ p q, related p q → p.current.Alike near q.current
  peek : ∀ p q, related p q → p.peek.Alike near q.peek
  exhausted : ∀ p q, related p q → q.exhausted = p.exhausted
  stuck : ∀ p q, related p q → q.isStuck = p.isStuck
  advance : ∀ p q, related p q → related p.advance q.advance
  unexpected : ∀ p q, related p q → ∀ kind,
    related (p.record (unexpected kind p.peek)) (q.record (unexpected kind q.peek))
  unrecognised : ∀ p q, related p q →
    related (if p.policy.strict then p.record (unrecognised p.current) else p)
      (if q.policy.strict then q.record (unrecognised q.current) else q)

namespace Lockstep

variable {near : Nat → Nat → Prop} {related : Parser → Parser → Prop} {p q : Parser}

theorem expectPeek (steps : Lockstep near related) (h : related p q) (kind : TokenKind) :
    (q.expectPeek kind).1 = (p.expectPeek kind).1 ∧
      related (p.expectPeek kind).2 (q.expectPeek kind).2 := by
  have peek := (steps.peek p q h).kind
  have next := steps.advance p q h
  by_cases met : p.peek.kind = kind
  · rw [Parser.expectPeek, Parser.expectPeek, if_pos met, if_pos (peek.trans met)]
    exact ⟨by rw [steps.exhausted _ _ next], next⟩
  · rw [Parser.expectPeek, Parser.expectPeek, if_neg met, if_neg (by rwa [peek])]
    exact ⟨rfl, steps.unexpected p q h kind⟩

theorem skipToSemicolon (steps : Lockstep near related) (h : related p q) :
    Both Eq related p.skipToSemicolon q.skipToSemicolon := by
  fun_induction Parser.skipToSemicolon p generalizing q with
  | case1 p found =>
    rw [Parser.skipToSemicolon, if_pos ((steps.current p q h).kind.trans found)]
    exact .some ⟨rfl, h⟩
  | case2 p other spent =>
    have other' : q.current.kind ≠ .semicolon := by rwa [(steps.current p q h).kind]
    rw [Parser.skipToSemicolon, if_neg other', if_pos ((steps.exhausted p q h).trans spent)]
    exact .some ⟨rfl, h⟩
  | case3 p other running stuck =>
    have other' : q.current.kind ≠ .semicolon := by rwa [(steps.current p q h).kind]
    rw [Parser.skipToSemicolon, if_neg other', steps.exhausted p q h, if_neg running,
      if_pos ((steps.stuck p q h).trans stuck)]
    exact .none
  | case4 p other running moves ih =>
    have other' : q.current.kind ≠ .semicolon := by rwa [(steps.current p q h).kind]
    rw [skipToSemicolon_step (by simpa [steps.exhausted p q h] using running) other'
      (by simpa [steps.stuck p q h] using moves)]
    exact ih (steps.advance p q h)

theorem closes (steps : Lockstep near related) (h : related p q) {s s' : Statement}
    (same : s.Alike near s') : Both (Option.Rel (Statement.Alike near)) related
      (p.skipToSemicolon.map fun (found, r) => (if found then some s else none, r))
      (q.skipToSemicolon.map fun (found, r) => (if found then some s' else none, r)) := by
  refine (steps.skipToSemicolon h).map (f := fun found => if found then some s else none)
    (g := fun found => if found then some s' else none) ?_
  rintro found _ rfl
  cases found with
  | false => exact .none
  | true => exact .some same

theorem parseLet (steps : Lockstep near related) (h : related p q) :
    Both (Option.Rel (Statement.Alike near)) related p.parseLet q.parseLet := by
  have opens := steps.expectPeek h .identifier
  rw [Parser.parseLet, Parser.parseLet]
  generalize p.expectPeek .identifier = named at opens ⊢
  generalize q.expectPeek .identifier = named' at opens ⊢
  obtain ⟨met, r⟩ := named
  obtain ⟨met', r'⟩ := named'
  obtain ⟨rfl, next⟩ : met' = met ∧ related r r' := opens
  cases met' with
  | false => exact .some ⟨.none, next⟩
  | true =>
    have assigns := steps.expectPeek next .assign
    dsimp only
    generalize r.expectPeek .assign = assigned at assigns ⊢
    generalize r'.expectPeek .assign = assigned' at assigns ⊢
    obtain ⟨met, t⟩ := assigned
    obtain ⟨met', t'⟩ := assigned'
    obtain ⟨rfl, last⟩ : met' = met ∧ related t t' := assigns
    cases met' with
    | false => exact .some ⟨.none, last⟩
    | true =>
      have name := steps.current r r' next
      exact steps.closes last (.letBinding (steps.current p q h) name name.literal)

theorem parseReturn (steps : Lockstep near related) (h : related p q) :
    Both (Option.Rel (Statement.Alike near)) related p.parseReturn q.parseReturn :=
  steps.closes (steps.advance p q h) (.returnValue (steps.current p q h))

theorem parseStatement (steps : Lockstep near related) (h : related p q) :
    Both (Option.Rel (Statement.Alike near)) related p.parseStatement q.parseStatement := by
  have kind := (steps.current p q h).kind
  rw [Parser.parseStatement, Parser.parseStatement, kind]
  split
  · exact steps.parseLet h
  · exact steps.parseReturn h
  · have onward := steps.unrecognised p q h
    rw [Parser.unrecognised, Parser.unrecognised, kind] at onward
    exact .some ⟨.none, onward⟩

theorem parseStatements (steps : Lockstep near related) (h : related p q) :
    Both (List.Forall₂ (Statement.Alike near)) related p.parseStatements q.parseStatements := by
  have going {p q : Parser} (h : related p q)
      (running : ¬(p.current.kind = .endOfInput ∨ p.exhausted)) :
      q.current.kind ≠ .endOfInput ∧ q.exhausted = false := by
    rw [(steps.current p q h).kind, steps.exhausted p q h]
    simpa using running
  fun_induction Parser.parseStatements p generalizing q with
  | case1 p done =>
    rw [← (steps.current p q h).kind, ← steps.exhausted p q h] at done
    rw [parseStatements_of_done done]
    exact .some ⟨.nil, h⟩
  | case2 p running endless =>
    obtain ⟨visible, lasts⟩ := going h running
    have first := steps.parseStatement h
    rw [endless] at first
    rw [parseStatements_of_endless visible lasts first.eq_none]
    exact .none
  | case3 p running s r parsed ih =>
    obtain ⟨visible, lasts⟩ := going h running
    have first := steps.parseStatement h
    rw [parsed] at first
    obtain ⟨s', r', parsed', alike, next⟩ := first.exists_some
    rw [parseStatements_of_round visible lasts parsed']
    refine (ih (steps.advance r r' next)).map (f := (s.toList ++ ·)) (g := (s'.toList ++ ·)) ?_
    intro more more' onward
    cases alike with
    | none => exact onward
    | some same => exact .cons same onward

end Lockstep

/-- Under one policy and equally far, with alike tokens ahead, after alike faults. -/
structure Twins (near : Nat → Nat → Prop) (p q : Parser) : Prop where
  ahead : ∃ ts us, p.Ahead ts ∧ q.Ahead us ∧ List.Forall₂ (Token.Alike near) ts us
  policy : q.policy = p.policy
  pulled : q.pulled = p.pulled
  exhausted : q.exhausted = p.exhausted
  diagnostics : List.Forall₂ (Diagnostic.Alike near) p.diagnostics q.diagnostics

namespace Twins

variable {near : Nat → Nat → Prop} {p q : Parser}

theorem exists_ahead (h : p.Twins near q) : ∃ t u ts us, p.Ahead (t :: ts) ∧ q.Ahead (u :: us) ∧
    t.Alike near u ∧ List.Forall₂ (Token.Alike near) ts us := by
  obtain ⟨ts, us, here, there, alike⟩ := h.ahead
  obtain ⟨t, ts, rfl⟩ := here.exists_cons
  obtain ⟨u, us, rfl⟩ := there.exists_cons
  obtain - | ⟨same, more⟩ := alike
  exact ⟨t, u, ts, us, here, there, same, more⟩

theorem current (h : p.Twins near q) : p.current.Alike near q.current := by
  obtain ⟨t, u, ts, us, here, there, same, -⟩ := h.exists_ahead
  rwa [here.current, there.current]

theorem record (h : p.Twins near q) {d e : Diagnostic} (same : d.Alike near e) :
    (p.record d).Twins near (q.record e) where
  ahead := by
    obtain ⟨ts, us, here, there, alike⟩ := h.ahead
    exact ⟨ts, us, here.record d, there.record e, alike⟩
  policy := h.policy
  pulled := h.pulled
  exhausted := h.exhausted
  diagnostics := List.rel_append h.diagnostics (.cons same .nil)

theorem shift (h : p.Twins near q) : p.shift.Twins near q.shift where
  ahead := by
    obtain ⟨t, u, ts, us, here, there, same, more⟩ := h.exists_ahead
    -- Past the end both see the end again, and as their ends are alike they stay so.
    by_cases ended : t.kind = .endOfInput
    · have ended' := same.kind.trans ended
      exact ⟨_, _, here.shift_of_end ended, there.shift_of_end ended', .cons same more⟩
    · have going : u.kind ≠ .endOfInput := by rwa [same.kind]
      exact ⟨_, _, here.shift ended, there.shift going, more⟩
  policy := h.policy
  pulled := congrArg (· + 1) h.pulled
  exhausted := h.exhausted
  diagnostics := h.diagnostics

theorem peek (h : p.Twins near q) : p.peek.Alike near q.peek :=
  h.shift.current

theorem stuck (h : p.Twins near q) : q.isStuck = p.isStuck := by
  obtain ⟨t, u, ts, us, here, there, same, -⟩ := h.exists_ahead
  have drained : q.isDrained = p.isDrained := by
    rw [Bool.eq_iff_iff, here.isDrained_iff, there.isDrained_iff, same.kind]
  rw [isStuck, isStuck, drained, h.policy]

theorem exhaust (h : p.Twins near q) (limit : Nat) :
    (p.exhaust limit).Twins near (q.exhaust limit) where
  ahead := by
    obtain ⟨ts, us, here, there, alike⟩ := h.ahead
    exact ⟨ts, us, here.exhaust limit, there.exhaust limit, alike⟩
  policy := h.policy
  pulled := h.pulled
  exhausted := rfl
  diagnostics := List.rel_append h.diagnostics (.cons ⟨rfl, h.current.start⟩ .nil)

theorem advance (h : p.Twins near q) : p.advance.Twins near q.advance := by
  rw [Parser.advance, Parser.advance, h.exhausted, h.policy, h.pulled]
  split
  · exact h
  · split
    · exact h.shift
    · split
      · exact h.shift
      · exact h.exhaust _

theorem lockstep (near : Nat → Nat → Prop) : Lockstep near (Twins near) where
  current _ _ h := h.current
  peek _ _ h := h.peek
  exhausted _ _ h := h.exhausted
  stuck _ _ h := h.stuck
  advance _ _ h := h.advance
  unexpected _ _ h kind := h.record (Walk.unexpected_alike h.peek kind)
  unrecognised p q h := by
    rw [h.policy]
    split
    · exact h.record (Walk.unrecognised_alike h.current)
    · exact h

theorem ofSource {source other : String} (policy : Policy)
    (alike : List.Forall₂ (Token.Alike near) (tokenize source) (tokenize other)) :
    (ofSource policy source).Twins near (ofSource policy other) where
  ahead :=
    ⟨_, _, (faces_ofSource policy source).ahead, (faces_ofSource policy other).ahead, alike⟩
  policy := rfl
  pulled := rfl
  exhausted := rfl
  diagnostics := .nil

end Twins

/-- Sources whose tokens differ in their places only are parsed alike under any policy. -/
theorem parse?_alike {near : Nat → Nat → Prop} {source other : String} (policy : Policy)
    (alike : List.Forall₂ (Token.Alike near) (tokenize source) (tokenize other)) :
    Both (fun program read =>
      List.Forall₂ (Statement.Alike near) program.statements read.statements)
      (Twins near) (parse? policy source) (parse? policy other) :=
  ((Twins.lockstep near).parseStatements (.ofSource policy alike)).map (f := Program.mk)
    (g := Program.mk) fun _ _ => id

end Scriptlet.Parser
