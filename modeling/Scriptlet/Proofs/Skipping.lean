import Scriptlet.Proofs.Operations

/-!
How far a search for a semicolon goes, by indices of the stream. It stops at the first
semicolon from the current token on if the limit lasts that long, and otherwise where the
limit is spent. Without a limit it goes on for as long as no semicolon comes.
-/

namespace Scriptlet

/-- The first semicolon of the stream from an index on. -/
structure FirstSemicolon (source : String) (i j : Nat) : Prop where
  behind : i ≤ j
  semicolon : (stream source j).kind = .semicolon
  others : ∀ k, i ≤ k → k < j → (stream source k).kind ≠ .semicolon

section
variable {source : String} {i j k : Nat}

theorem FirstSemicolon.unique (h : FirstSemicolon source i j) (l : FirstSemicolon source i k) :
    j = k := by
  rcases Nat.lt_trichotomy j k with before | same | after
  · exact absurd h.semicolon (l.others j h.behind before)
  · exact same
  · exact absurd l.semicolon (h.others k l.behind after)

theorem FirstSemicolon.here (semicolon : (stream source i).kind = .semicolon) :
    FirstSemicolon source i i :=
  ⟨Nat.le_refl i, semicolon, fun _ behind before => absurd before (Nat.not_lt.2 behind)⟩

theorem FirstSemicolon.of_succ (h : FirstSemicolon source (i + 1) j)
    (other : (stream source i).kind ≠ .semicolon) : FirstSemicolon source i j := by
  refine ⟨Nat.le_of_succ_le h.behind, h.semicolon, fun k behind before => ?_⟩
  rcases Nat.eq_or_lt_of_le behind with rfl | after
  · exact other
  · exact h.others k after before

end

namespace Parser

/-- The second parser is the first one, moved to the token at an index and otherwise as it
was. -/
structure RestsOn (p q : Parser) (source : String) (j : Nat) : Prop where
  current : q.current = stream source j
  pulled : q.pulled = j + 2
  diagnostics : q.diagnostics = p.diagnostics
  exhausted : q.exhausted = p.exhausted

/-- The limit is spent, and that has been reported: now if it was not before. -/
structure GivesUp (p q : Parser) : Prop where
  exhausted : q.exhausted
  before : p.exhausted → q.pulled = p.pulled ∧ q.diagnostics = p.diagnostics
  now : p.exhausted = false → ∃ limit ∈ p.policy.maxTokens, q.pulled = max limit p.pulled ∧
    q.diagnostics = p.diagnostics ++ [outOfTokens limit q.current]

inductive SkipEnds (source : String) (p : Parser) : Bool → Parser → Prop
  | found {q : Parser} {j : Nat} (first : FirstSemicolon source (p.pulled - 2) j)
      (reached : j = p.pulled - 2 ∨ p.exhausted = false ∧ p.policy.Affords (j + 2))
      (rests : p.RestsOn q source j) : SkipEnds source p true q
  | stays (other : p.current.kind ≠ .semicolon) (spent : p.exhausted) : SkipEnds source p false p
  | spends {q : Parser} {limit : Nat} (running : p.exhausted = false)
      (limited : limit ∈ p.policy.maxTokens)
      (missing : ∀ k, p.pulled ≤ k + 2 → k + 2 ≤ max limit p.pulled →
        (stream source k).kind ≠ .semicolon)
      (exhausted : q.exhausted) (pulled : q.pulled = max limit p.pulled)
      (diagnostics : q.diagnostics = p.diagnostics ++ [outOfTokens limit q.current]) :
      SkipEnds source p false q

section
variable {p q : Parser} {source : String} {found : Bool}

theorem SkipEnds.of_shift (h : p.shift.SkipEnds source found q) (here : p.Aligned source)
    (running : p.exhausted = false) (lasts : ∀ limit ∈ p.policy.maxTokens, p.pulled < limit)
    (other : p.current.kind ≠ .semicolon) : p.SkipEnds source found q := by
  have two := here.two_le
  have pulls : p.shift.pulled = p.pulled + 1 := rfl
  have index : p.shift.pulled - 2 = p.pulled - 2 + 1 := by omega
  rw [here.current] at other
  cases h with
  | @found q j first reached rests =>
    rw [index] at first reached
    refine .found (first.of_succ other) (.inr ⟨running, ?_⟩)
      ⟨rests.current, rests.pulled, rests.diagnostics, rests.exhausted⟩
    rcases reached with rfl | ⟨-, affords⟩
    · intro limit limited
      have := lasts limit limited
      omega
    · exact affords
  | stays _ spent =>
    have kept : p.shift.exhausted = p.exhausted := rfl
    rw [kept, running] at spent
    exact absurd spent Bool.false_ne_true
  | @spends q limit _ limited missing exhausted pulled diagnostics =>
    have further := lasts limit limited
    refine .spends running limited (fun k behind within => ?_) exhausted (by omega) diagnostics
    rcases Nat.eq_or_lt_of_le behind with same | after
    · obtain rfl : p.pulled - 2 = k := by omega
      exact other
    · exact missing k after (by omega)

theorem SkipEnds.of_spent {limit : Nat} (here : p.Aligned source) (running : p.exhausted = false)
    (limited : limit ∈ p.policy.maxTokens) (beyond : limit ≤ p.pulled)
    (other : p.current.kind ≠ .semicolon) : p.SkipEnds source false (p.exhaust limit) := by
  have two := here.two_le
  have kept : (p.exhaust limit).pulled = p.pulled := rfl
  refine .spends running limited (fun k behind within => ?_) rfl (by omega) rfl
  obtain rfl : p.pulled - 2 = k := by omega
  rwa [← here.current]

/-- One case for each way out of the loop. A step of the loop keeps to the case, as it moves
over a token that is no semicolon while the limit lasts. -/
theorem skipToSemicolon_skipEnds (here : p.Watches source)
    (h : p.skipToSemicolon = some (found, q)) : p.SkipEnds source found q := by
  fun_induction skipToSemicolon p with
  | case1 p semicolon =>
    obtain ⟨rfl, rfl⟩ := Prod.mk.inj (Option.some.inj h)
    have two := here.aligned.two_le
    have current := here.aligned.current
    rw [current] at semicolon
    exact .found (.here semicolon) (.inl rfl) ⟨current, by omega, rfl, rfl⟩
  | case2 p other spent =>
    obtain ⟨rfl, rfl⟩ := Prod.mk.inj (Option.some.inj h)
    exact .stays other spent
  | case3 => simp at h
  | case4 p other going moves ih =>
    have running := Bool.eq_false_iff.2 going
    rcases p.advance_cases with ⟨spent, -⟩ | ⟨-, lasts, shifts⟩ | ⟨-, limit, limited, beyond, stops⟩
    · exact absurd spent going
    · rw [shifts] at h ih
      exact (ih here.shift h).of_shift here.aligned running lasts other
    · have stays : (p.exhaust limit).skipToSemicolon = some (false, p.exhaust limit) :=
        skipToSemicolon_of_exhausted (p := p.exhaust limit) rfl other
      rw [stops, stays] at h
      obtain ⟨rfl, rfl⟩ := Prod.mk.inj (Option.some.inj h)
      exact .of_spent here.aligned running limited beyond other

theorem Watches.advanced (here : p.Watches source) (running : p.exhausted = false)
    (unlimited : p.policy.maxTokens = none) (n : Nat) :
    (p.advanced n).current = stream source (p.pulled - 2 + n) := by
  induction n generalizing p with
  | zero => exact here.aligned.current
  | succ n ih =>
    have two := here.aligned.two_le
    have shifts := advance_eq_shift running (Policy.affords_of_unlimited unlimited _)
    have pulls : p.shift.pulled = p.pulled + 1 := rfl
    rw [Parser.advanced, shifts, ih here.shift running unlimited, pulls]
    exact congrArg (stream source) (by omega)

theorem skipToSemicolon_isSome_iff_advanced : p.skipToSemicolon.isSome ↔
    ∃ n, (p.advanced n).current.kind = .semicolon ∨ (p.advanced n).exhausted := by
  rw [Option.isSome_iff_ne_none, Ne, skipToSemicolon_eq_none_iff, not_forall]
  refine exists_congr fun n => ?_
  rw [not_and_or, not_not, Bool.not_eq_false]

theorem skipToSemicolon_isSome_iff (here : p.Watches source)
    (free : p.policy.maxTokens = none → p.exhausted = false) : p.skipToSemicolon.isSome ↔
      (∃ j, FirstSemicolon source (p.pulled - 2) j) ∨ p.policy.maxTokens.isSome := by
  constructor
  · intro ends
    obtain ⟨⟨found, q⟩, result⟩ := Option.isSome_iff_exists.1 ends
    cases skipToSemicolon_skipEnds here result with
    | @found q j first reached rests => exact .inl ⟨j, first⟩
    | stays other spent =>
      right
      rw [Option.isSome_iff_ne_none]
      intro unlimited
      exact absurd spent (by simp [free unlimited])
    | spends running limited missing exhausted pulled diagnostics =>
      exact .inr (Option.isSome_of_mem limited)
  · rintro (⟨j, first⟩ | limited)
    · by_cases limited : p.policy.maxTokens.isSome
      · exact skipToSemicolon_isSome limited
      · have unlimited := Option.not_isSome_iff_eq_none.1 limited
        refine skipToSemicolon_isSome_iff_advanced.2 ⟨j - (p.pulled - 2), .inl ?_⟩
        rw [here.advanced (free unlimited) unlimited, Nat.add_sub_cancel' first.behind]
        exact first.semicolon
    · exact skipToSemicolon_isSome limited

end

/-- A search for a semicolon has an end if one comes or if there is a limit. It gets to the
first one if the parser stands there or if the limit lasts so far, and leaves the parser as it
was otherwise. If it does not get there it has spent the limit, and reported that once. -/
theorem skipToSemicolon_exact (policy : Policy) (source : String) {operations : List Operation}
    {p : Parser} (h : (ofSource policy source).performAll? operations = some p) :
    let i := p.pulled - 2
    p.pulled = i + 2 ∧ p.current = stream source i ∧
    (p.skipToSemicolon.isSome ↔ (∃ j, FirstSemicolon source i j) ∨ policy.maxTokens.isSome) ∧
    (p.skipToSemicolon.isSome ↔
      ∃ n, (p.advanced n).current.kind = .semicolon ∨ (p.advanced n).exhausted) ∧
    ∀ found q, p.skipToSemicolon = some (found, q) →
      (found ↔ ∃ j, FirstSemicolon source i j ∧
        (j = i ∨ p.exhausted = false ∧ policy.Affords (j + 2))) ∧
      (found → ∀ j, FirstSemicolon source i j → p.RestsOn q source j) ∧
      (found = false → p.GivesUp q) := by
  intro i
  have moves : (ofSource policy source).Moves (fun _ _ => True) p :=
    performAll?_moves (fun _ _ _ => trivial) (fun _ _ _ => trivial) h
  have here := moves.watches (watches_ofSource policy source)
  have kept : p.policy = policy := moves.follows.policy
  have free (unlimited : p.policy.maxTokens = none) : p.exhausted = false :=
    moves.unlimited (kept ▸ unlimited) rfl
  have two := here.aligned.two_le
  have current : p.current = stream source i := here.aligned.current
  refine ⟨by omega, current, kept ▸ skipToSemicolon_isSome_iff here free,
    skipToSemicolon_isSome_iff_advanced, fun found q result => ?_⟩
  cases skipToSemicolon_skipEnds here result with
  | @found q j first reached rests =>
    refine ⟨iff_of_true rfl ⟨j, first, kept ▸ reached⟩, fun _ k other => ?_, by simp⟩
    exact first.unique other ▸ rests
  | stays other spent =>
    refine ⟨iff_of_false Bool.false_ne_true ?_, by simp, fun _ => ⟨spent, fun _ => ⟨rfl, rfl⟩, ?_⟩⟩
    · rintro ⟨j, first, rfl | ⟨running, -⟩⟩
      · exact other (current ▸ first.semicolon)
      · simp [running] at spent
    · intro running
      simp [running] at spent
  | @spends q limit running limited missing exhausted pulled diagnostics =>
    refine ⟨iff_of_false Bool.false_ne_true ?_, by simp, fun _ => ⟨exhausted, ?_, ?_⟩⟩
    · rintro ⟨j, first, reached⟩
      have affords : j + 2 ≤ max limit p.pulled := by
        rcases reached with rfl | ⟨-, affords⟩
        · omega
        · exact Nat.le_trans (affords limit (kept ▸ limited)) (Nat.le_max_left _ _)
      have behind := first.behind
      exact missing j (by omega) affords first.semicolon
    · intro spent
      simp [running] at spent
    · exact fun _ => ⟨limit, limited, pulled, diagnostics⟩

theorem skipToSemicolon_exact_six :
    let operations : List Operation := [.expectPeek .identifier, .expectPeek .assign]
    ∃ p, (ofSource ⟨false, some 6⟩ "let a = 1 2;").performAll? operations = some p ∧
      p.pulled = 4 ∧ FirstSemicolon "let a = 1 2;" 2 5 ∧
      ∃ q, p.skipToSemicolon = some (false, q) ∧ p.GivesUp q := by
  intro operations
  let start : Parser := ofSource ⟨false, some 6⟩ "let a = 1 2;"
  obtain ⟨p, done⟩ := Option.isSome_iff_exists.1 (@performAll?_isSome start rfl operations)
  obtain ⟨-, -, ends, -, results⟩ := skipToSemicolon_exact ⟨false, some 6⟩ "let a = 1 2;" done
  obtain ⟨⟨found, q⟩, result⟩ := Option.isSome_iff_exists.1 (ends.2 (.inr rfl))
  obtain ⟨reached, -, fails⟩ := results found q result
  have pulled : (start.performAll? operations).map Parser.pulled = some 4 := by decide +kernel
  rw [done] at pulled
  have two : p.pulled = 4 := Option.some.inj pulled
  have others : ∀ k < 5, 2 ≤ k → (stream "let a = 1 2;" k).kind ≠ .semicolon := by decide +kernel
  have first : FirstSemicolon "let a = 1 2;" 2 5 :=
    ⟨by decide, by decide +kernel, fun k behind before => others k before behind⟩
  refine ⟨p, done, two, first, ?_⟩
  cases found with
  | false => exact ⟨q, result, fails rfl⟩
  | true =>
    obtain ⟨j, found, near⟩ := reached.1 rfl
    rw [two] at found near
    obtain rfl := found.unique first
    rcases near with impossible | ⟨-, affords⟩
    · exact absurd impossible (by decide)
    · exact absurd (affords 6 rfl) (by decide)

end Parser

end Scriptlet
