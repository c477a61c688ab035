import Scriptlet.Proofs.Limit
import Scriptlet.Proofs.Operations

/-!
What a limit costs, to the token. A parse that ends within its limit has pulled
every token of its source and one more, and one that does not has pulled as many
as it may and says so last of all.
-/

namespace Scriptlet

namespace Parser

/-- Under this limit, with nothing found since the limit was spent. -/
structure StopsAt (p : Parser) (limit : Nat) : Prop where
  limited : p.policy.maxTokens = some limit
  running : p.exhausted = false → ∀ d ∈ p.diagnostics, d.isLimit = false
  spent : p.exhausted → limit ≤ p.pulled ∧ ∃ found,
    p.diagnostics = found ++ [outOfTokens limit p.current] ∧ ∀ d ∈ found, d.isLimit = false

section
variable {p q : Parser} {limit : Nat}

theorem stopsAt_ofSource (strict : Bool) (limit : Nat) (source : String) :
    (ofSource ⟨strict, some limit⟩ source).StopsAt limit where
  limited := rfl
  running _ _ impossible := absurd impossible List.not_mem_nil
  spent impossible := absurd impossible Bool.false_ne_true

theorem StopsAt.advance (h : p.StopsAt limit) : p.advance.StopsAt limit := by
  rcases p.advance_cases with
    ⟨-, stays⟩ | ⟨running, -, shifts⟩ | ⟨running, l, limited, beyond, stops⟩
  · rwa [stays]
  · rw [shifts]
    exact ⟨h.limited, h.running, fun spent => absurd (running.symm.trans spent) Bool.false_ne_true⟩
  · obtain rfl : limit = l := Option.some.inj (h.limited.symm.trans limited)
    rw [stops]
    refine ⟨h.limited, fun impossible => absurd impossible.symm Bool.false_ne_true, fun _ => ?_⟩
    exact ⟨beyond, p.diagnostics, rfl, h.running running⟩

theorem StopsAt.record (h : p.StopsAt limit) (running : p.exhausted = false) {d : Diagnostic}
    (fault : d.isLimit = false) : (p.record d).StopsAt limit where
  limited := h.limited
  running _ := List.forall_mem_append.2 ⟨h.running running, by simpa using fault⟩
  spent spent := absurd (running.symm.trans spent) Bool.false_ne_true

theorem Moves.stopsAt
    (h : p.Moves (fun r d => r.exhausted = false ∧ d.isLimit = false) q)
    (start : p.StopsAt limit) : q.StopsAt limit := by
  induction h with
  | stay => exact start
  | advance more ih => exact ih start.advance
  | record allowed more ih => exact ih (start.record allowed.1 allowed.2)

end

end Parser

section
variable {strict : Bool} {source : String} {limit : Nat} {program : Program} {p : Parser}

theorem parse?_eq_none_iff {policy : Policy} (unlimited : policy.maxTokens = none)
    (source : String) : parse? policy source = none ↔
      (Walk.along policy.strict (tokenize source)).whole = false := by
  constructor
  · intro endless
    by_contra whole
    rw [Bool.not_eq_false] at whole
    obtain ⟨q, parsed, -⟩ := parse?_of_whole (Policy.affords_of_unlimited unlimited _) whole
    simp [endless] at parsed
  · exact parse?_of_endless unlimited

theorem exists_lasting (strict : Bool) (limit : Nat) (source : String) : ∃ more,
    Policy.Tighter ⟨strict, some limit⟩ ⟨strict, some more⟩ ∧
      Policy.Affords ⟨strict, some more⟩ ((tokenize source).length + 1) := by
  refine ⟨max limit ((tokenize source).length + 1), Policy.tighter_of_le strict ?_, ?_⟩
  · rintro l ⟨⟩
    exact Nat.le_max_left _ _
  · rintro l ⟨⟩
    exact Nat.le_max_right _ _

theorem parse?_keeps {tight loose : Policy} (tighter : tight.Tighter loose)
    (parsed : parse? tight source = some (program, p)) {long : Program} {q : Parser}
    (onward : parse? loose source = some (long, q)) :
    program.statements = long.statements ∧ p.InStep q ∨
      program.statements <+: long.statements ∧ p.Stopped q := by
  obtain ⟨statements, p', read, keeps⟩ := (Parser.inStep_ofSource tighter source).parseStatements
    (Parser.parseStatements_of_parseProgram onward)
  have same := (Parser.parseStatements_of_parseProgram parsed).symm.trans read
  obtain ⟨rfl, rfl⟩ := Prod.mk.inj (Option.some.inj same)
  exact keeps

theorem walk_of_running (parsed : parse? ⟨strict, some limit⟩ source = some (program, p))
    (running : p.exhausted = false) : (Walk.along strict (tokenize source)).whole ∧
      p.pulled = (tokenize source).length + 1 ∧
      program.statements = (Walk.along strict (tokenize source)).statements ∧
      p.diagnostics = (Walk.along strict (tokenize source)).diagnostics := by
  obtain ⟨more, tighter, lasts⟩ := exists_lasting strict limit source
  have inStep {long : Program} {q : Parser}
      (onward : parse? ⟨strict, some more⟩ source = some (long, q)) :
      program.statements = long.statements ∧ p.InStep q := by
    rcases parse?_keeps tighter parsed onward with next | ⟨-, behind⟩
    · exact next
    · exact absurd behind.exhausted (by simp [running])
  by_cases whole : (Walk.along strict (tokenize source)).whole
  · obtain ⟨q, onward, -, pulled, found⟩ := parse?_of_whole lasts whole
    obtain ⟨statements, next⟩ := inStep onward
    rw [next.same] at pulled found
    exact ⟨whole, pulled, statements, found⟩
  · obtain ⟨last, ends, ended⟩ := getLast?_tokenize source
    have stranded : (Walk.along strict (tokenize source)).whole = false := by simpa using whole
    obtain ⟨q, onward, spent⟩ := parse?_of_stranded rfl lasts stranded ends ended
    exact absurd spent.exhausted (by simp [(inStep onward).2.running_right])

theorem whole_of_running (parsed : parse? ⟨strict, some limit⟩ source = some (program, p))
    (running : p.exhausted = false) : (Walk.along strict (tokenize source)).whole ∧
      p.pulled = (tokenize source).length + 1 := by
  obtain ⟨whole, pulled, -⟩ := walk_of_running parsed running
  exact ⟨whole, pulled⟩

theorem running_of_whole (parsed : parse? ⟨strict, some limit⟩ source = some (program, p))
    (whole : (Walk.along strict (tokenize source)).whole)
    (lasts : (tokenize source).length + 1 ≤ limit) : p.exhausted = false := by
  have affords : Policy.Affords ⟨strict, some limit⟩ ((tokenize source).length + 1) := by
    rintro l ⟨⟩
    exact lasts
  obtain ⟨q, parsed', running, -⟩ := parse?_of_whole affords whole
  obtain ⟨-, rfl⟩ := Prod.mk.inj (Option.some.inj (parsed.symm.trans parsed'))
  exact running

theorem parse?_of_empty {policy : Policy} (empty : (tokenize source).dropLast = []) :
    parse? policy source = some (⟨[]⟩, .ofSource policy source) := by
  obtain ⟨last, same, ended, -⟩ := tokenize_eq_concat source
  have faces := Parser.faces_ofSource policy source
  rw [same, empty] at faces
  have done := Parser.parseStatements_of_done (.inl (faces.ahead.current ▸ ended))
  rw [parse?, Parser.parseProgram, done]
  rfl

theorem along_of_empty (strict : Bool) (empty : (tokenize source).dropLast = []) :
    Walk.along strict (tokenize source) = .finished ∧ (tokenize source).length = 1 := by
  obtain ⟨last, same, ended, -⟩ := tokenize_eq_concat source
  rw [empty, List.nil_append] at same
  rw [same]
  exact ⟨Walk.along_ended ended, rfl⟩

theorem parse?_of_room {policy : Policy}
    (room : ∀ limit ∈ policy.maxTokens, (tokenize source).length + 1 ≤ max 2 limit)
    (whole : (Walk.along policy.strict (tokenize source)).whole) :
    ∃ q, parse? policy source =
        some (⟨(Walk.along policy.strict (tokenize source)).statements⟩, q) ∧
      q.diagnostics = (Walk.along policy.strict (tokenize source)).diagnostics := by
  by_cases empty : (tokenize source).dropLast = []
  · rw [(along_of_empty policy.strict empty).1]
    exact ⟨_, parse?_of_empty empty, rfl⟩
  · have some := List.length_pos_iff.2 empty
    rw [List.length_dropLast] at some
    have lasts : policy.Affords ((tokenize source).length + 1) := by
      intro limit limited
      have := room limit limited
      omega
    obtain ⟨q, parsed, -, -, found⟩ := parse?_of_whole lasts whole
    exact ⟨q, parsed, found⟩

theorem running_of_empty {policy : Policy} (parsed : parse? policy source = some (program, p))
    (empty : (tokenize source).dropLast = []) : p.exhausted = false := by
  obtain ⟨-, rfl⟩ := Prod.mk.inj (Option.some.inj (parsed.symm.trans (parse?_of_empty empty)))
  rfl

end

/-- With a limit a parse always ends. It is exhausted if there is anything to read and
the limit is less than two more than there are tokens before the end, or no limit would
suffice; and it has then pulled all that it may and reports so once, at the token where
it stopped. -/
theorem parse?_limited (strict : Bool) (source : String) (limit : Nat) :
    ∃ program p, parse? ⟨strict, some limit⟩ source = some (program, p) ∧
      let count := (tokenize source).dropLast.length
      (p.exhausted ↔
        1 ≤ count ∧ (limit < count + 2 ∨ parse? ⟨strict, none⟩ source = none)) ∧
      (p.exhausted = false → p.pulled = count + 2 ∧ ∀ d ∈ p.diagnostics, d.isLimit = false) ∧
      (p.exhausted → p.pulled = max 2 limit ∧ ∃ found,
        p.diagnostics = found ++ [Parser.outOfTokens limit (stream source (max 2 limit - 2))] ∧
          ∀ d ∈ found, d.isLimit = false) := by
  let count := (tokenize source).dropLast.length
  have length : (tokenize source).length = count + 1 := by
    obtain ⟨last, same, -⟩ := tokenize_eq_concat source
    rw [same, List.length_append, List.length_singleton]
  have ends := @parse?_isSome ⟨strict, some limit⟩ rfl source
  obtain ⟨⟨program, p⟩, parsed⟩ := Option.isSome_iff_exists.1 ends
  have moves := Parser.parseStatements_moves
    (fun r d (running : r.exhausted = false) (fault : d.isLimit = false) => And.intro running fault)
    (Parser.parseStatements_of_parseProgram parsed)
  have aligned := (moves.watches (Parser.watches_ofSource _ source)).aligned
  have within := moves.withinLimit fun l _ => Nat.le_max_left 2 l
  have stops := moves.stopsAt (Parser.stopsAt_ofSource strict limit source)
  have most := within limit stops.limited
  have least := aligned.two_le
  have free (running : p.exhausted = false) := whole_of_running parsed running
  refine ⟨program, p, parsed, ⟨fun spent => ?_, ?_⟩, fun running => ?_, fun spent => ?_⟩
  · constructor
    · by_contra none
      have := running_of_empty parsed (List.eq_nil_of_length_eq_zero (by omega))
      simp [spent] at this
    · by_contra enough
      rw [not_or, Nat.not_lt, parse?_eq_none_iff rfl, Bool.not_eq_false] at enough
      have := running_of_whole parsed enough.2 (by omega)
      simp [spent] at this
  · rintro ⟨some, short⟩
    by_contra running
    obtain ⟨whole, pulled⟩ := free (Bool.eq_false_iff.2 running)
    rcases short with short | endless
    · omega
    · rw [parse?_eq_none_iff rfl, whole] at endless
      exact Bool.false_ne_true endless.symm
  · have pulled := (free running).2
    exact ⟨by omega, stops.running running⟩
  · obtain ⟨reached, found, same, faults⟩ := stops.spent spent
    have pulled : p.pulled = max 2 limit := by omega
    rw [aligned.current, pulled] at same
    exact ⟨pulled, found, same, faults⟩

end Scriptlet
