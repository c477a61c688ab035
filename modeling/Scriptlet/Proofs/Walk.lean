import Scriptlet.Proofs.Rounds

/-!
A plain walk over a finished list of tokens, and the parser as a refinement of
it. The walk looks at the list where the parser has a window of two tokens, and
leaps to a semicolon where the parser searches for one. Both find the same
statements and the same faults, and where the walk misses a semicolon the parser
never comes back.
-/

namespace Scriptlet

/-- What a walk has found, and whether it found every semicolon it looked for. -/
structure Walk where
  statements : List Statement
  diagnostics : List Diagnostic
  whole : Bool
deriving DecidableEq

namespace Walk

def finished : Walk := ⟨[], [], true⟩

def stranded : Walk := ⟨[], [], false⟩

def emit (statement : Statement) (w : Walk) : Walk :=
  { w with statements := statement :: w.statements }

def report (d : Diagnostic) (w : Walk) : Walk :=
  { w with diagnostics := d :: w.diagnostics }

def afterSemicolon : List Token → Option (List Token)
  | [] => none
  | t :: rest => if t.kind = .semicolon then some rest else afterSemicolon rest

theorem split_of_afterSemicolon {tokens rest : List Token}
    (h : afterSemicolon tokens = some rest) : ∃ skipped t, tokens = skipped ++ t :: rest ∧
      (∀ s ∈ skipped, s.kind ≠ .semicolon) ∧ t.kind = .semicolon := by
  induction tokens with
  | nil => simp [afterSemicolon] at h
  | cons t tokens ih =>
    rw [afterSemicolon] at h
    split at h
    · next found =>
      obtain rfl := Option.some.inj h
      exact ⟨[], t, rfl, by simp, found⟩
    · next other =>
      obtain ⟨skipped, u, rfl, others, found⟩ := ih h
      exact ⟨t :: skipped, u, rfl, List.forall_mem_cons.2 ⟨other, others⟩, found⟩

theorem afterSemicolon_append {skipped rest : List Token} {t : Token}
    (others : ∀ s ∈ skipped, s.kind ≠ .semicolon) (found : t.kind = .semicolon) :
    afterSemicolon (skipped ++ t :: rest) = some rest := by
  induction skipped with
  | nil => exact if_pos found
  | cons s skipped ih =>
    rw [List.cons_append, afterSemicolon, if_neg (others s List.mem_cons_self)]
    exact ih (List.forall_mem_cons.1 others).2

theorem afterSemicolon_eq_none_iff {tokens : List Token} :
    afterSemicolon tokens = none ↔ ∀ t ∈ tokens, t.kind ≠ .semicolon := by
  induction tokens with
  | nil => simp [afterSemicolon]
  | cons t rest ih =>
    by_cases found : t.kind = .semicolon
    · simp [afterSemicolon, found]
    · simp [afterSemicolon, found, ih]

theorem length_of_afterSemicolon {tokens rest : List Token}
    (h : afterSemicolon tokens = some rest) : rest.length < tokens.length := by
  obtain ⟨skipped, t, rfl, -, -⟩ := split_of_afterSemicolon h
  simp only [List.length_append, List.length_cons]
  omega

/-- Walks over the tokens from its place on. One step leaves behind a token that
starts no statement, what a binding has got right before it stumbles, or all of
a statement up to its semicolon. -/
def along (strict : Bool) : List Token → Walk
  | [] => finished
  | t :: rest =>
    match t.kind with
    | .endOfInput => finished
    | .letWord =>
      match rest with
      | [] => finished
      | name :: rest =>
        if name.kind = .identifier then
          match rest with
          | [] => finished
          | sign :: rest =>
            if sign.kind = .assign then
              match _h : afterSemicolon rest with
              | none => stranded
              | some rest => (along strict rest).emit (.letBinding t (.ofToken name) none)
            else (along strict (sign :: rest)).report (Parser.unexpected .assign sign)
        else (along strict (name :: rest)).report (Parser.unexpected .identifier name)
    | .returnWord =>
      match _h : afterSemicolon rest with
      | none => stranded
      | some rest => (along strict rest).emit (.returnValue t none)
    | _ => if strict then (along strict rest).report (Parser.unrecognised t) else along strict rest
termination_by tokens => tokens.length
decreasing_by
  all_goals
    try have := length_of_afterSemicolon _h
    simp only [List.length_cons]
    omega

section
variable {strict : Bool} {t name sign : Token} {rest left : List Token}

theorem along_ended (ended : t.kind = .endOfInput) : along strict (t :: rest) = finished := by
  rw [along.eq_def]
  simp only [ended]

theorem along_letBinding (word : t.kind = .letWord) (named : name.kind = .identifier)
    (assigned : sign.kind = .assign) (closed : afterSemicolon rest = some left) :
    along strict (t :: name :: sign :: rest) =
      (along strict left).emit (.letBinding t (.ofToken name) none) := by
  rw [along.eq_def]
  simp only [word, named, assigned, if_true]
  split
  · next missing => simp [missing] at closed
  · next found => rw [Option.some.inj (closed.symm.trans found)]

theorem along_returnValue (word : t.kind = .returnWord) (closed : afterSemicolon rest = some left) :
    along strict (t :: rest) = (along strict left).emit (.returnValue t none) := by
  rw [along.eq_def]
  simp only [word]
  split
  · next missing => simp [missing] at closed
  · next found => rw [Option.some.inj (closed.symm.trans found)]

theorem along_let_unclosed (word : t.kind = .letWord) (named : name.kind = .identifier)
    (assigned : sign.kind = .assign) (missing : afterSemicolon rest = none) :
    along strict (t :: name :: sign :: rest) = stranded := by
  rw [along.eq_def]
  simp only [word, named, assigned, if_true]
  split
  · rfl
  · next found => simp [found] at missing

theorem along_return_unclosed (word : t.kind = .returnWord) (missing : afterSemicolon rest = none) :
    along strict (t :: rest) = stranded := by
  rw [along.eq_def]
  simp only [word]
  split
  · rfl
  · next found => simp [found] at missing

theorem along_unnamed (word : t.kind = .letWord) (other : name.kind ≠ .identifier) :
    along strict (t :: name :: rest) =
      (along strict (name :: rest)).report (Parser.unexpected .identifier name) := by
  rw [along.eq_def]
  simp only [word, if_neg other]

theorem along_unassigned (word : t.kind = .letWord) (named : name.kind = .identifier)
    (other : sign.kind ≠ .assign) : along strict (t :: name :: sign :: rest) =
      (along strict (sign :: rest)).report (Parser.unexpected .assign sign) := by
  rw [along.eq_def]
  simp only [word, if_pos named, if_neg other]

theorem along_unrecognised (ended : t.kind ≠ .endOfInput) (binds : t.kind ≠ .letWord)
    (returns : t.kind ≠ .returnWord) : along strict (t :: rest) =
      if strict then (along strict rest).report (Parser.unrecognised t) else along strict rest := by
  rw [along.eq_def]
  dsimp only
  split
  · contradiction
  · contradiction
  · contradiction
  · rfl

theorem along_other (ended : t.kind ≠ .endOfInput) (binds : t.kind ≠ .letWord)
    (returns : t.kind ≠ .returnWord) : along false (t :: rest) = along false rest := by
  rw [along_unrecognised ended binds returns, if_neg Bool.false_ne_true]

end

end Walk

/-- A statement begins here, and there is no semicolon to end it. -/
inductive Unclosed : List Token → Prop
  | letBinding {t name sign : Token} {rest : List Token} (word : t.kind = .letWord)
      (named : name.kind = .identifier) (assigned : sign.kind = .assign)
      (missing : ∀ s ∈ rest, s.kind ≠ .semicolon) : Unclosed (t :: name :: sign :: rest)
  | returnValue {t : Token} {rest : List Token} (word : t.kind = .returnWord)
      (missing : ∀ s ∈ rest, s.kind ≠ .semicolon) : Unclosed (t :: rest)

namespace Parser

section
variable {p : Parser} {policy : Policy} {all rest : List Token} {t name sign : Token}
  {ds : List Diagnostic}

theorem Faces.going (h : p.Faces policy all (t :: rest) ds) (going : t.kind ≠ .endOfInput) :
    p.current.kind ≠ .endOfInput := by
  rwa [h.ahead.current]

theorem Faces.parseStatement_unnamed (h : p.Faces policy all (t :: name :: rest) ds)
    (word : t.kind = .letWord) (other : name.kind ≠ .identifier) :
    p.parseStatement = some (none, p.record (unexpected .identifier name)) := by
  simp only [parseStatement, h.ahead.current, word, parseLet, h.expectPeek_unmet other]

theorem Faces.parseStatement_unassigned (h : p.Faces policy all (t :: name :: sign :: rest) ds)
    (lasts : policy.Affords (all.length + 1)) (word : t.kind = .letWord)
    (named : name.kind = .identifier) (other : sign.kind ≠ .assign) :
    p.parseStatement = some (none, p.advance.record (unexpected .assign sign)) := by
  have next := h.advance lasts (by simp [word])
  have met := h.expectPeek_met lasts
  rw [named] at met
  simp only [parseStatement, h.ahead.current, word, parseLet, met, next.expectPeek_unmet other]

theorem Faces.parseStatement_unrecognised (h : p.Faces policy all (t :: rest) ds)
    (binds : t.kind ≠ .letWord) (returns : t.kind ≠ .returnWord) : p.parseStatement =
      some (none, if policy.strict then p.record (unrecognised t) else p) := by
  rw [parseStatement, h.ahead.current, h.policy]
  split
  · contradiction
  · contradiction
  · rfl

theorem Faces.searches_letBinding (h : p.Faces policy all (t :: name :: sign :: rest) ds)
    (lasts : policy.Affords (all.length + 1)) (word : t.kind = .letWord)
    (named : name.kind = .identifier) (assigned : sign.kind = .assign) :
    ∃ r, p.Searches (.letBinding t (.ofToken name) none) r ∧
      r.Faces policy all (sign :: rest) ds := by
  have second := h.advance lasts (by simp [word])
  have third := second.advance lasts (by simp [named])
  have first := h.expectPeek_met lasts
  have next := second.expectPeek_met lasts
  rw [named] at first
  rw [assigned] at next
  have searches := Searches.letBinding (by rw [h.ahead.current, word]) first next
  rw [h.ahead.current, second.ahead.current] at searches
  exact ⟨_, searches, third⟩

theorem Faces.searches_returnValue (h : p.Faces policy all (t :: rest) ds)
    (lasts : policy.Affords (all.length + 1)) (word : t.kind = .returnWord) :
    ∃ r, p.Searches (.returnValue t none) r ∧ r.Faces policy all rest ds := by
  have searches := Searches.returnValue (p := p) (by rw [h.ahead.current, word])
  rw [h.ahead.current] at searches
  exact ⟨_, searches, h.advance lasts (by simp [word])⟩

theorem Faces.parseStatement_closed {r : Parser} {statement : Statement} {tokens : List Token}
    (h : r.Faces policy all tokens ds) (lasts : policy.Affords (all.length + 1))
    (searches : p.Searches statement r) (closed : Walk.afterSemicolon tokens = some rest) :
    ∃ q, p.parseStatement = some (some statement, q) ∧ q.advance.Faces policy all rest ds := by
  obtain ⟨skipped, s, rfl, others, found⟩ := Walk.split_of_afterSemicolon closed
  obtain ⟨q, skips, faces⟩ := h.skipToSemicolon_found lasts others found
  refine ⟨q, ?_, faces.advance lasts (by simp [found])⟩
  rw [searches.parseStatement_eq, skips]
  rfl

/-- The loop comes from `p` to where the walk ends: at the end of input, or
before a statement that is not closed. -/
def Retraces (p : Parser) (policy : Policy) (all : List Token) (ds : List Diagnostic)
    (w : Walk) : Prop :=
  ∃ q left, p.Reaches w.statements q ∧ q.Faces policy all left (ds ++ w.diagnostics) ∧
    if w.whole then ∃ t, left = [t] ∧ t.kind = .endOfInput else Unclosed left

section
variable {q : Parser} {w : Walk}

theorem Retraces.finished (h : p.Faces policy all [t] ds) (ended : t.kind = .endOfInput) :
    p.Retraces policy all ds .finished :=
  ⟨p, [t], .stay, by simpa [Walk.finished] using h, t, rfl, ended⟩

theorem Retraces.stranded (h : p.Faces policy all rest ds) (unclosed : Unclosed rest) :
    p.Retraces policy all ds .stranded :=
  ⟨p, rest, .stay, by simpa [Walk.stranded] using h, unclosed⟩

theorem Retraces.pass (going : p.current.kind ≠ .endOfInput) (running : p.exhausted = false)
    (parsed : p.parseStatement = some (none, q)) (more : q.advance.Retraces policy all ds w) :
    p.Retraces policy all ds w := by
  obtain ⟨r, left, reaches, faces, ends⟩ := more
  exact ⟨r, left, .round going running parsed reaches, faces, ends⟩

theorem Retraces.report {d : Diagnostic} (going : p.current.kind ≠ .endOfInput)
    (running : p.exhausted = false) (parsed : p.parseStatement = some (none, q))
    (more : q.advance.Retraces policy all (ds ++ [d]) w) :
    p.Retraces policy all ds (w.report d) := by
  obtain ⟨r, left, reaches, faces, ends⟩ := more
  rw [List.append_assoc] at faces
  exact ⟨r, left, .round going running parsed reaches, faces, ends⟩

theorem Retraces.emit {statement : Statement} (going : p.current.kind ≠ .endOfInput)
    (running : p.exhausted = false) (parsed : p.parseStatement = some (some statement, q))
    (more : q.advance.Retraces policy all ds w) :
    p.Retraces policy all ds (w.emit statement) := by
  obtain ⟨r, left, reaches, faces, ends⟩ := more
  exact ⟨r, left, .round going running parsed reaches, faces, ends⟩

end

theorem Faces.retraces {tokens : List Token} (h : p.Faces policy all tokens ds)
    (lasts : policy.Affords (all.length + 1)) :
    p.Retraces policy all ds (Walk.along policy.strict tokens) := by
  have follows {t : Token} {rest : List Token} {ds : List Diagnostic} {p : Parser}
      (h : p.Faces policy all (t :: rest) ds) (going : t.kind ≠ .endOfInput) :
      ∃ u us, rest = u :: us := (h.ahead.shift going).exists_cons
  generalize same : policy.strict = strict
  -- A list that stops short of the end of input is never ahead, so the walk
  -- does not look past what the parser can see.
  fun_induction Walk.along strict tokens generalizing p ds with
  | case1 =>
    obtain ⟨t, rest, impossible⟩ := h.ahead.exists_cons
    exact absurd impossible (by simp)
  | case2 t rest ended =>
    obtain rfl := h.ahead.rest_eq_nil ended
    exact .finished h ended
  | case3 t word =>
    obtain ⟨u, us, impossible⟩ := follows h (by simp [word])
    exact absurd impossible (by simp)
  | case4 t word name named =>
    have next := h.advance lasts (by simp [word])
    obtain ⟨u, us, impossible⟩ := follows next (by simp [named])
    exact absurd impossible (by simp)
  | case5 t word name named sign rest assigned missing =>
    exact .stranded h
      (.letBinding word named assigned (Walk.afterSemicolon_eq_none_iff.1 missing))
  | case6 t word name named sign rest assigned left closed ih =>
    obtain ⟨r, searches, faces⟩ := h.searches_letBinding lasts word named assigned
    have passes : Walk.afterSemicolon (sign :: rest) = some left := by
      rw [Walk.afterSemicolon, if_neg (by simp [assigned]), closed]
    obtain ⟨q, parsed, next⟩ := faces.parseStatement_closed lasts searches passes
    exact .emit (h.going (by simp [word])) h.running parsed (ih next)
  | case7 t word name named sign rest other ih =>
    have parsed := h.parseStatement_unassigned lasts word named other
    have second := h.advance lasts (by simp [word])
    have next := (second.record (unexpected .assign sign)).advance lasts (by simp [named])
    exact .report (h.going (by simp [word])) h.running parsed (ih next)
  | case8 t word name rest other ih =>
    have parsed := h.parseStatement_unnamed word other
    have next := (h.record (unexpected .identifier name)).advance lasts (by simp [word])
    exact .report (h.going (by simp [word])) h.running parsed (ih next)
  | case9 t rest word missing =>
    exact .stranded h (.returnValue word (Walk.afterSemicolon_eq_none_iff.1 missing))
  | case10 t rest word left closed ih =>
    obtain ⟨r, searches, faces⟩ := h.searches_returnValue lasts word
    obtain ⟨q, parsed, next⟩ := faces.parseStatement_closed lasts searches closed
    exact .emit (h.going (by simp [word])) h.running parsed (ih next)
  | case11 t rest strict ended binds returns ih =>
    have parsed := h.parseStatement_unrecognised binds returns
    rw [same, if_pos strict] at parsed
    have next := (h.record (unrecognised t)).advance lasts ended
    exact .report (h.going ended) h.running parsed (ih next)
  | case12 t rest lenient ended binds returns ih =>
    have parsed := h.parseStatement_unrecognised binds returns
    rw [same, if_neg lenient] at parsed
    exact .pass (h.going ended) h.running parsed (ih (h.advance lasts ended))

theorem Retraces.parseStatements_whole {w : Walk} (h : p.Retraces policy all ds w)
    (whole : w.whole) : ∃ q, p.parseStatements = some (w.statements, q) ∧
      q.exhausted = false ∧ q.pulled = all.length + 1 ∧ q.diagnostics = ds ++ w.diagnostics := by
  obtain ⟨q, left, reaches, faces, ends⟩ := h
  rw [if_pos whole] at ends
  obtain ⟨t, rfl, ended⟩ := ends
  have pulled := faces.pulled
  have done := parseStatements_of_done (p := q) (.inl (by rw [faces.ahead.current, ended]))
  refine ⟨q, ?_, faces.running, by simpa using pulled, faces.diagnostics⟩
  rw [reaches.parseStatements_eq, done]
  simp

theorem Faces.searches_of_unclosed {tokens : List Token} (h : p.Faces policy all tokens ds)
    (lasts : policy.Affords (all.length + 1)) (unclosed : Unclosed tokens) :
    ∃ statement r left, p.Searches statement r ∧ r.Faces policy all left ds ∧
      ∀ t ∈ left, t.kind ≠ .semicolon := by
  cases unclosed with
  | @letBinding t name sign rest word named assigned missing =>
    obtain ⟨r, searches, faces⟩ := h.searches_letBinding lasts word named assigned
    refine ⟨_, r, sign :: rest, searches, faces, ?_⟩
    rw [List.forall_mem_cons]
    exact ⟨by simp [assigned], missing⟩
  | returnValue word missing =>
    obtain ⟨r, searches, faces⟩ := h.searches_returnValue lasts word
    exact ⟨_, r, _, searches, faces, missing⟩

theorem Retraces.parseStatements_endless {w : Walk} (h : p.Retraces policy all ds w)
    (stranded : w.whole = false) (unlimited : policy.maxTokens = none) :
    p.parseStatements = none := by
  obtain ⟨q, left, reaches, faces, ends⟩ := h
  rw [if_neg (by simp [stranded])] at ends
  obtain ⟨statement, r, left, searches, ahead, missing⟩ :=
    faces.searches_of_unclosed (Policy.affords_of_unlimited unlimited _) ends
  have endless : q.parseStatement = none := by
    rw [searches.parseStatement_eq, ahead.skipToSemicolon_endless unlimited missing]
    rfl
  rw [reaches.parseStatements_eq,
    parseStatements_of_endless searches.going faces.running endless]
  rfl

end

end Parser

section
variable {policy : Policy} {source : String}

theorem parse?_of_whole (lasts : policy.Affords ((tokenize source).length + 1))
    (whole : (Walk.along policy.strict (tokenize source)).whole) :
    ∃ q, parse? policy source =
        some (⟨(Walk.along policy.strict (tokenize source)).statements⟩, q) ∧
      q.exhausted = false ∧ q.pulled = (tokenize source).length + 1 ∧
      q.diagnostics = (Walk.along policy.strict (tokenize source)).diagnostics := by
  have retraces := (Parser.faces_ofSource policy source).retraces lasts
  obtain ⟨q, parsed, running, pulled, found⟩ := retraces.parseStatements_whole whole
  refine ⟨q, ?_, running, pulled, found⟩
  rw [parse?, Parser.parseProgram, parsed]
  rfl

theorem parse?_of_endless (unlimited : policy.maxTokens = none)
    (stranded : (Walk.along policy.strict (tokenize source)).whole = false) :
    parse? policy source = none := by
  have lasts := Policy.affords_of_unlimited unlimited ((tokenize source).length + 1)
  have retraces := (Parser.faces_ofSource policy source).retraces lasts
  rw [parse?, Parser.parseProgram, retraces.parseStatements_endless stranded unlimited]
  rfl

theorem walk_of_parse? (unlimited : policy.maxTokens = none) {program : Program} {p : Parser}
    (parsed : parse? policy source = some (program, p)) :
    (Walk.along policy.strict (tokenize source)).whole ∧
      program.statements = (Walk.along policy.strict (tokenize source)).statements ∧
      p.diagnostics = (Walk.along policy.strict (tokenize source)).diagnostics := by
  by_cases whole : (Walk.along policy.strict (tokenize source)).whole
  · have lasts := Policy.affords_of_unlimited unlimited ((tokenize source).length + 1)
    obtain ⟨q, parsed', -, -, found⟩ := parse?_of_whole lasts whole
    obtain ⟨rfl, rfl⟩ := Prod.mk.inj (Option.some.inj (parsed.symm.trans parsed'))
    exact ⟨whole, rfl, found⟩
  · have endless := parse?_of_endless unlimited (Bool.eq_false_iff.2 whole)
    simp [endless] at parsed

end

/-- Without a limit the parser finds what a walk over the tokens finds, if the
walk comes to the end, and else it has no result. -/
theorem parse?_eq_walk (strict : Bool) (source : String) :
    (parse? ⟨strict, none⟩ source).map (fun (program, p) =>
        (program.statements, p.diagnostics, p.pulled, p.exhausted)) =
      let walk := Walk.along strict (tokenize source)
      if walk.whole then
        some (walk.statements, walk.diagnostics, (tokenize source).length + 1, false)
      else none := by
  by_cases whole : (Walk.along strict (tokenize source)).whole
  · have lasts := Policy.affords_of_unlimited (rfl : (⟨strict, none⟩ : Policy).maxTokens = none)
    obtain ⟨q, parsed, running, pulled, found⟩ := parse?_of_whole (lasts _) whole
    simp [parsed, running, pulled, found, whole]
  · have stranded : (Walk.along strict (tokenize source)).whole = false := by simpa using whole
    have endless : parse? ⟨strict, none⟩ source = none := parse?_of_endless rfl stranded
    simp [endless, whole]

end Scriptlet
