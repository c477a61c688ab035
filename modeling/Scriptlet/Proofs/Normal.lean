import Mathlib.Data.List.Flatten
import Scriptlet.Command.Outcome
import Scriptlet.Proofs.Accounting
import Scriptlet.Proofs.Grammar
import Scriptlet.Proofs.Reprint

/-!
The printed form of a program that was read. It is read back as what it shows, and
it has no more tokens than any source of the same program, so a limit that was enough
for the source is enough for it. Printing what was read is thus done with at once: a
second time changes nothing.
-/

namespace Scriptlet

namespace Statement

/-- As a parser gives it: with words and a name that can be read back, and no value. -/
structure Plain (s : Statement) : Prop where
  printable : s.Printable
  bare : s.value? = none

def width : Statement → Nat
  | letBinding .. => 4
  | returnValue .. => 2

theorem erase_of_bare {s : Statement} (bare : s.value? = none) : s.erase = s := by
  cases s with
  | letBinding token name value => rw [erase, show value = none from bare]
  | returnValue token value => rw [erase, show value = none from bare]

end Statement

namespace Program

def width (program : Program) : Nat :=
  program.statements.foldr (fun s count => s.width + count) 0

theorem width_cons (s : Statement) (statements : List Statement) :
    width ⟨s :: statements⟩ = s.width + width ⟨statements⟩ := rfl

theorem erase_of_plain {program : Program} (plain : ∀ s ∈ program.statements, s.Plain) :
    program.erase = program := by
  have same : program.statements.map Statement.erase = program.statements.map id :=
    List.map_congr_left fun s found => Statement.erase_of_bare (plain s found).bare
  rw [erase, same, List.map_id]

end Program

theorem Token.Spelled.isName {t : Token} (h : t.Spelled) (named : t.kind = .identifier) :
    (Identifier.ofToken t).IsName := by
  cases h with
  | ending ended => simp [named] at ended
  | lexeme admits literal =>
    obtain ⟨letters, free⟩ := admits.of_identifier named
    have text := Text.bytes_ofCodes (Text.ascii_of_isLetter letters.all)
    refine ⟨?_, ?_⟩
    · rw [Identifier.ofToken, literal, text]
      exact letters
    · rw [Identifier.ofToken, literal]
      exact free

section
variable {strict : Bool} {source : String}

theorem Grammar.Denotes.plain {f : List Token} {s : Statement} (h : Denotes f s)
    (member : f.map Token.kind ∈ statement) (spelled : ∀ t ∈ f, t.Spelled) :
    s.Plain ∧ s.width ≤ f.length := by
  obtain ⟨xs, -, kinds⟩ := mem_statement_iff.1 member
  -- The first word leaves one of the two forms that the kinds of a statement have.
  cases h with
  | @letBinding t name rest word =>
    obtain ⟨first, second, -⟩ := List.forall_mem_cons.1 spelled |>.imp_right List.forall_mem_cons.1
    rcases kinds with kinds | kinds
    · obtain ⟨-, kinds⟩ := List.cons.inj kinds
      obtain ⟨named, kinds⟩ := List.cons.inj kinds
      have length := congrArg List.length kinds
      simp only [List.length_map, List.length_cons, List.length_append] at length
      refine ⟨⟨.letBinding (first.literal_eq (by rw [word]; rfl)) (second.isName named) ?_, rfl⟩,
        ?_⟩
      · simp
      · simp only [Statement.width, List.length_cons]
        omega
    · have other := (List.cons.inj kinds).1
      simp [word] at other
  | @returnValue t rest word =>
    have first := (List.forall_mem_cons.1 spelled).1
    rcases kinds with kinds | kinds
    · have other := (List.cons.inj kinds).1
      simp [word] at other
    · have length := congrArg List.length kinds
      simp only [List.length_map, List.length_cons, List.length_append] at length
      refine ⟨⟨.returnValue (first.literal_eq (by rw [word]; rfl)) (by simp), rfl⟩, ?_⟩
      simp only [Statement.width, List.length_cons]
      omega

theorem Program.width_le {fs : List (List Token)} {statements : List Statement}
    (narrow : List.Forall₂ (fun f s => Statement.width s ≤ f.length) fs statements) :
    width ⟨statements⟩ ≤ fs.flatten.length := by
  induction narrow with
  | nil => exact Nat.le_refl 0
  | cons first more ih =>
    rw [width_cons, List.flatten_cons, List.length_append]
    exact Nat.add_le_add first ih

theorem plain_of_clean (whole : (Walk.along strict (tokenize source)).whole)
    (clean : (Walk.along strict (tokenize source)).diagnostics = []) :
    (∀ s ∈ (Walk.along strict (tokenize source)).statements, s.Plain) ∧
      Program.width ⟨(Walk.along strict (tokenize source)).statements⟩ + 1 ≤
        (tokenize source).length := by
  obtain ⟨last, same, ended, going⟩ := tokenize_eq_concat source
  obtain ⟨factors, splits⟩ := Grammar.splits_of_along same ended going whole clean
  have pairs := (Grammar.along_of_splits splits ended).2.2
  rw [← same] at pairs
  have among : ∀ f ∈ Grammar.statementsAmong factors,
      f.map Token.kind ∈ Grammar.statement ∧ ∀ t ∈ f, t.Spelled := by
    intro f found
    obtain ⟨member, statement⟩ := List.mem_filter.1 found
    refine ⟨of_decide_eq_true statement, fun t inside => tokenize_spelled source t ?_⟩
    rw [same, ← splits.whole]
    exact List.mem_append_left _ (List.mem_flatten_of_mem member inside)
  have each : List.Forall₂ (fun f s => s.Plain ∧ s.width ≤ f.length)
      (Grammar.statementsAmong factors) (Walk.along strict (tokenize source)).statements :=
    ((List.forall₂_and_left _ _).2 ⟨among, pairs⟩).imp fun f s h => h.2.plain h.1.1 h.1.2
  have length : (tokenize source).length = factors.flatten.length + 1 := by
    rw [same, List.length_append, List.length_singleton, splits.whole]
  refine ⟨((List.forall₂_and_left _ _).1 each.flip).1, ?_⟩
  rw [length]
  have narrow := Program.width_le (each.imp fun f s h => h.2)
  have fewer : (Grammar.statementsAmong factors).Sublist factors := List.filter_sublist
  exact Nat.succ_le_succ (narrow.trans fewer.flatten.length_le)

end

/-- The tokens of these statements as they are printed, and the end of input. -/
structure Reprints (statements : List Statement) (tokens : List Token) : Prop where
  regains : Regains statements tokens
  length : tokens.length = Program.width ⟨statements⟩ + 1

section
variable {statements : List Statement} {s : Statement} {source : String}

theorem Statement.Plain.readAs (h : s.Plain) (more : ReadAs (Reprints statements) source) :
    ReadAs (Reprints (s :: statements)) (s.render ++ source) := by
  have behind : ReadAs (Leads .semicolon ";" (Reprints statements))
      (Statement.renderValue none ++ (";" ++ source)) := by
    rw [show Statement.renderValue none = "" from rfl, String.empty_append]
    exact more.token (.sign (by decide) rfl) (by decide +kernel) (.semicolon _)
  have closed {left : List Token} (closes : Leads .semicolon ";" (Reprints statements) left) :
      Closed (Regains statements) left :=
    (closes.mono fun _ => Reprints.regains).closed
  obtain ⟨printable, bare⟩ := h
  cases printable with
  | @letBinding token name value word named inner =>
    obtain rfl : value = none := bare
    refine (ReadAs.letBinding word named behind).mono fun tokens leads => ⟨?_, ?_⟩
    · refine .letBinding word (leads.mono fun _ leads => ?_)
      exact leads.mono fun _ leads => leads.mono fun _ => closed
    · have length := leads.length_eq fun _ leads => leads.length_eq fun _ leads =>
        leads.length_eq fun _ leads => leads.length_eq fun _ => Reprints.length
      rw [length, Program.width_cons, Statement.width]
      omega
  | @returnValue token value word inner =>
    obtain rfl : value = none := bare
    refine (ReadAs.returnValue word behind).mono fun tokens leads => ⟨?_, ?_⟩
    · exact .returnValue word (leads.mono fun _ => closed)
    · have length := leads.length_eq fun _ leads => leads.length_eq fun _ => Reprints.length
      rw [length, Program.width_cons, Statement.width]
      omega

theorem readAs_plain (plain : ∀ s ∈ statements, s.Plain) :
    ReadAs (Reprints statements) (Program.render ⟨statements⟩ ++ "\n") := by
  induction statements with
  | nil =>
    have line : ReadAs (Leads .endOfInput "" (· = [])) "\n" := .blank (by decide +kernel)
    refine line.mono fun _ leads => ⟨regains_nil leads, ?_⟩
    exact leads.length_eq fun _ ends => List.length_eq_zero_iff.2 ends
  | cons s statements ih =>
    obtain ⟨first, more⟩ := List.forall_mem_cons.1 plain
    rw [Program.render_cons, String.append_assoc]
    exact first.readAs (ih more)

end

section
variable {policy : Policy} {source : String} {program : Program}

theorem plain_of_parse? {strict : Bool} {limit : Nat} {p : Parser}
    (parsed : parse? ⟨strict, some limit⟩ source = some (program, p))
    (clean : p.diagnostics = []) :
    (∀ s ∈ program.statements, s.Plain) ∧ program.width + 2 ≤ max 2 limit := by
  have moves := Parser.parseStatements_moves
    (fun r d (running : r.exhausted = false) (fault : d.isLimit = false) => And.intro running fault)
    (Parser.parseStatements_of_parseProgram parsed)
  have stops := moves.stopsAt (Parser.stopsAt_ofSource strict limit source)
  have pulled := moves.withinLimit (fun l _ => Nat.le_max_left 2 l) limit stops.limited
  -- A limit that was spent would have been reported.
  have running : p.exhausted = false := by
    by_contra spent
    obtain ⟨-, found, said, -⟩ := stops.spent (by simpa using spent)
    simp [clean] at said
  obtain ⟨whole, count, statements, found⟩ := walk_of_running parsed running
  obtain ⟨read⟩ := program
  obtain rfl : read = _ := statements
  obtain ⟨plain, narrow⟩ := plain_of_clean whole (found.symm.trans clean)
  exact ⟨plain, by omega⟩

theorem parse_clean (clean : (parse policy source).2.diagnostics = []) :
    (∀ s ∈ (parse policy source).1.statements, s.Plain) ∧
      ∀ limit ∈ policy.maxTokens, (parse policy source).1.width + 2 ≤ max 2 limit := by
  have parsed := parse?_limitedFor policy source
  obtain ⟨strict, maxTokens⟩ := policy
  cases maxTokens with
  | none => exact ⟨(plain_of_parse? parsed clean).1, by simp⟩
  | some limit =>
    obtain ⟨plain, narrow⟩ := plain_of_parse? parsed clean
    refine ⟨plain, ?_⟩
    rintro _ ⟨⟩
    exact narrow

theorem parse_plain (plain : ∀ s ∈ program.statements, s.Plain)
    (room : ∀ limit ∈ policy.maxTokens, program.width + 2 ≤ max 2 limit) :
    (parse policy (program.render ++ "\n")).2.diagnostics = [] ∧
      (parse policy (program.render ++ "\n")).1.render = program.render := by
  obtain ⟨tokens, layout, ⟨read, reread, along⟩, length⟩ := readAs_plain plain 0
  have same : tokenize (program.render ++ "\n") = tokens := Cursor.tokens_of_layout layout
  have fits : ∀ limit ∈ (policy.limitedFor (program.render ++ "\n")).maxTokens,
      (tokenize (program.render ++ "\n")).length + 1 ≤ max 2 limit := by
    -- Where no limit is given, each of the two texts gives its own.
    obtain ⟨strict, _ | limit⟩ := policy
    · exact fun l limited => le_max_of_le_right (boundedBy_affords ⟨strict, none⟩ _ l limited)
    · rw [same, length]
      exact room
  have walk := along (policy.limitedFor (program.render ++ "\n")).strict
  rw [← same] at walk
  obtain ⟨q, parsed, found⟩ := parse?_of_room fits (by rw [walk])
  rw [walk] at parsed found
  rw [Option.some.inj ((parse?_limitedFor policy _).symm.trans parsed)]
  refine ⟨found, ?_⟩
  rw [Program.render_of_rereads reread, Program.erase_of_plain plain]

end

namespace Command

/-- What the command line prints of a source without faults is such a source itself, under
the same limit or none, and it is what is printed of it, strictly or not. -/
theorem run_normalises {i : Invocation} {world : World} {origin source : String}
    (takes : i.Takes world false origin source) (success : (i.run world).code = 0) :
    ∃ text, (i.run world).output = Text.bytes text ∧
      ∀ (j : Invocation) (world' : World) (origin' : String),
        j.Takes world' false origin' text → j.maxTokens = i.maxTokens →
          (j.run world').code = 0 ∧ (j.run world').output = Text.bytes text := by
  have shown : i.run world = i.parse origin source := takes.run_eq
  rw [shown] at success ⊢
  have clean := Invocation.parse_code.1 success
  obtain ⟨plain, room⟩ := parse_clean clean
  refine ⟨_, Invocation.parse_output clean, fun j world' origin' again limit => ?_⟩
  have shown' : j.run world' = j.parse origin' _ := again.run_eq
  have given : j.policy.maxTokens = i.policy.maxTokens := limit
  rw [← given] at room
  obtain ⟨clean', same⟩ := parse_plain plain room
  rw [shown']
  exact ⟨Invocation.parse_code.2 clean', by rw [Invocation.parse_output clean', same]⟩

theorem run_normalises_junk :
    let source := ") let x=5 fn;\n\"é return(;"
    let text := "let x = ;return ;\n"
    let given : Invocation := ⟨.parse source true false, false, false, some 15⟩
    let again : Invocation := ⟨.parse text true false, true, false, some 15⟩
    let world : World := .ofFiles none [] []
    ((given.run world).code = 0 ∧ (given.run world).output = Text.bytes text) ∧
      (again.run world).code = 0 ∧ (again.run world).output = Text.bytes text := by
  intro source text given again world
  have success : (given.run world).code = 0 := by decide +kernel
  have output : (given.run world).output = Text.bytes text := by decide +kernel
  obtain ⟨_, printed, stays⟩ := run_normalises (.inline rfl) success
  obtain rfl := Text.eq_of_bytes_eq (printed.symm.trans output)
  exact ⟨⟨success, output⟩, stays again world "<source>" (.inline rfl) rfl⟩

end Command

end Scriptlet
