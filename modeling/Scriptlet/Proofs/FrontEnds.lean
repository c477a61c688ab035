import Scriptlet.Command.Outcome
import Scriptlet.Proofs.Transcript

/-!
The two ways in. A text of one line can be given to the command line, in a file or
by itself, or it can be said in a conversation. All of them parse it in the same way
and show the same of it: the program, or one report for each fault in which only the
line about the origin differs. Where a report cannot be printed both crash behind the
same reports.
-/

namespace Scriptlet.Command

/-- What an invocation shows of a text in which these faults are found, while a
conversation gives this answer to it. -/
inductive Outcome.Matches (o : Outcome) (origin text : String) : List Diagnostic → Printout → Prop
  | clean {said : String} (code : o.code = 0) (output : o.output = Text.bytes said)
      (errors : ∀ elapsed, o.errors elapsed = "") : Matches o origin text [] ⟨.ok (), said⟩
  | faulty {found : List Diagnostic} {blocks : List Block} (some : found ≠ [])
      (shows : List.Forall₂ (Block.Shows · · text) blocks found)
      (narrow : ∀ b ∈ blocks, b.dashes < 65535) (code : o.code = 1) (output : o.output = [])
      (errors : ∀ elapsed, o.errors elapsed = Block.print origin blocks
        ++ Text.decimal found.length ++ " parse error(s)\n") :
      Matches o origin text found ⟨.ok (),
        "parser errors:\n" ++ Diagnostic.listing found ++ Block.print "repl" blocks⟩
  | crashed {found : List Diagnostic} {before after : List Block} {wide : Block}
      (shows : List.Forall₂ (Block.Shows · · text) (before ++ wide :: after) found)
      (narrow : ∀ b ∈ before, b.dashes < 65535) (beyond : 65535 ≤ wide.dashes)
      (code : o.code = 101) (output : o.output = [])
      (errors : ∀ elapsed, o.errors elapsed = Block.print origin before) :
      Matches o origin text found ⟨.error .crashed,
        "parser errors:\n" ++ Diagnostic.listing found ++ Block.print "repl" before⟩

section
variable {o : Outcome} {origin text : String} {found : List Diagnostic} {answer : Printout}

theorem Outcome.Matches.ending_of_code (h : o.Matches origin text found answer)
    (code : o.code ≠ 101) : answer.ending = .ok () := by
  cases h with
  | clean => rfl
  | faulty => rfl
  | crashed _ _ _ crashed => exact absurd crashed code

theorem Outcome.Matches.of_broken (h : o.Matches origin text found answer)
    (broken : answer.ending ≠ .ok ()) : o.code = 101 ∧ o.output = [] := by
  cases h with
  | clean => exact absurd rfl broken
  | faulty => exact absurd rfl broken
  | crashed _ _ _ code output => exact ⟨code, output⟩

end

namespace Invocation

section
variable {i : Invocation} {origin text : String}

theorem parse_of_clean (quiet : i.verbose = false)
    (clean : (Scriptlet.parse i.policy text).2.diagnostics = []) : i.parse origin text =
      ⟨0, Text.bytes ((Scriptlet.parse i.policy text).1.render ++ "\n"), none, ""⟩ := by
  rw [← List.isEmpty_iff] at clean
  simp only [parse, clean, if_true, summary, quiet]
  rfl

theorem parse_of_found (quiet : i.verbose = false)
    (found : (Scriptlet.parse i.policy text).2.diagnostics ≠ []) :
    let reports := Diagnostic.reports (Scriptlet.parse i.policy text).2.diagnostics text origin
    let count := Text.decimal (Scriptlet.parse i.policy text).2.diagnostics.length
    i.parse origin text = match reports.ending with
      | .ok () => ⟨1, [], none, reports.text ++ count ++ " parse error(s)\n"⟩
      | .error _ => ⟨101, [], none, reports.text⟩ := by
  rw [Ne, ← List.isEmpty_iff] at found
  simp only [parse, found, summary, quiet]
  rfl

end

theorem parse_matches {i : Invocation} (quiet : i.verbose = false) (origin text : String) :
    (i.parse origin text).Matches origin text (Scriptlet.parse i.policy text).2.diagnostics
      (Session.answer i.policy text) := by
  by_cases clean : (Scriptlet.parse i.policy text).2.diagnostics = []
  · rw [Session.answer_of_clean clean, parse_of_clean quiet clean, clean]
    exact .clean rfl rfl fun _ => rfl
  · rw [Session.answer_of_found clean]
    have parsed := @parse_of_found i origin text quiet clean
    have shows := Diagnostic.forall₂_blocks text (Scriptlet.parse i.policy text).2.diagnostics
    generalize (Scriptlet.parse i.policy text).2.diagnostics = found at clean parsed shows ⊢
    rcases forall_or_exists_first (Diagnostic.IsNarrow · text) found with
      narrow | ⟨before, wide, after, rfl, narrow, beyond⟩
    · have each := Diagnostic.forall_isNarrow_iff.1 narrow
      rw [Diagnostic.reports_of_narrow narrow] at parsed ⊢
      rw [parsed]
      exact .faulty clean shows each rfl rfl fun _ => rfl
    · have each := Diagnostic.forall_isNarrow_iff.1 narrow
      have far : 65535 ≤ (wide.block text).dashes :=
        Nat.not_lt.1 (mt Diagnostic.isNarrow_iff.2 beyond)
      rw [Diagnostic.reports_of_wide narrow beyond] at parsed ⊢
      rw [List.map_append, List.map_cons] at shows
      rw [parsed]
      exact .crashed shows each far rfl rfl fun _ => rfl

theorem run_matches {i : Invocation} {world : World} {origin text : String}
    (takes : i.Takes world false origin text) (quiet : i.verbose = false) :
    (i.run world).Matches origin text (Scriptlet.parse i.policy text).2.diagnostics
      (Session.answer i.policy text) := by
  rw [takes.run_eq]
  exact i.parse_matches quiet origin text

end Invocation

/-- A text of one line is shown alike by the command line, from a file or by itself, and
in a conversation. Where it has no fault, both show the program and nothing else; where it
has some, both show the same reports in the same order, each under the name of its origin.
At a report that cannot be printed both crash, and have shown those before it. -/
theorem run_agrees (policy : Policy) {text : String} (some : text ≠ "")
    (line : '\n' ∉ text.toList.dropLast) : ∃ answer : Printout,
      (answer.ending = .ok () → Session.run policy none (Text.bytes text) =
        (.ok (), Text.bytes (Session.prompt ++ answer.text ++ (Session.prompt ++ "\n")))) ∧
      (∀ halt, answer.ending = .error halt → Session.run policy none (Text.bytes text) =
        (.error halt, Text.bytes (Session.prompt ++ answer.text))) ∧
      ∀ (i : Invocation) (world : World) (origin : String),
        i.Takes world false origin text → i.policy = policy → i.verbose = false →
          (i.run world).Matches origin text (Scriptlet.parse policy text).2.diagnostics answer := by
  have read := Text.ofBytes?_bytes text
  have said := Session.run_unlimited policy (Text.bytes text)
  rw [Session.inputLines_eq_singleton some line, Session.transcript_cons,
    Session.exchange_of_text read, Printout.andThen_assoc] at said
  refine ⟨Session.answer policy text, fun whole => ?_, fun halt broken => ?_, ?_⟩
  · rw [said, Printout.andThen_of_ok whole, Printout.ofText_andThen, String.append_assoc]
    rfl
  · rw [said, Printout.andThen_of_halt broken, Printout.ofText_andThen, broken]
  · rintro i world origin takes rfl quiet
    exact Invocation.run_matches takes quiet

theorem run_agrees_mistakes :
    let text := "\tlet x 5 é; return\n"
    let named : Invocation := ⟨.parse "a/b.mk" false false, true, false, some 7⟩
    let given : Invocation := ⟨.parse text true false, true, false, some 7⟩
    let world : World := .ofFiles none [] [("a/b.mk", Text.bytes text)]
    let found := (Scriptlet.parse ⟨true, some 7⟩ text).2.diagnostics
    ∃ answer, found.length = 6 ∧
      Session.run ⟨true, some 7⟩ none (Text.bytes text) =
        (.ok (), Text.bytes (Session.prompt ++ answer ++ (Session.prompt ++ "\n"))) ∧
      (named.run world).Matches "a/b.mk" text found ⟨.ok (), answer⟩ ∧
      (given.run world).Matches "<source>" text found ⟨.ok (), answer⟩ := by
  intro text named given world found
  obtain ⟨⟨ending, said⟩, whole, -, shown⟩ :=
    @run_agrees ⟨true, some 7⟩ text (by decide) (by decide)
  have held : world.read "a/b.mk" = .ok (Text.bytes text) := by rfl
  have first := shown named world "a/b.mk" (.file rfl held) rfl rfl
  have second := shown given world "<source>" (.inline rfl) rfl rfl
  have failed : (given.run world).code = 1 := by decide +kernel
  have six : found.length = 6 := by decide +kernel
  obtain rfl : ending = .ok () := second.ending_of_code (by rw [failed]; decide)
  exact ⟨said, six, whole rfl, first, second⟩

/-- An exit code that is neither that of success nor that of mistakes, for a file of one line. -/
theorem run_agrees_farApart :
    let text := Session.farApart 65536
    let named : Invocation := ⟨.parse "a.mk" false false, false, false, none⟩
    let world : World := .ofFiles none [] [("a.mk", Text.bytes text)]
    text ≠ "" ∧ '\n' ∉ text.toList.dropLast ∧ world.read "a.mk" = .ok (Text.bytes text) ∧
      (named.run world).code = 101 ∧ (named.run world).output = [] := by
  intro text named world
  have kept (bs : List UInt8) : (World.ofFiles none [] [("a.mk", bs)]).read "a.mk" = .ok bs := rfl
  have held : world.read "a.mk" = .ok (Text.bytes text) := kept (Text.bytes text)
  have takes : named.Takes world false "a.mk" text := .file rfl held
  have broken : (Session.answer named.policy text).ending ≠ .ok () := by
    have said : Session.answer named.policy text = _ :=
      @Session.answer_farApart 65536 (by decide) (by decide)
    rw [said]
    simp
  exact ⟨Session.farApart_ne_empty 65536, Session.farApart_unbroken 65536, held,
    (Invocation.run_matches takes rfl).of_broken broken⟩

end Scriptlet.Command
