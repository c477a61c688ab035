import Scriptlet.Proofs.Dump
import Scriptlet.Proofs.Evidence
import Scriptlet.Proofs.Legible
import Scriptlet.Proofs.Normal

/-!
The lines of an answer. What a line of input holds comes into the answer as names, in
advice, in quotes and as the line itself, and none of these ways lets a line feed through.
So an answer has the lines that it is made of and no others.
-/

namespace Scriptlet

namespace Text

theorem lineFeed_not_mem_toDigits (n : Nat) : '\n' ∉ Nat.toDigits 16 n := by
  induction n using Nat.strongRecOn with
  | ind n ih =>
    have digit (k : Nat) : '\n' ≠ Nat.digitChar k := (Nat.digitChar_ne '\n' rfl).symm
    rw [Nat.toDigits_eq_if (by decide)]
    split
    · simp [digit]
    · simp [digit, ih (n / 16) (by omega)]

theorem lineFeed_not_mem_escape (c : Char) : '\n' ∉ escape c := by
  unfold escape
  split
  all_goals try decide
  next other _ =>
    split
    · simp [lineFeed_not_mem_toDigits]
    · simpa using Ne.symm other

theorem quoted_unbroken (text : String) : '\n' ∉ (quoted text).toList := by
  rw [quoted, String.toList_ofList]
  simp [lineFeed_not_mem_escape]

theorem count_lines {texts : List String} (inner : ∀ text ∈ texts, '\n' ∉ text.toList) :
    (bytes (String.join (texts.map (· ++ "\n")))).count lineFeed = texts.length := by
  induction texts with
  | nil => rfl
  | cons text texts ih =>
    obtain ⟨first, inner⟩ := List.forall_mem_cons.1 inner
    rw [List.map_cons, Place.bytes_line, List.count_append, List.count_cons_self, ih inner,
      List.count_eq_zero.2 (lineFeed_not_mem_bytes first), Nat.zero_add, List.length_cons]

end Text

namespace Fault

theorem message_unbroken (f : Fault) : '\n' ∉ f.message.toList := by
  unfold message
  cases f with
  | unexpectedToken expected received literal =>
    simp only [String.toList_append, List.mem_append, not_or]
    exact ⟨⟨⟨by simp, received.name_free.2⟩, by simp⟩, expected.name_free.2⟩
  | unrecognisedStatement kind literal =>
    simp only [String.toList_append, List.mem_append, not_or]
    exact ⟨⟨⟨by simp, kind.name_free.2⟩, by simp⟩, Text.quoted_unbroken literal⟩
  | tokenLimitExceeded limit =>
    simp only [String.toList_append, List.mem_append, not_or]
    exact ⟨⟨by simp, Text.not_mem_decimal (by decide)⟩, by simp⟩

theorem tip_unbroken {f : Fault} (h : '\n' ∉ f.literal.toList) : '\n' ∉ f.tip.text.toList := by
  unfold tip
  split
  · next expected literal =>
    simp only [Tip.text, String.toList_append, List.mem_append, not_or]
    exact ⟨by simp, expected.name_free.2⟩
  · next expected received literal other =>
    simp only [Tip.text, String.toList_append, List.mem_append, not_or]
    exact ⟨⟨⟨by simp, h⟩, by simp⟩, expected.name_free.2⟩
  · simp [Tip.text]
  · simp [Tip.text]

end Fault

namespace Parser

section
variable {policy : Policy} {source : String} {program : Program} {p : Parser}

theorem literal_of_token (parsed : parse? policy source = some (program, p)) :
    ∀ d ∈ p.diagnostics, d.fault.literal = "" ∨
      ∃ t ∈ tokenize source, d.fault.literal = t.literal := by
  intro d found
  cases limit : d.isLimit with
  | true =>
    rw [Diagnostic.isLimit] at limit
    split at limit
    · next same => exact .inl (by rw [same]; rfl)
    · simp at limit
  | false =>
    have among : d ∈ p.faults := List.mem_filter.2 ⟨found, by simp [limit]⟩
    have blames := Walk.blames policy.strict (tokenize source)
    have evidence := blames.evidence d ((faults_prefix_walk parsed).subset among)
    obtain ⟨t, stands, -, same⟩ := evidence.exists_token
    exact .inr ⟨t, stands, same⟩

theorem literal_unbroken (parsed : parse? policy source = some (program, p)) :
    ∀ d ∈ p.diagnostics, '\n' ∉ d.fault.literal.toList := by
  intro d found
  rcases literal_of_token parsed d found with none | ⟨t, stands, same⟩
  · simp [none]
  · rw [same]
    exact (tokenize_spelled source t stands).unbroken

-- So the characters that are quoted are among those for which it is known how they are escaped.
theorem literal_narrow (parsed : parse? policy source = some (program, p)) :
    ∀ d ∈ p.diagnostics, ∀ c ∈ d.fault.literal.toList, c.toNat ≤ 0xff := by
  intro d found
  rcases literal_of_token parsed d found with none | ⟨t, stands, same⟩
  · simp [none]
  · rw [same]
    exact (tokenize_spelled source t stands).narrow

end

end Parser

theorem Identifier.IsName.unbroken {name : Identifier} (h : name.IsName) :
    '\n' ∉ name.value.toList := by
  intro found
  have byte : lineFeed ∈ Text.bytes name.value := by
    rw [← List.count_pos_iff, Text.count_bytes (by decide), List.count_pos_iff]
    exact found
  exact absurd (h.letters.all _ byte) (by decide)

theorem Statement.Plain.render_unbroken {s : Statement} (h : s.Plain) :
    '\n' ∉ s.render.toList := by
  obtain ⟨printable, bare⟩ := h
  cases printable with
  | letBinding word named inner =>
    obtain rfl := bare
    have name := named.unbroken
    simp [render, renderValue, Identifier.render, word, name]
  | returnValue word inner =>
    obtain rfl := bare
    simp [render, renderValue, word]

theorem Program.render_unbroken {program : Program} (plain : ∀ s ∈ program.statements, s.Plain) :
    '\n' ∉ program.render.toList := by
  rw [render, String.toList_join, List.mem_flatMap]
  rintro ⟨text, among, found⟩
  obtain ⟨s, stands, rfl⟩ := List.mem_map.1 among
  exact (plain s stands).render_unbroken found

namespace Session

theorem listing_eq_join (found : List Diagnostic) (blocks : List Block) :
    "parser errors:\n" ++ Diagnostic.listing found ++ Block.print "repl" blocks =
      String.join (("parser errors:" :: found.map ("\t" ++ ·.message) ++
        blocks.flatMap (·.lines "repl")).map (· ++ "\n")) := by
  apply String.toList_inj.1
  simp [Diagnostic.listing, Block.print, String.toList_join, List.flatMap_map]

section
variable {policy : Policy} {line : String} {found shown : List Diagnostic}

theorem listing_unbroken (among : ∀ d ∈ shown, d ∈ (parse policy line).2.diagnostics) :
    ∀ text ∈ "parser errors:" :: found.map ("\t" ++ ·.message) ++
      (shown.map (·.block line)).flatMap (·.lines "repl"), '\n' ∉ text.toList := by
  have texts := Parser.literal_unbroken (parse?_limitedFor policy line)
  rw [List.cons_append, List.forall_mem_cons, List.forall_mem_append]
  refine ⟨by simp, fun text inside => ?_, fun text inside => ?_⟩
  · obtain ⟨d, -, rfl⟩ := List.mem_map.1 inside
    have message := d.fault.message_unbroken
    simp [Diagnostic.message, message]
  · obtain ⟨b, block, row⟩ := List.mem_flatMap.1 inside
    obtain ⟨d, found, rfl⟩ := List.mem_map.1 block
    rw [← Diagnostic.reportLines_eq_lines] at row
    have advice := Fault.tip_unbroken (texts d (among d found))
    exact Diagnostic.reportLines_unbroken advice (by decide) text row

theorem lines_listing (among : ∀ d ∈ shown, d ∈ (parse policy line).2.diagnostics) :
    let blocks := shown.map (·.block line)
    let out := "parser errors:\n" ++ Diagnostic.listing found ++ Block.print "repl" blocks
    (Text.bytes out).count lineFeed = 1 + found.length + 5 * shown.length ∧
      Text.lines out = ("parser errors:" :: found.map ("\t" ++ ·.message) ++
        blocks.flatMap (·.lines "repl")).map (· ++ "\n") := by
  intro blocks out
  have inner := @listing_unbroken policy line found shown among
  have five : ∀ b ∈ blocks, (b.lines "repl").length = 5 := fun b _ => rfl
  rw [show out = _ from listing_eq_join found blocks, Text.count_lines inner, Text.lines_join inner,
    List.length_append, List.length_flatMap, List.map_congr_left five, List.map_const',
    List.sum_replicate_nat]
  simp only [List.length_cons, List.length_map, blocks]
  exact ⟨by omega, trivial⟩

end

/-- A reply to a line is one line, the program that was read, or it is a header and then six
lines for each diagnostic, first the messages of all and then their reports of five lines.
Nothing that the line holds makes it more or fewer. Only a report of which the caret would
stand too far out is missing, with all that would come behind it. -/
theorem reply_lines (policy : Policy) (line : String) :
    let program := (parse policy line).1
    let found := (parse policy line).2.diagnostics
    ∃ (blocks : List Block) (ending : Except Halt Unit) (out : String),
      List.Forall₂ (Block.Shows · · line) blocks found ∧
      Writes (reply policy line) ending (Text.bytes out) ∧
      (found = [] → ending = .ok () ∧ (Text.bytes out).count lineFeed = 1 ∧
        Text.lines out = [program.render ++ "\n"]) ∧
      (found ≠ [] → (∀ b ∈ blocks, b.dashes < 65535) → ending = .ok () ∧
        (Text.bytes out).count lineFeed = 1 + 6 * found.length ∧
        Text.lines out = ("parser errors:" :: found.map ("\t" ++ ·.message) ++
          blocks.flatMap (·.lines "repl")).map (· ++ "\n")) ∧
      ∀ before wide after, blocks = before ++ wide :: after →
        (∀ b ∈ before, b.dashes < 65535) → 65535 ≤ wide.dashes → ending = .error .crashed ∧
        (Text.bytes out).count lineFeed = 1 + found.length + 5 * before.length ∧
        Text.lines out = ("parser errors:" :: found.map ("\t" ++ ·.message) ++
          before.flatMap (·.lines "repl")).map (· ++ "\n") := by
  intro program found
  refine ⟨found.map (·.block line), (answer policy line).ending, (answer policy line).text,
    Diagnostic.forall₂_blocks line found, reply_prints policy line, fun clean => ?_,
    fun some narrow => ?_, fun before wide after split narrow beyond => ?_⟩
  · have unbroken : ∀ text ∈ [program.render], '\n' ∉ text.toList :=
      List.forall_mem_singleton.2 (Program.render_unbroken (parse_clean clean).1)
    have whole : String.join ([program.render].map (· ++ "\n")) = program.render ++ "\n" := by simp
    have count := Text.count_lines unbroken
    have lines := Text.lines_join unbroken
    rw [whole] at count lines
    rw [answer_of_clean clean]
    exact ⟨rfl, count, lines⟩
  · have each := Diagnostic.forall_isNarrow_iff.2 narrow
    obtain ⟨count, lines⟩ := @lines_listing policy line found found fun d inside => inside
    rw [answer_of_found some, Diagnostic.reports_of_narrow each]
    exact ⟨rfl, count.trans (by omega), lines⟩
  · obtain ⟨first, rest, same, rfl, behind⟩ := List.map_eq_append_iff.1 split
    obtain ⟨d, more, rfl, rfl, rfl⟩ := List.map_eq_cons_iff.1 behind
    have some : found ≠ [] := by simp [same]
    have each := Diagnostic.forall_isNarrow_iff.2 narrow
    have far : ¬d.IsNarrow line := fun near => Nat.not_lt.2 beyond (Diagnostic.isNarrow_iff.1 near)
    have among : ∀ d ∈ first, d ∈ found := fun d inside => by simp [same, inside]
    have reports := @Diagnostic.reports_of_wide d line origin first more each far
    obtain ⟨count, lines⟩ := @lines_listing policy line found first among
    rw [answer_of_found some]
    rw [← same] at reports
    rw [reports, List.length_map]
    exact ⟨rfl, count, lines⟩

/-- One diagnostic, and two lines instead of seven. -/
theorem reply_lines_farApart :
    let line := farApart 65536
    let out := "parser errors:\n\tnext token got=INT want=IDENT\n"
    '\n' ∉ line.toList.dropLast ∧ (parse ⟨false, none⟩ line).2.diagnostics.length = 1 ∧
      Writes (reply ⟨false, none⟩ line) (.error .crashed) (Text.bytes out) ∧
      (Text.bytes out).count lineFeed = 2 := by
  intro line out
  have said := @answer_farApart 65536 (by decide) (by decide)
  have writes := reply_prints ⟨false, none⟩ line
  rw [Prints, said] at writes
  refine ⟨farApart_unbroken 65536, ?_, writes, by decide +kernel⟩
  rw [found_farApart]
  rfl

end Session

end Scriptlet
