import Scriptlet.Proofs.Legible

/-!
What is said in a conversation, line by line. With room for all of it, that is
what a conversation writes, and with less room it writes the first bytes of it and
fails. No line has a part in the answer to another, so the conversation over an input
and then a second one says what is said over the first, but for its farewell, and then
what is said over the second. A line that is not a text, and one with a report that
cannot be printed, are the last of a conversation.
-/

namespace Scriptlet.Session

def exchange (policy : Policy) (line : List UInt8) : Printout :=
  (Printout.ofText prompt).andThen <|
    match Text.ofBytes? line with
    | none => ⟨.error (.failed .invalidText), ""⟩
    | some text => answer policy text

def exchanges (policy : Policy) (lines : List (List UInt8)) : Printout :=
  .concat (lines.map (exchange policy))

def transcript (policy : Policy) (lines : List (List UInt8)) : Printout :=
  (exchanges policy lines).andThen (.ofText (prompt ++ "\n"))

/-- The line is a text, and all that is reported about it can be printed. -/
def IsAnswerable (policy : Policy) (line : List UInt8) : Prop :=
  ∃ text ∈ Text.ofBytes? line, IsLegible policy text

section
variable {policy : Policy} {line : List UInt8} {lines more before after : List (List UInt8)}
  {text : String}

theorem exchange_of_text (read : Text.ofBytes? line = some text) :
    exchange policy line = (Printout.ofText prompt).andThen (answer policy text) := by
  rw [exchange, read]

theorem exchange_of_invalid (invalid : Text.ofBytes? line = none) :
    exchange policy line = ⟨.error (.failed .invalidText), prompt⟩ := by
  rw [exchange, invalid, Printout.ofText_andThen, String.append_empty]

theorem transcript_cons (policy : Policy) (line : List UInt8) (lines : List (List UInt8)) :
    transcript policy (line :: lines) =
      (exchange policy line).andThen (transcript policy lines) := by
  rw [transcript, exchanges, List.map_cons, Printout.concat_cons, Printout.andThen_assoc]
  rfl

theorem transcript_append (policy : Policy) (lines more : List (List UInt8)) :
    transcript policy (lines ++ more) =
      (exchanges policy lines).andThen (transcript policy more) := by
  rw [transcript, exchanges, List.map_append, Printout.concat_append, Printout.andThen_assoc]
  rfl

theorem converse_prints (policy : Policy) (lines : List (List UInt8)) :
    Prints (converse policy lines) (transcript policy lines) := by
  induction lines with
  | nil => exact (say_prints prompt).andThen (say_prints "\n")
  | cons line lines ih =>
    rw [converse, transcript_cons]
    cases read : Text.ofBytes? line with
    | none =>
      rw [exchange_of_invalid read, Printout.andThen_of_halt rfl, Prints,
        ← List.append_nil (Text.bytes _)]
      exact (say_writes prompt).bind (throw_writes _)
    | some text =>
      rw [exchange_of_text read, Printout.andThen_assoc]
      exact (say_prints prompt).andThen ((reply_prints policy text).andThen ih)

theorem run_unlimited (policy : Policy) (input : List UInt8) : run policy none input =
    ((transcript policy (inputLines input)).ending,
      Text.bytes (transcript policy (inputLines input)).text) := by
  rw [run, Sink.ofCapacity, (converse_prints policy (inputLines input)).unlimited]
  rfl

theorem exchange_ending_iff :
    (exchange policy line).ending = .ok () ↔ IsAnswerable policy line := by
  cases read : Text.ofBytes? line with
  | none =>
    rw [exchange_of_invalid read]
    exact iff_of_false (by simp) (by simp [IsAnswerable, read])
  | some text =>
    rw [exchange_of_text read, Printout.ofText_andThen]
    simp [IsAnswerable, read, answer_ending_iff]

theorem exchanges_of_answerable (answerable : ∀ line ∈ lines, IsAnswerable policy line) :
    exchanges policy lines =
      .ofText (String.join (lines.map fun line => (exchange policy line).text)) := by
  have ends : ∀ part ∈ lines.map (exchange policy), part.ending = .ok () :=
    List.forall_mem_map.2 fun line found => exchange_ending_iff.2 (answerable line found)
  rw [exchanges, Printout.concat_of_ok ends, List.map_map]
  rfl

theorem exchanges_of_stop {halt : Halt} (answerable : ∀ line ∈ before, IsAnswerable policy line)
    (stops : (exchange policy line).ending = .error halt) :
    exchanges policy (before ++ line :: after) =
      ⟨.error halt, (exchanges policy before).text ++ (exchange policy line).text⟩ := by
  have first : (exchanges policy before).ending = .ok () := by
    rw [exchanges_of_answerable answerable]
    rfl
  rw [exchanges, List.map_append, List.map_cons, Printout.concat_append, Printout.concat_cons,
    Printout.andThen_of_halt stops, ← exchanges, Printout.andThen_of_ok first, stops]

/-- Lines are answered one after the other up to the first that is not a text, or that cannot
be answered as a whole. -/
theorem exchanges_cases (policy : Policy) (lines : List (List UInt8)) :
    (∀ line ∈ lines, IsAnswerable policy line) ∧ exchanges policy lines =
        .ofText (String.join (lines.map fun line => (exchange policy line).text)) ∨
      ∃ before line after, lines = before ++ line :: after ∧
        (∀ l ∈ before, IsAnswerable policy l) ∧
        (Text.ofBytes? line = none ∧ exchanges policy lines =
            ⟨.error (.failed .invalidText), (exchanges policy before).text ++ prompt⟩ ∨
          ∃ text ∈ Text.ofBytes? line, ¬IsLegible policy text ∧ exchanges policy lines =
            ⟨.error .crashed,
              (exchanges policy before).text ++ (prompt ++ (answer policy text).text)⟩) := by
  rcases forall_or_exists_first (IsAnswerable policy) lines with
    all | ⟨before, line, after, rfl, answerable, stops⟩
  · exact .inl ⟨all, exchanges_of_answerable all⟩
  · refine .inr ⟨before, line, after, rfl, answerable, ?_⟩
    cases read : Text.ofBytes? line with
    | none =>
      have invalid := @exchange_of_invalid policy line read
      left
      rw [exchanges_of_stop answerable (by rw [invalid]), invalid]
      exact ⟨rfl, rfl⟩
    | some text =>
      have said := @exchange_of_text policy line text read
      have illegible : ¬IsLegible policy text := fun legible => stops ⟨text, read, legible⟩
      obtain ⟨-, crashes⟩ := (answer_ending policy text).resolve_left fun h => illegible h.1
      right
      refine ⟨text, rfl, illegible, ?_⟩
      rw [exchanges_of_stop answerable (by rw [said]; exact crashes), said]
      rfl

end

/-- Short of room, a conversation has written the first bytes of what it writes otherwise,
as many as there was room for, and it fails. With enough room it ends as it does otherwise:
well, at a line that is not a text, or where a report of a line cannot be printed. -/
theorem run_capacity (policy : Policy) (input : List UInt8) (capacity : Nat) :
    let whole := run policy none input
    run policy (some capacity) input =
        (if capacity < whole.2.length then .error (.failed .fullSink) else whole.1,
          whole.2.take (min capacity whole.2.length)) ∧
      ((run policy (some capacity) input).1 = .error (.failed .fullSink) ↔
        capacity < whole.2.length) ∧
      (whole.1 = .ok () ∧ (∀ line ∈ inputLines input, (Text.ofBytes? line).isSome) ∨
        whole.1 = .error (.failed .invalidText) ∧
          (∃ line ∈ inputLines input, Text.ofBytes? line = none) ∨
        whole.1 = .error .crashed ∧ ∃ line ∈ inputLines input,
          ∃ text ∈ Text.ofBytes? line, ¬IsLegible policy text) := by
  intro whole
  have same : whole = _ := run_unlimited policy input
  have cut : run policy (some capacity) input =
      (if capacity < whole.2.length then .error (.failed .fullSink) else whole.1,
        whole.2.take (min capacity whole.2.length)) := by
    rw [run, Sink.ofCapacity, (converse_prints policy (inputLines input)).limited, same,
      ← List.take_eq_take_min]
    simp only [← Nat.not_le, ite_not, List.nil_append]
  have endings : whole.1 = .ok () ∧ (∀ line ∈ inputLines input, (Text.ofBytes? line).isSome) ∨
      whole.1 = .error (.failed .invalidText) ∧
        (∃ line ∈ inputLines input, Text.ofBytes? line = none) ∨
      whole.1 = .error .crashed ∧ ∃ line ∈ inputLines input,
        ∃ text ∈ Text.ofBytes? line, ¬IsLegible policy text := by
    rw [same, transcript]
    rcases exchanges_cases policy (inputLines input) with
      ⟨all, said⟩ | ⟨before, line, after, split, -, ⟨invalid, said⟩ | ⟨text, read, illegible, said⟩⟩
    · rw [said]
      refine .inl ⟨rfl, fun line found => ?_⟩
      obtain ⟨text, read, -⟩ := all line found
      exact Option.isSome_of_mem read
    · rw [said]
      exact .inr (.inl ⟨rfl, line, by simp [split], invalid⟩)
    · rw [said]
      exact .inr (.inr ⟨rfl, line, by simp [split], text, read, illegible⟩)
  refine ⟨cut, ?_, endings⟩
  rw [cut]
  split
  · next short => exact ⟨fun _ => short, fun _ => rfl⟩
  · next fits =>
    refine ⟨fun full => ?_, fun short => absurd short fits⟩
    rcases endings with ⟨well, -⟩ | ⟨invalid, -⟩ | ⟨crashed, -⟩
    · exact absurd (well.symm.trans full) (by simp)
    · exact absurd (invalid.symm.trans full) (by simp)
    · exact absurd (crashed.symm.trans full) (by simp)

theorem inputLines_eq_singleton {text : String} (some : text ≠ "")
    (line : '\n' ∉ text.toList.dropLast) : inputLines (Text.bytes text) = [Text.bytes text] := by
  have full : Text.bytes text ≠ [] := fun none => some (Text.eq_of_bytes_eq none)
  have chars : text.toList ≠ [] := fun none => full (by rw [Text.bytes, none]; rfl)
  obtain ⟨init, last, whole⟩ : ∃ init last, text.toList = init ++ [last] :=
    ⟨_, _, (List.dropLast_concat_getLast chars).symm⟩
  have split : Text.bytes text =
      Text.bytes (String.ofList init) ++ String.utf8EncodeChar last := by
    simp [Text.bytes, whole]
  rw [whole, List.dropLast_concat] at line
  apply Text.cutAfter_eq_singleton full
  intro b found
  rw [split, List.dropLast_append_of_ne_nil String.utf8EncodeChar_ne_nil, List.mem_append] at found
  apply beq_eq_false_iff_ne.2
  rintro rfl
  rcases found with before | within
  · exact Text.not_mem_bytes (by decide) (by rwa [String.toList_ofList]) before
  · by_cases ascii : last.toNat < 128
    · simp [Text.utf8EncodeChar_of_ascii ascii] at within
    · have wide := Text.wide_of_mem_utf8EncodeChar (Nat.not_lt.1 ascii) _
        (List.dropLast_subset _ within)
      exact absurd wide (by decide)

/-- Lines of text, of which the last is complete as the others are. -/
structure IsComplete (input : List UInt8) : Prop where
  terminated : ∀ b ∈ input.getLast?, b = '\n'.toUInt8
  texts : ∀ line ∈ inputLines input, (Text.ofBytes? line).isSome

theorem IsComplete.inputLines_append {x : List UInt8} (complete : IsComplete x)
    (y : List UInt8) : inputLines (x ++ y) = inputLines x ++ inputLines y := by
  apply Text.cutAfter_append
  intro b last
  exact beq_iff_eq.2 (complete.terminated b last)

theorem IsComplete.answerable {policy : Policy} {x : List UInt8} (complete : IsComplete x)
    (legible : ∀ line ∈ inputLines x, ∀ text ∈ Text.ofBytes? line, IsLegible policy text) :
    ∀ line ∈ inputLines x, IsAnswerable policy line := by
  intro line found
  obtain ⟨text, read⟩ := Option.isSome_iff_exists.1 (complete.texts line found)
  exact ⟨text, read, legible line found text read⟩

/-- What a conversation over lines of text and then over something else writes is made of the
answers to the lines, each behind its prompt, and of what is written over the rest alone. It
ends as over the rest: well, at the first line that is not a text, of which only the prompt is
left, or where a report cannot be printed. If that is so in an answer to the lines already,
nothing is said about the rest. -/
theorem run_append (policy : Policy) {x : List UInt8} (complete : IsComplete x)
    (y : List UInt8) :
    let whole := run policy none x
    let rest := run policy none y
    let said := String.join ((inputLines x).map fun line => (exchange policy line).text)
    let legible := ∀ line ∈ inputLines x, ∀ text ∈ Text.ofBytes? line, IsLegible policy text
    (legible → whole = (.ok (), Text.bytes (said ++ (prompt ++ "\n"))) ∧
      run policy none (x ++ y) = (rest.1, Text.bytes said ++ rest.2)) ∧
    (¬legible → whole.1 = .error .crashed ∧ run policy none (x ++ y) = whole) ∧
    ((∀ line ∈ inputLines y, IsAnswerable policy line) ∧ rest.1 = .ok () ∨
      ∃ before line after, inputLines y = before ++ line :: after ∧
        (∀ l ∈ before, IsAnswerable policy l) ∧
        (Text.ofBytes? line = none ∧ rest = (.error (.failed .invalidText),
            Text.bytes ((exchanges policy before).text ++ prompt)) ∨
          ∃ text ∈ Text.ofBytes? line, ¬IsLegible policy text ∧ rest.1 = .error .crashed)) := by
  intro whole rest said legible
  have first : whole = _ := run_unlimited policy x
  have second : rest = _ := run_unlimited policy y
  have both := run_unlimited policy (x ++ y)
  rw [complete.inputLines_append, transcript_append] at both
  rw [transcript] at first second
  refine ⟨fun all => ?_, fun other => ?_, ?_⟩
  · have parts := exchanges_of_answerable (complete.answerable all)
    rw [transcript] at both
    rw [first, second, both, parts, Printout.ofText_andThen, Printout.ofText_andThen]
    exact ⟨rfl, congrArg (Prod.mk _) (Text.bytes_append _ _)⟩
  · rcases exchanges_cases policy (inputLines x) with
      ⟨all, -⟩ | ⟨before, line, after, split, -, ⟨invalid, -⟩ | ⟨text, read, illegible, said⟩⟩
    · refine absurd (fun line found text read => ?_) other
      obtain ⟨text', read', legible⟩ := all line found
      exact Option.mem_unique read' read ▸ legible
    · have valid := complete.texts line (by simp [split])
      simp [invalid] at valid
    · rw [first, both, said]
      exact ⟨rfl, rfl⟩
  · rw [second]
    rcases exchanges_cases policy (inputLines y) with
      ⟨all, said⟩ | ⟨before, line, after, split, answerable, stops⟩
    · exact .inl ⟨all, by rw [said]; rfl⟩
    · refine .inr ⟨before, line, after, split, answerable, ?_⟩
      rcases stops with ⟨invalid, said⟩ | ⟨text, read, illegible, said⟩
      · exact .inl ⟨invalid, by rw [said]; rfl⟩
      · exact .inr ⟨text, read, illegible, by rw [said]; rfl⟩

theorem run_append_undecodable :
    let x := Text.bytes "let a = 1;\nlet\nreturn é\n\n"
    let y := Text.bytes "return;\nlet " ++ [0xff] ++ Text.bytes ";\nlet b = 2;"
    IsComplete x ∧ ∃ said, run ⟨true, none⟩ none x =
        (.ok (), Text.bytes (said ++ (prompt ++ "\n"))) ∧
      run ⟨true, none⟩ none (x ++ y) =
        (.error (.failed .invalidText), Text.bytes said ++ Text.bytes ">> return ;\n>> ") := by
  intro x y
  have complete : IsComplete x := ⟨by decide +kernel, by decide +kernel⟩
  obtain ⟨whole, -, -⟩ := run_append ⟨true, none⟩ complete y
  obtain ⟨alone, both⟩ := whole (by decide +kernel)
  have rest : run ⟨true, none⟩ none y =
      (.error (.failed .invalidText), Text.bytes ">> return ;\n>> ") := by
    have lines : inputLines y =
        [Text.bytes "return;\n", Text.bytes "let " ++ [0xff] ++ Text.bytes ";\n",
         Text.bytes "let b = 2;"] := by decide +kernel
    have invalid : Text.ofBytes? (Text.bytes "let " ++ [0xff] ++ Text.bytes ";\n") = none := by
      decide +kernel
    have clean : (parse ⟨true, none⟩ "return;\n").2.diagnostics = [] := by decide +kernel
    have read : (parse ⟨true, none⟩ "return;\n").1.render = "return ;" := by decide +kernel
    have first : answer ⟨true, none⟩ "return;\n" = .ofText "return ;\n" := by
      rw [answer_of_clean clean, read]
      rfl
    rw [run_unlimited, lines, transcript_cons, transcript_cons,
      exchange_of_text (Text.ofBytes?_bytes _), exchange_of_invalid invalid, first]
    rfl
  rw [rest] at both
  exact ⟨complete, _, alone, both⟩

theorem inputLines_farApart (n : Nat) :
    inputLines (Text.bytes (farApart n)) = [Text.bytes (farApart n)] :=
  inputLines_eq_singleton (farApart_ne_empty n) (farApart_unbroken n)

theorem isComplete_farApart (n : Nat) : IsComplete (Text.bytes (farApart n)) where
  terminated := by
    rw [bytes_farApart]
    simp
  texts := by
    rw [inputLines_farApart]
    simp [Text.ofBytes?_bytes]

/-- The conversation breaks off, and there is no farewell. -/
theorem run_append_farApart :
    let x := Text.bytes (farApart 65536)
    IsComplete x ∧ run ⟨false, none⟩ none x =
      (.error .crashed, Text.bytes ">> parser errors:\n\tnext token got=INT want=IDENT\n") := by
  intro x
  have lines : inputLines x = [x] := inputLines_farApart 65536
  have read : Text.ofBytes? x = some (farApart 65536) := Text.ofBytes?_bytes _
  have said := @answer_farApart 65536 (by decide) (by decide)
  refine ⟨isComplete_farApart 65536, ?_⟩
  rw [run_unlimited, lines, transcript_cons, exchange_of_text read, said]
  rfl

end Scriptlet.Session
