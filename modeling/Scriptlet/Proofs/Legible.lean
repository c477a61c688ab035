import Scriptlet.Proofs.Limit
import Scriptlet.Proofs.Report
import Scriptlet.Proofs.Writing

/-!
Which answers are given as a whole. An answer breaks off where the caret of a report would
stand too far out, and what has been said by then is all that is said.
-/

namespace Scriptlet

theorem forall_or_exists_first {α : Type} (p : α → Prop) (as : List α) : (∀ a ∈ as, p a) ∨
    ∃ before a after, as = before ++ a :: after ∧ (∀ b ∈ before, p b) ∧ ¬p a := by
  induction as with
  | nil => exact .inl (by simp)
  | cons a rest ih =>
    by_cases first : p a
    · rcases ih with all | ⟨before, b, after, rfl, holds, fails⟩
      · exact .inl (List.forall_mem_cons.2 ⟨first, all⟩)
      · exact .inr ⟨a :: before, b, after, rfl, List.forall_mem_cons.2 ⟨first, holds⟩, fails⟩
    · exact .inr ⟨[], a, rest, rfl, by simp, first⟩

def Diagnostic.listing (found : List Diagnostic) : String :=
  String.join (found.map fun d => "\t" ++ d.message ++ "\n")

namespace Session

/-- All that is reported about the text can be printed. -/
def IsLegible (policy : Policy) (text : String) : Prop :=
  ∀ d ∈ (parse policy text).2.diagnostics, d.IsNarrow text

instance (policy : Policy) (text : String) : Decidable (IsLegible policy text) :=
  inferInstanceAs (Decidable (∀ d ∈ (parse policy text).2.diagnostics, d.IsNarrow text))

section
variable {policy : Policy} {text : String}

theorem answer_of_clean (clean : (parse policy text).2.diagnostics = []) :
    answer policy text = .ofText ((parse policy text).1.render ++ "\n") :=
  if_pos (List.isEmpty_iff.2 clean)

theorem answer_of_found (found : (parse policy text).2.diagnostics ≠ []) :
    let reports := Diagnostic.reports (parse policy text).2.diagnostics text origin
    answer policy text = ⟨reports.ending, "parser errors:\n" ++
      Diagnostic.listing (parse policy text).2.diagnostics ++ reports.text⟩ := by
  have faulty : ¬(parse policy text).2.diagnostics.isEmpty := mt List.isEmpty_iff.1 found
  have messages := Printout.concat_map_ofText (parse policy text).2.messages
    fun message => "\t" ++ message ++ "\n"
  rw [answer]
  dsimp only
  rw [if_neg faulty, messages, Printout.ofText_andThen, Printout.ofText_andThen, Parser.messages,
    List.map_map, String.append_assoc]
  rfl

theorem answer_ending (policy : Policy) (text : String) :
    IsLegible policy text ∧ (answer policy text).ending = .ok () ∨
      ¬IsLegible policy text ∧ (answer policy text).ending = .error .crashed := by
  by_cases clean : (parse policy text).2.diagnostics = []
  · rw [answer_of_clean clean, IsLegible, clean]
    exact .inl ⟨by simp, rfl⟩
  · rw [answer_of_found clean]
    rcases forall_or_exists_first (Diagnostic.IsNarrow · text)
      (parse policy text).2.diagnostics with narrow | ⟨before, wide, after, split, narrow, beyond⟩
    · rw [Diagnostic.reports_of_narrow narrow]
      exact .inl ⟨narrow, rfl⟩
    · have within : wide ∈ (parse policy text).2.diagnostics := by simp [split]
      rw [split, Diagnostic.reports_of_wide narrow beyond]
      exact .inr ⟨fun legible => beyond (legible wide within), rfl⟩

theorem answer_ending_iff : (answer policy text).ending = .ok () ↔ IsLegible policy text := by
  rcases answer_ending policy text with ⟨legible, ends⟩ | ⟨illegible, ends⟩
  · exact iff_of_true ends legible
  · exact iff_of_false (by simp [ends]) illegible

end

/-- A binding with so many spaces and then a number where its name should be. -/
def farApart (n : Nat) : String :=
  "let" ++ String.ofList (List.replicate n ' ') ++ "5\n"

theorem bytes_farApart (n : Nat) : Text.bytes (farApart n) =
    Text.bytes "let" ++ (List.replicate n ' '.toUInt8 ++ (['5'.toUInt8] ++ ['\n'.toUInt8])) := by
  have spaces : Text.bytes (String.ofList (List.replicate n ' ')) =
      List.replicate n ' '.toUInt8 := by
    rw [Text.bytes, String.toList_ofList]
    induction n with
    | zero => rfl
    | succ n ih => rw [List.replicate_succ, List.flatMap_cons, ih, List.replicate_succ]; rfl
  rw [farApart, Text.bytes_append, Text.bytes_append, spaces, List.append_assoc]
  rfl

theorem layout_farApart (n : Nat) : Layout 0 (Text.bytes (farApart n))
    [.ofLexeme 0 (.word (Text.bytes "let")), .ofLexeme (3 + n) ⟨.integer, ['5'.toUInt8]⟩,
      .ending (3 + n + 1 + 1)] := by
  have spaces : ∀ b ∈ List.replicate n ' '.toUInt8, isBlank b := by
    intro b found
    rw [List.eq_of_mem_replicate found]
    decide
  have stops : ∀ b ∈ (List.replicate n ' '.toUInt8 ++ (['5'.toUInt8] ++ ['\n'.toUInt8])).head?,
      isLetter b = false := by
    cases n with
    | zero => decide +kernel
    | succ n =>
      rintro b (_ | _)
      rfl
  have digit : Lexeme.Opens (['5'.toUInt8] ++ ['\n'.toUInt8]) ⟨.integer, ['5'.toUInt8]⟩
      ['\n'.toUInt8] := .number (by decide) (by decide +kernel) (by decide +kernel)
  have last : Layout (3 + n + 1) ['\n'.toUInt8] [.ending (3 + n + 1 + 1)] :=
    @Layout.ending (3 + n + 1) ['\n'.toUInt8] [] (by decide +kernel) (by simp)
  have second := @Layout.token 3 (List.replicate n ' '.toUInt8) ['\n'.toUInt8]
    ⟨.integer, ['5'.toUInt8]⟩ [.ending (3 + n + 1 + 1)] spaces
    (digit.visible (by decide +kernel)) digit
  rw [List.length_replicate] at second
  have letters : ∀ b ∈ Text.bytes "let", isLetter b ∧ IsVisible b := by
    simp only [IsVisible]
    decide +kernel
  rw [bytes_farApart]
  exact @Layout.token 0 [] _ (.word (Text.bytes "let")) _ (by simp)
    (fun b inside => (letters b inside).2)
    (.word (by decide) (fun b inside => (letters b inside).1) stops) (second last)

theorem tokenize_farApart (n : Nat) : tokenize (farApart n) =
    [.ofLexeme 0 (.word (Text.bytes "let")), .ofLexeme (3 + n) ⟨.integer, ['5'.toUInt8]⟩,
      .ending (3 + n + 1 + 1)] :=
  Cursor.tokens_of_layout (layout_farApart n)

theorem found_farApart (n : Nat) : (parse ⟨false, none⟩ (farApart n)).2.diagnostics =
    [⟨.unexpectedToken .identifier .integer "5", (3 + n).toUInt32⟩] := by
  have walk : Walk.along false (tokenize (farApart n)) = Walk.finished.report
      ⟨.unexpectedToken .identifier .integer "5", (3 + n).toUInt32⟩ := by
    rw [tokenize_farApart, Walk.along_unnamed (by decide) (by simp [Token.ofLexeme]),
      Walk.along_other (by simp [Token.ofLexeme]) (by simp [Token.ofLexeme])
        (by simp [Token.ofLexeme]), Walk.along_ended rfl]
    rfl
  obtain ⟨q, parsed, -, -, found⟩ := parse?_of_whole
    (boundedBy_affords ⟨false, none⟩ (farApart n)) (by rw [Policy.boundedBy, walk]; rfl)
  have same := (parse?_limitedFor ⟨false, none⟩ (farApart n)).symm.trans parsed
  rw [Option.some.inj same, found, Policy.boundedBy, walk]
  rfl

theorem inset_farApart (n : Nat) : Place.inset (Text.bytes (farApart n)) (3 + n) = 3 + n := by
  have front : (Text.bytes (farApart n)).take (3 + n) =
      Text.bytes "let" ++ List.replicate n ' '.toUInt8 := by
    rw [bytes_farApart, ← List.append_assoc]
    exact List.take_left' (by rw [List.length_append, List.length_replicate]; rfl)
  have start : Place.lineStart (Text.bytes (farApart n)) (3 + n) = 0 := by
    apply Place.lineStart_of_unbroken
    rw [front, List.mem_append, not_or]
    refine ⟨by decide, fun found => ?_⟩
    exact absurd (List.eq_of_mem_replicate found) (by decide)
  have margin : (Text.bytes (farApart n)).takeWhile Place.isMargin = [] := by
    rw [bytes_farApart]
    rfl
  rw [Place.inset, start, List.drop_zero, margin]
  rfl

section
variable {n : Nat}

theorem answer_farApart (far : 65532 ≤ n) (small : 3 + n < UInt32.size) :
    answer ⟨false, none⟩ (farApart n) =
      ⟨.error .crashed, "parser errors:\n\tnext token got=INT want=IDENT\n"⟩ := by
  have found := found_farApart n
  have size : (Text.bytes (farApart n)).length = 3 + n + 2 := by
    have word : (Text.bytes "let").length = 3 := rfl
    simp only [bytes_farApart, List.length_append, List.length_replicate, List.length_singleton,
      word]
    omega
  have position : (3 + n).toUInt32.toNat = 3 + n := UInt32.toNat_ofNat_of_lt' small
  have beyond : ¬Diagnostic.IsNarrow ⟨.unexpectedToken .identifier .integer "5", (3 + n).toUInt32⟩
      (farApart n) := by
    rw [Diagnostic.IsNarrow, Diagnostic.offset, size, position, Nat.min_eq_left (by omega),
      inset_farApart]
    omega
  have wide := @Diagnostic.reports_of_wide _ (farApart n) origin [] [] (by simp) beyond
  rw [answer_of_found (by simp [found]), found]
  rw [List.nil_append] at wide
  rw [wide]
  rfl

theorem farApart_ne_empty (n : Nat) : farApart n ≠ "" := by
  simp [farApart]

theorem farApart_unbroken (n : Nat) : '\n' ∉ (farApart n).toList.dropLast := by
  have whole : (farApart n).toList =
      'l' :: 'e' :: 't' :: (List.replicate n ' ' ++ ['5']) ++ ['\n'] := by
    simp [farApart]
  rw [whole, List.dropLast_concat]
  simp

end

end Session

end Scriptlet
