import Mathlib.Algebra.GroupWithZero.Nat
import Mathlib.Data.List.DropRight
import Scriptlet.Place
import Scriptlet.Text.Characters

/-!
The place of an offset in closed form. Its line is counted by the line feeds before it,
begins behind the last of them and goes on to the next one. Whether an offset is found in
a line or is the end of the source, the form is the same, so places come in the order of
their offsets.
-/

namespace Scriptlet

abbrev lineFeed : UInt8 := '\n'.toUInt8

namespace Text

/-- Lines as a text is cut into them: only the last can do without a line feed. -/
inductive AreLines : List String → Prop
  | none : AreLines []
  | last {text : String} (some : text ≠ "") (inner : '\n' ∉ text.toList) : AreLines [text]
  | line {text : String} {more : List String} (inner : '\n' ∉ text.toList)
      (rest : AreLines more) : AreLines ((text ++ "\n") :: more)

theorem AreLines.cons {c : Char} (other : '\n' ≠ c) {text : String} {more : List String}
    (h : AreLines (text :: more)) : AreLines ((String.singleton c ++ text) :: more) := by
  cases h with
  | last some inner => exact .last (by simp) (by simp [other, inner])
  | @line text _ inner rest =>
    rw [← String.append_assoc]
    exact .line (by simp [other, inner]) rest

theorem areLines_lines (text : String) : AreLines (lines text) := by
  rw [lines]
  induction text.toList with
  | nil => exact .none
  | cons c rest ih =>
    by_cases ends : c = '\n'
    · rw [ends, cutAfter_of_end (by rfl), List.map_cons]
      exact @AreLines.line "" _ List.not_mem_nil ih
    · rw [cutAfter, if_neg (by simpa using ends)]
      split
      · next none => exact .last (by simp) (by simpa using Ne.symm ends)
      · next piece pieces same =>
        rw [same, List.map_cons] at ih
        rw [List.map_cons, String.ofList_cons]
        exact ih.cons (Ne.symm ends)

theorem join_lines (text : String) : String.join (lines text) = text := by
  apply String.toList_inj.1
  rw [lines, String.toList_join, List.flatMap_map]
  simp only [String.toList_ofList, List.flatMap_id', flatten_cutAfter]

theorem lineFeed_not_mem_bytes {text : String} (inner : '\n' ∉ text.toList) :
    lineFeed ∉ bytes text :=
  not_mem_bytes (by decide) inner

end Text

namespace Place

/-- Where the line of an offset begins: behind the last line feed before the offset. -/
def lineStart (bs : List UInt8) (p : Nat) : Nat :=
  ((bs.take p).rdropWhile (· != lineFeed)).length

/-- Bytes up to the first line feed, which is one of them, or to their end. -/
def firstLine (bs : List UInt8) : List UInt8 :=
  bs.take (bs.idxOf lineFeed + 1)

/-- The place is that of the offset `p` in bytes of which the first line has the number
`first`. -/
structure Locates (place : Place) (first : Nat) (bs : List UInt8) (p : Nat) : Prop where
  line : place.line = first + (bs.take p).count lineFeed
  column : lineStart bs p + place.column = p
  text : Text.bytes place.text = firstLine (bs.drop (lineStart bs p))

section
variable {place : Place} {first p q m : Nat} {bs seen more : List UInt8} {lines : List String}

theorem rdropWhile_append (seen more : List UInt8) :
    (seen ++ lineFeed :: more).rdropWhile (· != lineFeed) =
      seen ++ lineFeed :: more.rdropWhile (· != lineFeed) := by
  induction more using List.reverseRecOn with
  | nil => exact List.rdropWhile_concat_neg _ _ _ (by simp)
  | append_singleton more b ih =>
    rw [← List.cons_append, ← List.append_assoc]
    rw [List.rdropWhile_concat, List.rdropWhile_concat]
    split
    · exact ih
    · simp

theorem rdropWhile_append_of_unbroken (seen : List UInt8) (unbroken : lineFeed ∉ more) :
    (seen ++ more).rdropWhile (· != lineFeed) = seen.rdropWhile (· != lineFeed) := by
  induction more using List.reverseRecOn with
  | nil => rw [List.append_nil]
  | append_singleton more b ih =>
    rw [List.mem_append, List.mem_singleton, not_or] at unbroken
    have other : (b != lineFeed) = true := bne_iff_ne.2 (Ne.symm unbroken.2)
    rw [← List.append_assoc, List.rdropWhile_concat, if_pos other, ih unbroken.1]

theorem take_behind (seen more : List UInt8) (q : Nat) :
    (seen ++ lineFeed :: more).take (seen.length + 1 + q) = seen ++ lineFeed :: more.take q := by
  rw [Nat.add_assoc, List.take_length_add_append, Nat.add_comm 1, List.take_succ_cons]

theorem lineStart_behind (seen more : List UInt8) (q : Nat) :
    lineStart (seen ++ lineFeed :: more) (seen.length + 1 + q) =
      seen.length + 1 + lineStart more q := by
  rw [lineStart, take_behind, rdropWhile_append, List.length_append, List.length_cons,
    lineStart]
  omega

theorem lineStart_of_unbroken (unbroken : lineFeed ∉ bs.take p) : lineStart bs p = 0 := by
  have none : (bs.take p).rdropWhile (· != lineFeed) = [] := by
    refine List.rdropWhile_eq_nil_iff.2 fun b found => ?_
    exact bne_iff_ne.2 fun same => unbroken (same ▸ found)
  rw [lineStart, none, List.length_nil]

theorem firstLine_of_unbroken (unbroken : lineFeed ∉ bs) : firstLine bs = bs := by
  rw [firstLine, List.idxOf_eq_length unbroken]
  exact List.take_of_length_le (Nat.le_succ _)

theorem firstLine_append_of_unbroken (unbroken : lineFeed ∉ seen) :
    firstLine (seen ++ more) = seen ++ firstLine more := by
  rw [firstLine, List.idxOf_append_of_notMem unbroken, Nat.add_assoc,
    List.take_length_add_append, firstLine]

theorem firstLine_append (unbroken : lineFeed ∉ seen) :
    firstLine (seen ++ lineFeed :: more) = seen ++ [lineFeed] := by
  rw [firstLine_append_of_unbroken unbroken, firstLine, List.idxOf_cons_self]
  rfl

theorem locates_of_unbroken {text : String} (unbroken : lineFeed ∉ bs.take p)
    (same : Text.bytes text = firstLine bs) : Locates ⟨first, text, p⟩ first bs p where
  line := by rw [List.count_eq_zero.2 unbroken, Nat.add_zero]
  column := by rw [lineStart_of_unbroken unbroken, Nat.zero_add]
  text := by rw [lineStart_of_unbroken unbroken, List.drop_zero, same]

theorem locates_of_last {text : String} (unbroken : lineFeed ∉ Text.bytes text) (p : Nat) :
    Locates ⟨first, text, p⟩ first (Text.bytes text) p :=
  locates_of_unbroken (fun found => unbroken (List.mem_of_mem_take found))
    (firstLine_of_unbroken unbroken).symm

theorem Locates.behind
    (h : place.Locates (first + seen.count lineFeed + 1) more q) :
    place.Locates first (seen ++ lineFeed :: more) (seen.length + 1 + q) where
  line := by
    rw [h.line, take_behind, List.count_append, List.count_cons_self]
    omega
  column := by
    have := h.column
    rw [lineStart_behind]
    omega
  text := by
    rw [h.text, lineStart_behind, Nat.add_assoc, List.drop_length_add_append, Nat.add_comm 1,
      List.drop_succ_cons]

theorem bytes_line (text : String) (more : List String) :
    Text.bytes (String.join ((text ++ "\n") :: more)) =
      Text.bytes text ++ lineFeed :: Text.bytes (String.join more) := by
  rw [String.join_cons, Text.bytes_append, Text.bytes_append, List.append_assoc]
  rfl

theorem length_bytes_line (text : String) :
    (Text.bytes (text ++ "\n")).length = (Text.bytes text).length + 1 := by
  rw [Text.bytes_append, List.length_append]
  rfl

theorem within?_locates (h : Text.AreLines lines) (first : Nat)
    (inside : p < (Text.bytes (String.join lines)).length) : ∃ place,
      within? first lines p = some place ∧
        place.Locates first (Text.bytes (String.join lines)) p := by
  induction h generalizing first p with
  | none => exact absurd inside (Nat.not_lt_zero p)
  | @last text some inner =>
    have whole : String.join [text] = text := by simp
    rw [whole] at inside ⊢
    refine ⟨⟨first, text, p⟩, by rw [within?, if_pos inside], ?_⟩
    exact locates_of_last (Text.lineFeed_not_mem_bytes inner) p
  | @line text more inner rest ih =>
    have unbroken := Text.lineFeed_not_mem_bytes inner
    have line : Text.bytes (text ++ "\n") = Text.bytes text ++ [lineFeed] := Text.bytes_append _ _
    have size := length_bytes_line text
    rw [bytes_line] at inside ⊢
    by_cases here : p < (Text.bytes (text ++ "\n")).length
    · refine ⟨⟨first, text ++ "\n", p⟩, by rw [within?, if_pos here], ?_⟩
      apply locates_of_unbroken
      · rw [List.take_append_of_le_length (by omega)]
        exact fun found => unbroken (List.mem_of_mem_take found)
      · rw [line, firstLine_append unbroken]
    · obtain ⟨q, rfl⟩ : ∃ q, p = (Text.bytes text).length + 1 + q :=
        ⟨p - ((Text.bytes text).length + 1), by omega⟩
      have left : (Text.bytes text).length + 1 + q - ((Text.bytes text).length + 1) = q := by omega
      simp only [List.length_append, List.length_cons] at inside
      obtain ⟨place, found, located⟩ := @ih q (first + 1) (by omega)
      refine ⟨place, ?_, ?_⟩
      · rw [within?, if_neg here, size, left, found]
      · apply Locates.behind
        rwa [List.count_eq_zero.2 unbroken, Nat.add_zero]

theorem within?_eq_none (lines : List String) (first : Nat)
    (beyond : (Text.bytes (String.join lines)).length ≤ p) : within? first lines p = none := by
  induction lines generalizing first p with
  | nil => rfl
  | cons text more ih =>
    rw [String.join_cons, Text.bytes_append, List.length_append] at beyond
    rw [within?, if_neg (by omega)]
    exact ih (first + 1) (by omega)

section
variable {before last : List Char}

theorem length_lines (inner : '\n' ∉ last) :
    (Text.lines (String.ofList (before ++ '\n' :: last))).length =
      before.count '\n' + 1 + if last = [] then 0 else 1 := by
  have split : String.ofList (before ++ '\n' :: last) =
      String.ofList (before ++ ['\n']) ++ String.ofList last := by
    rw [← String.ofList_append, List.append_assoc, List.singleton_append]
  have complete : (Text.lines (String.ofList (before ++ ['\n']))).length =
      before.count '\n' + 1 := by
    rw [Text.lines, List.length_map, String.toList_ofList, Text.length_cutAfter (by simp),
      ← List.count_eq_countP, List.count_append, List.count_singleton_self]
  rw [split, Text.lines_append (by simp [Text.isTerminated]), List.length_append, complete]
  split
  · next empty =>
    rw [empty]
    rfl
  · next some =>
    have whole : Text.cutAfter (· == '\n') last = [last] := by
      refine Text.cutAfter_eq_singleton some fun c found => beq_eq_false_iff_ne.2 ?_
      rintro rfl
      exact inner (List.dropLast_subset _ found)
    rw [Text.lines, String.toList_ofList, whole]
    rfl

theorem locates_behind_last (inner : '\n' ∉ last) : Locates
    ⟨before.count '\n' + 2, String.ofList last, (Text.bytes (String.ofList last)).length⟩ 1
    (Text.bytes (String.ofList (before ++ '\n' :: last)))
    (Text.bytes (String.ofList (before ++ '\n' :: last))).length := by
  have split : Text.bytes (String.ofList (before ++ '\n' :: last)) =
      Text.bytes (String.ofList before) ++ lineFeed :: Text.bytes (String.ofList last) := by
    simp only [Text.bytes, String.toList_ofList, List.flatMap_append, List.flatMap_cons]
    rfl
  have count : (Text.bytes (String.ofList before)).count lineFeed = before.count '\n' := by
    rw [Text.count_bytes (by decide), String.toList_ofList]
  have unbroken : lineFeed ∉ Text.bytes (String.ofList last) :=
    Text.lineFeed_not_mem_bytes (by rwa [String.toList_ofList])
  rw [split, List.length_append, List.length_cons, Nat.add_comm (Text.bytes _).length 1,
    ← Nat.add_assoc]
  apply Locates.behind
  rw [count, Nat.add_comm 1, Nat.add_assoc]
  exact locates_of_last unbroken _

end

theorem ofEnd_locates (source : String) :
    (ofEnd source).Locates 1 (Text.bytes source) (Text.bytes source).length := by
  have split {last : List Char} (found : Text.afterLast? (· == '\n') source.toList = some last) :
      ∃ before, source = String.ofList (before ++ '\n' :: last) ∧ '\n' ∉ last := by
    obtain ⟨before, c, whole, ends, inner⟩ := Text.split_of_afterLast? found
    obtain rfl := beq_iff_eq.1 ends
    refine ⟨before, by rw [← whole, String.ofList_toList], fun found => ?_⟩
    exact absurd rfl (beq_eq_false_iff_ne.1 (inner _ found))
  rw [ofEnd]
  split
  · next none =>
    have inner : '\n' ∉ source.toList := fun found =>
      absurd rfl (beq_eq_false_iff_ne.1 (Text.inner_of_afterLast? none _ found))
    exact locates_of_last (Text.lineFeed_not_mem_bytes inner) _
  · next found =>
    obtain ⟨before, rfl, inner⟩ := split found
    rw [length_lines inner, if_pos rfl]
    exact locates_behind_last inner
  · next last some found =>
    obtain ⟨before, rfl, inner⟩ := split found
    rw [length_lines inner, if_neg some]
    exact locates_behind_last inner

theorem ofOffset_locates (source : String) (offset : Nat) :
    (ofOffset source offset).Locates 1 (Text.bytes source)
      (min offset (Text.bytes source).length) := by
  have join := Text.join_lines source
  rw [ofOffset]
  by_cases inside : offset < (Text.bytes source).length
  · rw [Nat.min_eq_left (Nat.le_of_lt inside)]
    rw [← join] at inside
    obtain ⟨place, found, located⟩ := within?_locates (Text.areLines_lines source) 1 inside
    rw [found]
    rwa [join] at located
  · rw [Nat.min_eq_right (Nat.le_of_not_lt inside), within?_eq_none _ 1 (by rw [join])]
    exact ofEnd_locates source

theorem within?_splits (h : within? first lines p = some place) : ∃ before after,
    lines = before ++ place.text :: after ∧
      p = (Text.bytes (String.join before)).length + place.column ∧
      place.column < (Text.bytes place.text).length := by
  induction lines generalizing first p with
  | nil => simp [within?] at h
  | cons text rest ih =>
    rw [within?] at h
    split at h
    · next inside =>
      obtain rfl := Option.some.inj h
      exact ⟨[], rest, rfl, (Nat.zero_add p).symm, inside⟩
    · next beyond =>
      obtain ⟨before, after, rfl, offset, inside⟩ := ih h
      refine ⟨text :: before, after, rfl, ?_, inside⟩
      rw [String.join_cons, Text.bytes_append, List.length_append]
      omega

theorem ofOffset_splits {source : String} (inside : p < (Text.bytes source).length) :
    ∃ before after, source.toList = before ++ (ofOffset source p).text.toList ++ after ∧
      p = (Text.encode before).length + (ofOffset source p).column ∧
      (ofOffset source p).column < (Text.bytes (ofOffset source p).text).length := by
  have join := Text.join_lines source
  obtain ⟨place, found, -⟩ := within?_locates (Text.areLines_lines source) 1 (by rwa [join])
  have same : ofOffset source p = place := by
    rw [ofOffset, Nat.min_eq_left (Nat.le_of_lt inside), found]
    rfl
  rw [same]
  obtain ⟨before, after, split, offset, column⟩ := within?_splits found
  refine ⟨(String.join before).toList, (String.join after).toList, ?_, offset, column⟩
  rw [← join, split]
  simp [String.toList_join]

theorem ofOffset_getElem? {source : String} (inside : p < (Text.bytes source).length) :
    Text.charAt? source.toList p =
        Text.charAt? (ofOffset source p).text.toList (ofOffset source p).column ∧
      (Text.bytes source)[p]? =
        (Text.bytes (ofOffset source p).text)[(ofOffset source p).column]? := by
  obtain ⟨before, after, whole, offset, column⟩ := ofOffset_splits inside
  generalize ofOffset source p = place at whole offset column
  have bytes : Text.bytes source =
      Text.encode before ++ (Text.bytes place.text ++ Text.encode after) := by
    rw [Text.bytes, whole, List.append_assoc]
    simp [Text.encode, Text.bytes]
  have left : p - (Text.encode before).length = place.column := by omega
  constructor
  · rw [whole, List.append_assoc, Text.charAt?_append_right (by omega), left]
    exact Text.charAt?_append_left column
  · rw [bytes, List.getElem?_append_right (by omega), left, List.getElem?_append_left column]

theorem idxOf_lineFeed_le (seen more : List UInt8) :
    (seen ++ lineFeed :: more).idxOf lineFeed ≤ seen.length := by
  rw [List.idxOf_append]
  split
  · next inside => exact Nat.le_of_lt (List.idxOf_lt_length_of_mem inside)
  · simp

theorem eq_nil_of_firstLine (h : firstLine bs = seen ++ lineFeed :: more) : more = [] := by
  obtain ⟨rest, whole⟩ : firstLine bs <+: bs := List.take_prefix _ bs
  have index : bs.idxOf lineFeed ≤ seen.length := by
    rw [← whole, h, List.append_assoc, List.cons_append]
    exact idxOf_lineFeed_le seen (more ++ rest)
  have size := congrArg List.length h
  rw [firstLine, List.length_take, List.length_append, List.length_cons] at size
  exact List.length_eq_zero_iff.1 (by omega)

theorem unbroken_of_firstLine {line : String} (h : Text.bytes line = firstLine bs) :
    '\n' ∉ line.toList.dropLast := by
  intro found
  obtain ⟨xs, ys, same⟩ := List.append_of_mem found
  obtain ⟨last, whole⟩ : ∃ last, line.toList = line.toList.dropLast ++ [last] :=
    ⟨_, (List.dropLast_concat_getLast (by rintro none; simp [none] at found)).symm⟩
  rw [same, List.append_assoc, List.cons_append] at whole
  have split : Text.bytes line = Text.encode xs ++ lineFeed :: Text.encode (ys ++ [last]) := by
    rw [Text.bytes, whole]
    exact Text.encode_append xs _
  have none := eq_nil_of_firstLine (h.symm.trans split)
  rw [Text.encode_append] at none
  exact absurd (List.append_eq_nil_iff.1 none).2 (by simp [Text.encode])

theorem sum_lines_before_of_unbroken (unbroken : lineFeed ∉ bs.take p) :
    ((lines.take ((bs.take p).count lineFeed)).map fun line => (Text.bytes line).length).sum =
      lineStart bs p := by
  rw [List.count_eq_zero.2 unbroken, lineStart_of_unbroken unbroken]
  rfl

theorem sum_lines_before (h : Text.AreLines lines)
    (inside : p ≤ (Text.bytes (String.join lines)).length) :
    ((lines.take (((Text.bytes (String.join lines)).take p).count lineFeed)).map
      fun line => (Text.bytes line).length).sum =
      lineStart (Text.bytes (String.join lines)) p := by
  induction h generalizing p with
  | none =>
    obtain rfl := Nat.le_zero.1 inside
    rfl
  | @last text some inner =>
    have whole : String.join [text] = text := by simp
    rw [whole]
    exact sum_lines_before_of_unbroken fun found =>
      Text.lineFeed_not_mem_bytes inner (List.mem_of_mem_take found)
  | @line text more inner rest ih =>
    have unbroken := Text.lineFeed_not_mem_bytes inner
    rw [bytes_line] at inside ⊢
    by_cases here : p ≤ (Text.bytes text).length
    · apply sum_lines_before_of_unbroken
      rw [List.take_append_of_le_length here]
      exact fun found => unbroken (List.mem_of_mem_take found)
    · obtain ⟨q, rfl⟩ : ∃ q, p = (Text.bytes text).length + 1 + q :=
        ⟨p - ((Text.bytes text).length + 1), by omega⟩
      simp only [List.length_append, List.length_cons] at inside
      rw [take_behind, List.count_append, List.count_eq_zero.2 unbroken, Nat.zero_add,
        List.count_cons_self, List.take_succ_cons, List.map_cons, List.sum_cons,
        ih (by omega), length_bytes_line, lineStart_behind]

theorem Locates.unique {other : Place} (h : place.Locates first bs p)
    (k : other.Locates first bs p) : place = other := by
  have line := h.line.trans k.line.symm
  have column := Nat.add_left_cancel (h.column.trans k.column.symm)
  have text := Text.eq_of_bytes_eq (h.text.trans k.text.symm)
  cases place
  cases other
  exact congr (congr (congrArg Place.mk line) text) column

theorem lineStart_add_of_unbroken (unbroken : lineFeed ∉ (bs.drop p).take m) :
    lineStart bs (p + m) = lineStart bs p := by
  rw [lineStart, List.take_add, rdropWhile_append_of_unbroken _ unbroken, lineStart]

theorem Locates.forward (h : place.Locates first bs p)
    (unbroken : lineFeed ∉ (bs.drop p).take m) :
    Locates ⟨place.line, place.text, place.column + m⟩ first bs (p + m) where
  line := by
    rw [h.line, List.take_add, List.count_append, List.count_eq_zero.2 unbroken, Nat.add_zero]
  column := by rw [lineStart_add_of_unbroken unbroken, ← Nat.add_assoc, h.column]
  text := by rw [lineStart_add_of_unbroken unbroken, h.text]

theorem Locates.lt {next : Place} (h : place.Locates first bs p) (k : next.Locates first bs q)
    (lt : p < q) :
    place.line < next.line ∨ place.line = next.line ∧ place.column < next.column := by
  obtain ⟨m, rfl⟩ := Nat.exists_eq_add_of_le (Nat.le_of_lt lt)
  by_cases broken : lineFeed ∈ (bs.drop p).take m
  · have before := h.line
    have line := k.line
    rw [List.take_add, List.count_append] at line
    have := List.count_pos_iff.2 broken
    left
    omega
  · obtain rfl := (h.forward broken).unique k
    exact .inr ⟨rfl, by simp only; omega⟩

end

/-- Where an offset stands: one line for each line feed before it and one more, as far
behind the last of them as its column says, in the text from there to the next line feed
or to the end. With the lines before that one the column gives the offset back, and later
offsets come later in the order of lines and columns. Offsets past the end are the end. -/
theorem ofOffset_exact (source : String) (offset : Nat) :
    let place : Place := ofOffset source offset
    let bs := Text.bytes source
    let p := min offset bs.length
    place.line = 1 + (bs.take p).count lineFeed ∧
      lineStart bs p + place.column = p ∧
      Text.bytes place.text = firstLine (bs.drop (lineStart bs p)) ∧
      (((Text.lines source).take (place.line - 1)).map fun line =>
        (Text.bytes line).length).sum + place.column = p ∧
      ∀ other, p < min other bs.length →
        place.line < (ofOffset source other).line ∨
          place.line = (ofOffset source other).line ∧
            place.column < (ofOffset source other).column := by
  intro place bs p
  have located : place.Locates 1 bs p := ofOffset_locates source offset
  refine ⟨located.line, located.column, located.text, ?_, fun other later => ?_⟩
  · have inside : p ≤ (Text.bytes (String.join (Text.lines source))).length := by
      rw [Text.join_lines]
      exact Nat.min_le_right _ _
    have before := sum_lines_before (Text.areLines_lines source) inside
    rw [Text.join_lines] at before
    rw [located.line, Nat.add_sub_cancel_left, before]
    exact located.column
  · exact located.lt (ofOffset_locates source other) later

end Place

end Scriptlet
