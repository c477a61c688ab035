import Mathlib.Data.List.Forall2
import Scriptlet.Diagnostic.Report
import Scriptlet.Proofs.Place

/-!
What a report points at. It has five lines, whatever the source holds, and the caret stands
under the byte that is meant: the line above it is shown without its indentation, and the
caret has moved as many bytes to the left. Only a byte of white space can be trimmed away.
-/

namespace Scriptlet

theorem Fault.name_unbroken (f : Fault) : '\n' ∉ f.name.toList := by
  cases f with
  | unexpectedToken expected received literal => simp [name]
  | unrecognisedStatement kind literal => simp [name]
  | tokenLimitExceeded limit => simp [name]

namespace Place

def isMargin (b : UInt8) : Bool :=
  b == ' '.toUInt8 || b == '\t'.toUInt8

/-- How many bytes of its line stand before an offset, but for the spaces and tabs at the
beginning of the line. -/
def inset (bs : List UInt8) (p : Nat) : Nat :=
  p - lineStart bs p - ((bs.drop (lineStart bs p)).takeWhile isMargin).length

theorem takeWhile_firstLine (bs : List UInt8) :
    (firstLine bs).takeWhile isMargin = bs.takeWhile isMargin := by
  induction bs with
  | nil => rfl
  | cons b rest ih =>
    by_cases ends : b = lineFeed
    · have whole : firstLine (b :: rest) = [lineFeed] := by
        rw [ends]
        exact @firstLine_append [] rest List.not_mem_nil
      rw [whole, ends]
      rfl
    · have whole : firstLine (b :: rest) = b :: firstLine rest :=
        @firstLine_append_of_unbroken [b] rest (by simpa using Ne.symm ends)
      rw [whole, List.takeWhile_cons, List.takeWhile_cons, ih]

end Place

namespace Diagnostic

/-- What is shown of a line: all but the spaces and tabs that it begins with and the white
space that it ends with. -/
structure Trims (line : String) (front shown back : List Char) : Prop where
  whole : line.toList = front ++ shown ++ back
  indents : ∀ c ∈ front, isIndentation c
  starts : ∀ c ∈ shown.head?, isIndentation c = false
  blank : ∀ c ∈ back, Text.isWhiteSpace c
  ends : ∀ c ∈ shown.getLast?, Text.isWhiteSpace c = false

theorem trimmed_trims (line : String) : ∃ shown back, trimmed line = String.ofList shown ∧
    Trims line (line.toList.takeWhile isIndentation) shown back := by
  generalize cs : line.toList = chars
  have split := List.takeWhile_append_dropWhile (p := isIndentation) (l := chars)
  refine ⟨(chars.dropWhile isIndentation).rdropWhile Text.isWhiteSpace,
    (chars.dropWhile isIndentation).rtakeWhile Text.isWhiteSpace, ?_, ?_, ?_, ?_, ?_, ?_⟩
  · rw [trimmed, cs]
    rfl
  · rw [List.append_assoc, List.rdropWhile_append_rtakeWhile, split, cs]
  · exact fun c found => List.mem_takeWhile_imp found
  · intro c found
    obtain ⟨rest, kept⟩ := List.rdropWhile_prefix Text.isWhiteSpace (chars.dropWhile isIndentation)
    have first := List.head?_dropWhile_not isIndentation chars
    rw [← kept, List.head?_append, Option.mem_def.1 found] at first
    exact first
  · exact fun c found => List.mem_rtakeWhile_imp found
  · intro c found
    obtain ⟨some, rfl⟩ := List.mem_getLast?_eq_getLast found
    exact Bool.eq_false_iff.2 (List.rdropWhile_last_not _ _ some)

/-- Where a diagnostic points at. Positions beyond the end stand for the end. -/
def offset (d : Diagnostic) (source : String) : Nat :=
  min d.position.toNat (Text.bytes source).length

theorem isIndentation_iff {c : Char} : isIndentation c ↔ c = ' ' ∨ c = '\t' := by
  rw [isIndentation, Bool.or_eq_true, beq_iff_eq, beq_iff_eq]

theorem isWhiteSpace_of_isIndentation {c : Char} (h : isIndentation c) : Text.isWhiteSpace c := by
  rcases isIndentation_iff.1 h with rfl | rfl
  · decide
  · decide

theorem ascii_of_isIndentation {c : Char} (h : isIndentation c) : c.toNat < 128 := by
  rcases isIndentation_iff.1 h with rfl | rfl
  · decide
  · decide

theorem isMargin_toUInt8 {c : Char} (ascii : c.toNat < 128) :
    Place.isMargin c.toUInt8 = isIndentation c := by
  have same (d : Char) (small : d.toNat < 128) : (c.toUInt8 == d.toUInt8) = (c == d) := by
    rw [Bool.eq_iff_iff, beq_iff_eq, beq_iff_eq, ← UInt8.toNat_inj, Text.toNat_toUInt8 ascii,
      Text.toNat_toUInt8 small, Char.toNat_inj]
  rw [Place.isMargin, isIndentation, same ' ' (by decide), same '\t' (by decide)]

theorem isMargin_of_wide {c : Char} (wide : 128 ≤ c.toNat) :
    ∀ b ∈ String.utf8EncodeChar c, Place.isMargin b = false := by
  intro b found
  have high := Text.wide_of_mem_utf8EncodeChar wide b found
  rw [Place.isMargin, Bool.or_eq_false_iff, beq_eq_false_iff_ne, beq_eq_false_iff_ne]
  constructor
  · rintro rfl
    exact absurd high (by decide)
  · rintro rfl
    exact absurd high (by decide)

theorem length_takeWhile_encode (cs : List Char) :
    ((Text.encode cs).takeWhile Place.isMargin).length =
      (cs.takeWhile isIndentation).length := by
  induction cs with
  | nil => rfl
  | cons c rest ih =>
    have whole : Text.encode (c :: rest) = String.utf8EncodeChar c ++ Text.encode rest := rfl
    rw [whole, List.takeWhile_cons]
    by_cases ascii : c.toNat < 128
    · rw [Text.utf8EncodeChar_of_ascii ascii, List.singleton_append, List.takeWhile_cons,
        isMargin_toUInt8 ascii]
      cases isIndentation c with
      | true => exact congrArg (· + 1) ih
      | false => rfl
    · have other : isIndentation c = false :=
        Bool.eq_false_iff.2 fun margin => ascii (ascii_of_isIndentation margin)
      have wide := isMargin_of_wide (Nat.not_lt.1 ascii)
      obtain ⟨b, more, bytes⟩ := List.exists_cons_of_ne_nil (@String.utf8EncodeChar_ne_nil c)
      rw [bytes] at wide ⊢
      rw [List.cons_append, List.takeWhile_cons, wide b List.mem_cons_self, other]
      rfl

section
variable {line : String} {front shown back : List Char} {c : Char} {column : Nat}

theorem Trims.length_front (h : Trims line front shown back) :
    (Text.encode front).length = front.length :=
  Text.length_encode_of_ascii fun c found => ascii_of_isIndentation (h.indents c found)

theorem Trims.unbroken (h : Trims line front shown back) (inner : '\n' ∉ line.toList.dropLast) :
    '\n' ∉ shown := by
  intro found
  obtain ⟨last, same⟩ : ∃ last, shown = shown.dropLast ++ [last] :=
    ⟨_, (List.dropLast_concat_getLast (List.ne_nil_of_mem found)).symm⟩
  have whole := h.whole
  have ends := h.ends
  rw [same] at found whole ends
  rcases List.mem_append.1 found with before | last
  · apply inner
    rw [whole, ← List.append_assoc, List.append_assoc, List.dropLast_append_of_ne_nil (by simp)]
    simp [before]
  · obtain rfl := List.mem_singleton.1 last
    exact absurd (ends '\n' (by simp)) (by decide)

theorem Trims.getElem?_eq (h : Trims line front shown back)
    (here : Text.charAt? line.toList column = some c) (visible : Text.isWhiteSpace c = false) :
    (Text.bytes line)[column]? = (Text.encode shown)[column - front.length]? := by
  have before : c ∉ front := fun found =>
    absurd (isWhiteSpace_of_isIndentation (h.indents c found)) (Bool.eq_false_iff.1 visible)
  have behind : c ∉ back := fun found =>
    absurd (h.blank c found) (Bool.eq_false_iff.1 visible)
  rw [h.whole] at here
  obtain ⟨low, high⟩ := Text.within_of_charAt? here before behind
  have size := h.length_front
  have bytes : Text.bytes line = Text.encode front ++ Text.encode shown ++ Text.encode back := by
    rw [← Text.encode_append, ← Text.encode_append, ← h.whole]
    rfl
  rw [size] at low high
  rw [bytes, List.append_assoc, List.getElem?_append_right (by omega), size,
    List.getElem?_append_left (by omega)]

end

section
variable {d : Diagnostic} {source origin : String}

theorem headline_unbroken (advice : '\n' ∉ d.fault.tip.text.toList) :
    '\n' ∉ d.headline.toList := by
  have name := d.fault.name_unbroken
  rw [headline]
  split
  · simp [name]
  · next text same =>
    rw [same] at advice
    simp [name, show '\n' ∉ text.toList from advice]

theorem place_text_unbroken (source : String) (offset : Nat) :
    '\n' ∉ (Place.ofOffset source offset).text.toList.dropLast :=
  Place.unbroken_of_firstLine (Place.ofOffset_locates source offset).text

theorem reportLines_unbroken (advice : '\n' ∉ d.fault.tip.text.toList)
    (named : '\n' ∉ origin.toList) : ∀ line ∈ d.reportLines source origin, '\n' ∉ line.toList := by
  obtain ⟨shown, back, same, trims⟩ := trimmed_trims (Place.ofOffset source d.position.toNat).text
  have quoted := trims.unbroken (place_text_unbroken source d.position.toNat)
  have number {n : Nat} : '\n' ∉ (Text.decimal n).toList := Text.not_mem_decimal (by decide)
  simp only [reportLines, List.forall_mem_cons, row]
  refine ⟨headline_unbroken advice, ?_, ?_, ?_, ?_, by simp⟩
  · simp [named]
  · simp
  · simp [same, quoted, number]
  · simp

theorem lines_report (advice : '\n' ∉ d.fault.tip.text.toList) (named : '\n' ∉ origin.toList) :
    Text.lines (d.report source origin) = (d.reportLines source origin).map (· ++ "\n") :=
  Text.lines_join (reportLines_unbroken advice named)

theorem idxOf_bar (number : Nat) (shown : String) :
    (Text.bytes (Text.decimal number ++ " | " ++ shown)).idxOf '|'.toUInt8 =
      (Text.decimal number).length + 1 := by
  have split : (Text.decimal number ++ " | " ++ shown).toList =
      ((Text.decimal number).toList ++ [' ']) ++ '|' :: ' ' :: shown.toList := by
    simp
  have ascii : ∀ c ∈ (Text.decimal number).toList ++ [' '], c.toNat < 128 :=
    List.forall_mem_append.2 ⟨Text.ascii_decimal, by simp⟩
  have before : '|' ∉ (Text.decimal number).toList ++ [' '] := by
    simp [@Text.not_mem_decimal number '|' (by decide)]
  rw [Text.bytes, split, ← Text.encode, Text.idxOf_encode (by decide) ascii before,
    List.length_append, String.length_toList, List.length_singleton]

theorem idxOf_caret (width dashes : Nat) :
    (Text.bytes (row ' ' width ++ "| " ++ row '-' dashes ++ "^")).idxOf '^'.toUInt8 =
      width + 2 + dashes := by
  have split : (row ' ' width ++ "| " ++ row '-' dashes ++ "^").toList =
      (List.replicate width ' ' ++ ['|', ' '] ++ List.replicate dashes '-') ++ ['^'] := by
    simp [row]
  have ascii : ∀ c ∈ List.replicate width ' ' ++ ['|', ' '] ++ List.replicate dashes '-',
      c.toNat < 128 := by
    simp only [List.forall_mem_append, List.forall_mem_replicate]
    exact ⟨⟨.inr (by decide), by simp⟩, .inr (by decide)⟩
  rw [Text.bytes, split, ← Text.encode, Text.idxOf_encode (by decide) ascii (by simp)]
  simp only [List.length_append, List.length_replicate, List.length_cons, List.length_nil]

theorem getElem?_quoted (number : Nat) (shown : List Char) (offset : Nat) :
    (Text.bytes (Text.decimal number ++ " | " ++ String.ofList shown))[
      (Text.decimal number).length + 1 + 2 + offset]? = (Text.encode shown)[offset]? := by
  have gutter : (Text.bytes (Text.decimal number ++ " | ")).length =
      (Text.decimal number).length + 1 + 2 := by
    rw [Text.bytes_append, List.length_append, Text.bytes, ← Text.encode,
      Text.length_encode_of_ascii Text.ascii_decimal, String.length_toList]
    rfl
  rw [Text.bytes_append, List.getElem?_append_right (by omega), gutter, Nat.add_sub_cancel_left,
    Text.bytes, String.toList_ofList, ← Text.encode]

/-- A report is five lines. The last two are the line of the byte that is meant, behind its
number and without the white space at its ends, and a caret behind a bar that stands under
the bar of that line. Unless the byte belongs to white space, it is the one over the caret. -/
theorem report_underlines (d : Diagnostic) (source origin : String)
    (advice : '\n' ∉ d.fault.tip.text.toList) (named : '\n' ∉ origin.toList) :
    let bs := Text.bytes source
    let p := min d.position.toNat bs.length
    ∃ (quoted line : String) (dashes : Nat),
      let bar := (Text.bytes quoted).idxOf '|'.toUInt8
      let caret := row ' ' bar ++ "| " ++ row '-' dashes ++ "^"
      Text.lines (d.report source origin) =
        [d.headline, "-> " ++ origin, row ' ' bar ++ "|", quoted, caret].map (· ++ "\n") ∧
      Text.bytes line = Place.firstLine (bs.drop (Place.lineStart bs p)) ∧
      (∃ front shown back, Trims line front shown back ∧
        quoted = Text.decimal (1 + (bs.take p).count lineFeed) ++ " | " ++ String.ofList shown) ∧
      (p < bs.length → ∃ c b, Text.charAt? source.toList p = some c ∧ bs[p]? = some b ∧
        (Text.isWhiteSpace c = false →
          (Text.bytes quoted)[(Text.bytes caret).idxOf '^'.toUInt8]? = some b)) := by
  intro bs p
  have located := Place.ofOffset_locates source d.position.toNat
  have lines := @lines_report d source origin advice named
  rw [reportLines, dashes] at lines
  generalize found : Place.ofOffset source d.position.toNat = place at located lines
  obtain ⟨shown, back, same, trims⟩ := trimmed_trims place.text
  have bars : row ' ' ((Text.decimal place.line).length + 1) ++ "|" ++ " " =
      row ' ' ((Text.decimal place.line).length + 1) ++ "| " := String.append_assoc
  simp only [same, bars] at lines
  refine ⟨Text.decimal place.line ++ " | " ++ String.ofList shown, place.text,
    place.column - indentation place.text, ?_, located.text,
    ⟨_, shown, back, trims, by rw [located.line]⟩, fun inside => ?_⟩
  · rw [lines, idxOf_bar]
  · have position : d.position.toNat = p := by omega
    rw [position] at found
    obtain ⟨character, byte⟩ := Place.ofOffset_getElem? inside
    rw [found] at character byte
    obtain ⟨c, here⟩ := Text.exists_charAt? inside
    refine ⟨c, bs[p], here, List.getElem?_eq_getElem inside, fun visible => ?_⟩
    have above := trims.getElem?_eq (character ▸ here) visible
    rw [idxOf_bar, idxOf_caret, getElem?_quoted, indentation, ← above, ← byte,
      List.getElem?_eq_getElem inside]

end

theorem report_underlines_accent :
    let d : Diagnostic := ⟨.unrecognisedStatement .illegal "\u00a9", 8⟩
    '\n' ∉ d.fault.tip.text.toList ∧ '\n' ∉ "repl".toList ∧
    ∃ (quoted : String) (dashes : Nat),
      let bar := (Text.bytes quoted).idxOf '|'.toUInt8
      let caret := row ' ' bar ++ "| " ++ row '-' dashes ++ "^"
      Text.lines (d.report "a\n\tlet é 5; \n" "repl") =
        [d.headline, "-> repl", row ' ' bar ++ "|", quoted, caret].map (· ++ "\n") ∧
      (Text.bytes quoted)[(Text.bytes caret).idxOf '^'.toUInt8]? = some 0xa9 := by
  intro d
  have advice : '\n' ∉ d.fault.tip.text.toList := by decide +kernel
  have named : '\n' ∉ "repl".toList := by decide
  obtain ⟨quoted, line, dashes, lines, -, -, above⟩ :=
    report_underlines d "a\n\tlet é 5; \n" "repl" advice named
  have inside : min d.position.toNat (Text.bytes "a\n\tlet é 5; \n").length = 8 := by decide +kernel
  rw [inside] at above
  obtain ⟨c, b, here, byte, shown⟩ := above (by decide +kernel)
  obtain rfl : 'é' = c := Option.some.inj here
  obtain rfl : 0xa9 = b := Option.some.inj byte
  exact ⟨advice, named, quoted, dashes, lines, shown (by decide)⟩

section
variable (d : Diagnostic) (source : String)

theorem dashes_eq (d : Diagnostic) (source : String) :
    d.dashes source = Place.inset (Text.bytes source) (d.offset source) := by
  have located := Place.ofOffset_locates source d.position.toNat
  have column := located.column
  have margin : indentation (Place.ofOffset source d.position.toNat).text =
      (((Text.bytes source).drop (Place.lineStart (Text.bytes source) (d.offset source))).takeWhile
        Place.isMargin).length := by
    rw [indentation, ← length_takeWhile_encode, offset,
      ← Place.takeWhile_firstLine ((Text.bytes source).drop _), ← located.text]
    rfl
  rw [dashes, margin, Place.inset, offset]
  omega

theorem headline_eq :
    d.headline = "Error: " ++ d.fault.name ++ " (" ++ d.fault.tip.text ++ ")" := by
  have advised : d.fault.tip = .suggestion d.fault.tip.text := by
    unfold Fault.tip
    split
    all_goals rfl
  rw [headline, advised]
  rfl

end

end Diagnostic

/-- What a report says, but for the name of the source. -/
structure Block where
  name : String
  advice : String
  number : Nat
  shown : String
  dashes : Nat

namespace Block

def lines (b : Block) (origin : String) : List String :=
  let margin := String.ofList (List.replicate ((Text.decimal b.number).length + 1) ' ')
  ["Error: " ++ b.name ++ " (" ++ b.advice ++ ")",
   "-> " ++ origin,
   margin ++ "|",
   Text.decimal b.number ++ " | " ++ b.shown,
   margin ++ "| " ++ String.ofList (List.replicate b.dashes '-') ++ "^"]

def print (origin : String) (blocks : List Block) : String :=
  String.join ((blocks.flatMap (·.lines origin)).map (· ++ "\n"))

/-- The block is about this diagnostic of the source, and shows the line that is meant. -/
structure Shows (b : Block) (d : Diagnostic) (source : String) : Prop where
  name : b.name = d.fault.name
  advice : b.advice = d.fault.tip.text
  number : b.number = 1 + ((Text.bytes source).take (d.offset source)).count lineFeed
  shown : ∃ line front back, Diagnostic.Trims line front b.shown.toList back ∧
    Text.bytes line = Place.firstLine
      ((Text.bytes source).drop (Place.lineStart (Text.bytes source) (d.offset source)))
  dashes : b.dashes = Place.inset (Text.bytes source) (d.offset source)

end Block

namespace Diagnostic

def block (d : Diagnostic) (source : String) : Block :=
  let place := Place.ofOffset source d.position.toNat
  ⟨d.fault.name, d.fault.tip.text, place.line, trimmed place.text, d.dashes source⟩

section
variable (d : Diagnostic) (source origin : String)

theorem block_shows : (d.block source).Shows d source := by
  have located := Place.ofOffset_locates source d.position.toNat
  obtain ⟨shown, back, same, trims⟩ := trimmed_trims (Place.ofOffset source d.position.toNat).text
  rw [← String.toList_ofList (l := shown), ← same] at trims
  exact ⟨rfl, rfl, located.line, ⟨_, _, back, trims, located.text⟩, d.dashes_eq source⟩

theorem reportLines_eq_lines : d.reportLines source origin = (d.block source).lines origin := by
  have gutter (margin : String) : margin ++ "|" ++ " " = margin ++ "| " := String.append_assoc
  rw [reportLines, headline_eq]
  simp only [gutter]
  rfl

theorem report_eq_print : d.report source origin = Block.print origin [d.block source] := by
  rw [report, reportLines_eq_lines, Block.print, List.flatMap_singleton]

theorem forall₂_blocks (found : List Diagnostic) :
    List.Forall₂ (Block.Shows · · source) (found.map (·.block source)) found := by
  rw [List.forall₂_map_left_iff]
  exact List.forall₂_same.2 fun d _ => d.block_shows source

end

/-- The caret does not stand too far out to be printed. -/
def IsNarrow (d : Diagnostic) (source : String) : Prop :=
  Place.inset (Text.bytes source) (d.offset source) < 65535

instance (d : Diagnostic) (source : String) : Decidable (d.IsNarrow source) :=
  inferInstanceAs (Decidable (_ < _))

section
variable {d wide : Diagnostic} {source origin : String} {found before after : List Diagnostic}

theorem isNarrow_iff : d.IsNarrow source ↔ (d.block source).dashes < 65535 := by
  rw [IsNarrow, ← dashes_eq]
  rfl

theorem forall_isNarrow_iff : (∀ d ∈ found, d.IsNarrow source) ↔
    ∀ b ∈ found.map (·.block source), b.dashes < 65535 := by
  simp only [List.forall_mem_map, isNarrow_iff]

theorem printout_of_narrow (narrow : d.IsNarrow source) :
    d.printout source origin = .ofText (Block.print origin [d.block source]) := by
  rw [← report_eq_print]
  exact if_pos (isNarrow_iff.1 narrow)

theorem printout_of_wide (beyond : ¬d.IsNarrow source) : d.printout source origin = .crash :=
  if_neg (mt isNarrow_iff.2 beyond)

theorem printouts_of_narrow (narrow : ∀ d ∈ found, d.IsNarrow source) :
    (∀ part ∈ found.map (·.printout source origin), part.ending = .ok ()) ∧
      String.join ((found.map (·.printout source origin)).map (·.text)) =
        Block.print origin (found.map (·.block source)) := by
  constructor
  · refine List.forall_mem_map.2 fun d inside => ?_
    rw [printout_of_narrow (narrow d inside)]
    rfl
  · have each : found.map (fun d => (d.printout source origin).text) =
        found.map fun d => Block.print origin [d.block source] :=
      List.map_congr_left fun d inside => by rw [printout_of_narrow (narrow d inside)]; rfl
    rw [List.map_map]
    apply String.toList_inj.1
    simp only [Function.comp_def, each]
    simp [Block.print, String.toList_join, List.flatMap_map, List.flatMap_assoc]

theorem reports_of_narrow (narrow : ∀ d ∈ found, d.IsNarrow source) :
    reports found source origin = .ofText (Block.print origin (found.map (·.block source))) := by
  obtain ⟨ends, whole⟩ := @printouts_of_narrow source origin found narrow
  rw [reports, Printout.concat_of_ok ends, whole]

theorem reports_of_wide (narrow : ∀ d ∈ before, d.IsNarrow source)
    (beyond : ¬wide.IsNarrow source) :
    reports (before ++ wide :: after) source origin =
      ⟨.error .crashed, Block.print origin (before.map (·.block source))⟩ := by
  obtain ⟨ends, whole⟩ := @printouts_of_narrow source origin before narrow
  rw [reports, List.map_append, List.map_cons, printout_of_wide beyond,
    Printout.concat_of_halt ends rfl, whole]
  exact congrArg (Printout.mk _) String.append_empty

end

end Diagnostic

end Scriptlet
