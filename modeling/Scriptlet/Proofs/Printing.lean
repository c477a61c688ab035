import Mathlib.Data.List.Chain
import Scriptlet.Proofs.Spelling

/-!
Lexing undoes printing. Lexemes may be written with any blanks between them, and
with none unless the two would be read as other tokens, and what is read back are
the same lexemes at the places where they were written.
-/

namespace Scriptlet

namespace Text

instance (p : UInt8 → Bool) (bs : List UInt8) : Decidable (IsRun p bs) :=
  decidable_of_iff (bs ≠ [] ∧ bs.all p) ⟨fun h => ⟨h.1, List.all_eq_true.1 h.2⟩,
    fun h => ⟨h.nonempty, List.all_eq_true.2 h.all⟩⟩

end Text

namespace TokenKind

/-- Behind these bytes the next one is not read as part of the same token. -/
structure Stops (bs : List UInt8) (next : Option UInt8) : Prop where
  word : Text.IsRun isLetter bs → ∀ b ∈ next, isLetter b = false
  number : Text.IsRun isDigit bs → ∀ b ∈ next, isDigit b = false
  sign : bs = Text.bytes "=" ∨ bs = Text.bytes "!" → ∀ b ∈ next, b ≠ '='.toUInt8

theorem Stops.of_none (bs : List UInt8) : Stops bs none :=
  ⟨by simp, by simp, by simp⟩

theorem Stops.of_seam {bs : List UInt8} {b : UInt8} (h : IsSeam b) : Stops bs (some b) := by
  constructor
  · rintro - _ ⟨⟩
    exact h.letter
  · rintro - _ ⟨⟩
    exact h.digit
  · rintro - _ ⟨⟩
    exact h.sign

theorem head_of_mem_signs : ∀ kind ∈ signs, ∀ text ∈ kind.spelling?,
    ∀ b ∈ (Text.bytes text).head?, isLetter b = false ∧ isDigit b = false := by
  decide +kernel

theorem visible_of_mem_signs : ∀ kind ∈ signs, ∀ text ∈ kind.spelling?,
    ∀ b ∈ Text.bytes text, b ≠ 0 ∧ isBlank b = false := by
  decide +kernel

theorem sign_cases : ∀ kind ∈ signs, ∀ text ∈ kind.spelling?,
    (∃ b ∈ Text.bytes text, ∃ c ∈ Text.bytes text,
      Text.bytes text = [b, c] ∧ operator? b c = some kind) ∨
    ∃ b ∈ Text.bytes text, Text.bytes text = [b] ∧ symbol? b = some kind ∧ b ≠ 0 ∧
      isLetter b = false ∧ isDigit b = false := by
  decide

section
variable {kind : TokenKind} {bs : List UInt8} {b : UInt8}

theorem Admits.visible (h : Admits kind bs) : ∀ b ∈ bs, IsVisible b := by
  intro b found
  cases h with
  | word letters =>
    have := code_of_isLetter (letters.all b found)
    exact isVisible_iff_code.2 (by omega)
  | number digits =>
    have := code_of_isDigit (digits.all b found)
    exact isVisible_iff_code.2 (by omega)
  | sign among spelled => exact visible_of_mem_signs _ among _ spelled b found
  | stray alone =>
    obtain rfl := List.mem_singleton.1 found
    exact alone.visible

theorem Admits.ne_nil (h : Admits kind bs) : bs ≠ [] := by
  cases h with
  | word letters => exact letters.nonempty
  | number digits => exact digits.nonempty
  | sign among spelled =>
    rcases sign_cases _ among _ spelled with ⟨b, found, -⟩ | ⟨b, found, -⟩
    · exact List.ne_nil_of_mem found
    · exact List.ne_nil_of_mem found
  | stray alone => exact List.cons_ne_nil _ _

theorem Admits.word_of_head (h : Admits kind bs) (head : b ∈ bs.head?) (letter : isLetter b) :
    Text.IsRun isLetter bs := by
  cases h with
  | word letters => exact letters
  | number digits =>
    have := not_isLetter_of_isDigit (digits.all b (List.mem_of_mem_head? head))
    simp [letter] at this
  | sign among spelled =>
    have := (head_of_mem_signs _ among _ spelled b head).1
    simp [letter] at this
  | stray alone =>
    obtain rfl := Option.some.inj head
    simp [alone.letter] at letter

theorem Admits.number_of_head (h : Admits kind bs) (head : b ∈ bs.head?) (digit : isDigit b) :
    Text.IsRun isDigit bs := by
  cases h with
  | word letters =>
    have := not_isLetter_of_isDigit digit
    simp [letters.all b (List.mem_of_mem_head? head)] at this
  | number digits => exact digits
  | sign among spelled =>
    have := (head_of_mem_signs _ among _ spelled b head).2
    simp [digit] at this
  | stray alone =>
    obtain rfl := Option.some.inj head
    simp [alone.digit] at digit

theorem IsStray.symbol? (h : IsStray b) : symbol? b = none := by
  by_contra found
  obtain ⟨kind, spelled⟩ := Option.ne_none_iff_exists'.1 found
  obtain ⟨among, text, fixed, same⟩ := Lexeme.mem_spelling?_of_symbol? spelled
  exact h.sign kind among text fixed (by simp [← same])

theorem IsStray.operator? (h : IsStray b) (c : UInt8) : operator? b c = none := by
  by_contra found
  obtain ⟨kind, spelled⟩ := Option.ne_none_iff_exists'.1 found
  obtain ⟨among, text, fixed, same⟩ := Lexeme.mem_spelling?_of_operator? spelled
  exact h.sign kind among text fixed (by simp [← same])

theorem Stops.alone {next : Option UInt8} (h : Stops [b] next) :
    ∀ c ∈ next, Scriptlet.operator? b c = none := by
  intro c head
  by_contra found
  obtain ⟨kind, spelled⟩ := Option.ne_none_iff_exists'.1 found
  obtain ⟨second, first | first⟩ := operator?_spelling spelled
  · have same : [b] = Text.bytes "=" := congrArg ([·]) (UInt8.toNat_inj.1 first)
    exact h.sign (.inl same) c head (UInt8.toNat_inj.1 second)
  · have same : [b] = Text.bytes "!" := congrArg ([·]) (UInt8.toNat_inj.1 first)
    exact h.sign (.inr same) c head (UInt8.toNat_inj.1 second)

theorem Admits.opens {rest : List UInt8} (h : Admits kind bs) (stops : Stops bs rest.head?) :
    Lexeme.Opens (bs ++ rest) ⟨kind, bs⟩ rest := by
  cases h with
  | word letters => exact .word letters.nonempty letters.all (stops.word letters)
  | number digits => exact .number digits.nonempty digits.all (stops.number digits)
  | @sign kind text among spelled =>
    rcases sign_cases _ among _ spelled with
      ⟨b, -, c, -, same, two⟩ | ⟨b, -, same, one, nonzero, letter, digit⟩
    · rw [same]
      exact .operator two
    · rw [same] at stops ⊢
      have own : Lexeme.symbol b = ⟨kind, [b]⟩ := by rw [Lexeme.symbol, one]; rfl
      rw [← own]
      exact .symbol nonzero letter digit stops.alone
  | @stray b alone =>
    have own : Lexeme.symbol b = ⟨.illegal, [b]⟩ := by rw [Lexeme.symbol, alone.symbol?]; rfl
    rw [← own]
    exact .symbol alone.visible.1 alone.letter alone.digit fun c _ => alone.operator? c

end

end TokenKind

/-- A lexeme and the blanks that are written behind it. -/
structure Piece where
  kind : TokenKind
  text : String
  gap : String
  ascii : ∀ b ∈ Text.bytes text, b.toNat < 128
  admitted : kind.Admits (Text.bytes text)
  blank : ∀ b ∈ Text.bytes gap, isBlank b

namespace Piece

/-- Without a gap the two would be read as other tokens. -/
def Clings (p q : Piece) : Prop :=
  Text.IsRun isLetter (Text.bytes p.text) ∧ Text.IsRun isLetter (Text.bytes q.text) ∨
  Text.IsRun isDigit (Text.bytes p.text) ∧ Text.IsRun isDigit (Text.bytes q.text) ∨
  (p.text = "=" ∨ p.text = "!") ∧ '='.toUInt8 ∈ (Text.bytes q.text).head?

def Apart (p q : Piece) : Prop :=
  p.Clings q → p.gap ≠ ""

instance (p q : Piece) : Decidable (p.Apart q) :=
  inferInstanceAs (Decidable (_ ∨ _ ∨ _ → _))

def print : List Piece → String
  | [] => ""
  | p :: rest => p.text ++ (p.gap ++ print rest)

/-- What should be read where the first of the pieces begins at an offset. -/
def readings : Nat → List Piece → List (TokenKind × String × Nat × Nat)
  | offset, [] => [(.endOfInput, "", offset, offset)]
  | offset, p :: rest =>
    let stop := offset + (Text.bytes p.text).length
    (p.kind, p.text, offset, stop) :: readings (stop + (Text.bytes p.gap).length) rest

section
variable {p : Piece} {rest : List Piece}

theorem stops (apart : (p :: rest).IsChain Apart) :
    TokenKind.Stops (Text.bytes p.text) (Text.bytes (p.gap ++ print rest)).head? := by
  rw [Text.bytes_append]
  cases gap : Text.bytes p.gap with
  | cons b bs => exact .of_seam (.of_blank (p.blank b (gap ▸ List.mem_cons_self)))
  | nil =>
    have touching : p.gap = "" := Text.eq_of_bytes_eq gap
    cases rest with
    | nil => exact .of_none _
    | cons q rest =>
      have head : (Text.bytes (print (q :: rest))).head? = (Text.bytes q.text).head? := by
        rw [print, Text.bytes_append, List.head?_append_of_ne_nil _ q.admitted.ne_nil]
      have free : ¬p.Clings q := fun clings => (List.isChain_cons_cons.1 apart).1 clings touching
      rw [List.nil_append, head]
      constructor
      · intro word b next
        apply Bool.eq_false_iff.2
        intro letter
        exact free (.inl ⟨word, q.admitted.word_of_head next letter⟩)
      · intro number b next
        apply Bool.eq_false_iff.2
        intro digit
        exact free (.inr (.inl ⟨number, q.admitted.number_of_head next digit⟩))
      · rintro sign b next rfl
        exact free (.inr (.inr ⟨sign.imp Text.eq_of_bytes_eq Text.eq_of_bytes_eq, next⟩))

end

end Piece

def Token.reading (t : Token) : TokenKind × String × Nat × Nat :=
  (t.kind, t.literal, t.start, t.stop)

theorem Layout.exists_of_print {gap : String} (blank : ∀ b ∈ Text.bytes gap, isBlank b)
    {pieces : List Piece} (apart : pieces.IsChain Piece.Apart) {start : Nat}
    (small : start + (Text.bytes (gap ++ Piece.print pieces)).length < UInt32.size) :
    ∃ tokens, Layout start (Text.bytes (gap ++ Piece.print pieces)) tokens ∧
      tokens.map Token.reading = Piece.readings (start + (Text.bytes gap).length) pieces := by
  induction pieces generalizing gap start with
  | nil =>
    simp only [Piece.print, Text.bytes_append, Text.bytes_empty, List.append_nil] at small ⊢
    have layout := @Layout.ending start _ [] blank (by simp)
    have span := @Token.span_ending (start + (Text.bytes gap).length) (by omega)
    rw [List.append_nil] at layout
    refine ⟨_, layout, ?_⟩
    rw [List.map_singleton, Token.reading, span.1, span.2]
    rfl
  | cons p rest ih =>
    rw [Piece.print, Text.bytes_append, Text.bytes_append, List.length_append,
      List.length_append] at small
    obtain ⟨tokens, more, readings⟩ := @ih p.gap p.blank apart.tail
      (start + (Text.bytes gap).length + (Text.bytes p.text).length) (by omega)
    have opens := p.admitted.opens (Piece.stops apart)
    have layout := @Layout.token start _ _ ⟨p.kind, Text.bytes p.text⟩ _ blank
      p.admitted.visible opens more
    have span := @Token.span_ofLexeme (start + (Text.bytes gap).length)
      ⟨p.kind, Text.bytes p.text⟩ (by simp only; omega)
    rw [Piece.print, Text.bytes_append, Text.bytes_append]
    refine ⟨_, layout, ?_⟩
    rw [List.map_cons, readings, Token.reading, span.1, span.2, Piece.readings]
    simp only [Token.ofLexeme, Text.ofCodes_bytes p.ascii]

/-- Lexemes that are written one behind the other are read back one by one, each
as the kind that it has and where it was written. -/
theorem tokenize_print (gap : String) (pieces : List Piece)
    (blank : ∀ b ∈ Text.bytes gap, isBlank b) (apart : pieces.IsChain Piece.Apart)
    (short : (Text.bytes (gap ++ Piece.print pieces)).length < UInt32.size) :
    (tokenize (gap ++ Piece.print pieces)).map Token.reading =
      Piece.readings (Text.bytes gap).length pieces := by
  obtain ⟨tokens, layout, readings⟩ := Layout.exists_of_print blank apart (by rwa [Nat.zero_add])
  have read : tokenize (gap ++ Piece.print pieces) = tokens := Cursor.tokens_of_layout layout
  rw [read, readings, Nat.zero_add]

theorem tokenize_print_touching : ∃ pieces : List Piece, pieces.IsChain Piece.Apart ∧
    "\t" ++ Piece.print pieces = "\tlet1=== =#\n" ∧
    (tokenize ("\t" ++ Piece.print pieces)).map Token.reading =
      [(.letWord, "let", 1, 4), (.integer, "1", 4, 5), (.equal, "==", 5, 7), (.assign, "=", 7, 8),
       (.assign, "=", 9, 10), (.illegal, "#", 10, 11), (.endOfInput, "", 12, 12)] := by
  let pieces : List Piece :=
    [⟨.letWord, "let", "", by decide +kernel, @TokenKind.Admits.word (Text.bytes "let") (by decide),
       by simp⟩,
     ⟨.integer, "1", "", by decide +kernel, .number (by decide), by simp⟩,
     ⟨.equal, "==", "", by decide +kernel, .sign (by decide) rfl, by simp⟩,
     ⟨.assign, "=", " ", by decide +kernel, .sign (by decide) rfl, by decide +kernel⟩,
     ⟨.assign, "=", "", by decide +kernel, .sign (by decide) rfl, by simp⟩,
     ⟨.illegal, "#", "\n", by decide +kernel,
       .stray ⟨⟨by decide, by decide⟩, by decide, by decide, by decide +kernel⟩,
       by decide +kernel⟩]
  have apart : pieces.IsChain Piece.Apart := by decide
  exact ⟨pieces, apart, by decide, tokenize_print "\t" pieces (by decide +kernel) apart (by decide)⟩

end Scriptlet
