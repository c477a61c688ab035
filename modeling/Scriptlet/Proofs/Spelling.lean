import Scriptlet.Proofs.Coverage

/-!
What the tokens of each kind look like. An operator, a delimiter and a reserved
word have one spelling, any other word and a number are runs of their bytes, and
an illegal token is a single byte that begins none of these. No token stops
before a byte that it could have taken.
-/

namespace Scriptlet

namespace Text

theorem ofCodes_bytes {text : String} (ascii : ∀ b ∈ bytes text, b.toNat < 128) :
    ofCodes (bytes text) = text :=
  eq_of_bytes_eq (bytes_ofCodes ascii)

structure IsRun (p : UInt8 → Bool) (bs : List UInt8) : Prop where
  nonempty : bs ≠ []
  all : ∀ b ∈ bs, p b

theorem ascii_of_isLetter {bs : List UInt8} (h : ∀ b ∈ bs, isLetter b) :
    ∀ b ∈ bs, b.toNat < 128 := by
  intro b found
  have := code_of_isLetter (h b found)
  omega

theorem ascii_of_isDigit {bs : List UInt8} (h : ∀ b ∈ bs, isDigit b) :
    ∀ b ∈ bs, b.toNat < 128 := by
  intro b found
  have := code_of_isDigit (h b found)
  omega

end Text

namespace TokenKind

/-- The text of all tokens of a kind, where it is always the same. -/
def spelling? : TokenKind → Option String
  | illegal | identifier | integer => none
  | endOfInput => some ""
  | assign => some "="
  | plus => some "+"
  | minus => some "-"
  | bang => some "!"
  | asterisk => some "*"
  | slash => some "/"
  | less => some "<"
  | greater => some ">"
  | equal => some "=="
  | notEqual => some "!="
  | comma => some ","
  | semicolon => some ";"
  | leftParen => some "("
  | rightParen => some ")"
  | leftBrace => some "\x7b"
  | rightBrace => some "\x7d"
  | functionWord => some "fn"
  | letWord => some "let"
  | trueWord => some "true"
  | falseWord => some "false"
  | ifWord => some "if"
  | elseWord => some "else"
  | returnWord => some "return"

def signs : List TokenKind :=
  [assign, plus, minus, bang, asterisk, slash, less, greater, equal, notEqual, comma, semicolon,
   leftParen, rightParen, leftBrace, rightBrace]

def isWord (kind : TokenKind) : Bool :=
  kind == identifier || (reserved.map Prod.snd).contains kind

theorem spelling?_of_reserved : ∀ entry ∈ reserved, entry.2.spelling? = some entry.1 := by
  decide

theorem ofCodes_spelling (kind : TokenKind) :
    ∀ text ∈ kind.spelling?, Text.ofCodes (Text.bytes text) = text := by
  cases kind <;> decide

theorem isWord_of_mem_signs : ∀ kind ∈ signs, kind.isWord = false := by
  decide

theorem ofWord_cases (word : String) :
    ofWord word = identifier ∧ word ∉ reserved.map Prod.fst ∨ (word, ofWord word) ∈ reserved := by
  cases found : reserved.lookup word with
  | none =>
    left
    constructor
    · rw [ofWord, found]
      rfl
    · intro member
      obtain ⟨entry, among, rfl⟩ := List.mem_map.1 member
      simpa using List.lookup_eq_none_iff.1 found entry among
  | some kind =>
    right
    obtain ⟨before, after, split, -⟩ := List.lookup_eq_some_iff.1 found
    have same : ofWord word = kind := by
      rw [ofWord, found]
      rfl
    rw [same, split]
    exact List.mem_append_right before List.mem_cons_self

theorem ofWord_of_free {word : String} (free : word ∉ reserved.map Prod.fst) :
    ofWord word = identifier := by
  rcases ofWord_cases word with ⟨same, -⟩ | member
  · exact same
  · exact absurd (List.mem_map_of_mem member) free

theorem isWord_ofWord (word : String) : (ofWord word).isWord := by
  rcases ofWord_cases word with ⟨free, -⟩ | member
  · rw [free]
    rfl
  · have : ofWord word ∈ reserved.map Prod.snd := List.mem_map_of_mem member
    simp [isWord, this]

/-- A byte that shows and begins no word, no number and no operator or delimiter. -/
structure IsStray (b : UInt8) : Prop where
  visible : IsVisible b
  letter : isLetter b = false
  digit : isDigit b = false
  sign : ∀ kind ∈ signs, ∀ text ∈ kind.spelling?, b ∉ (Text.bytes text).head?

/-- The bytes that a token of a kind may be written with. -/
inductive Admits : TokenKind → List UInt8 → Prop
  | word {text : List UInt8} (letters : Text.IsRun isLetter text) :
      Admits (ofWord (Text.ofCodes text)) text
  | number {text : List UInt8} (digits : Text.IsRun isDigit text) : Admits integer text
  | sign {kind : TokenKind} {text : String} (among : kind ∈ signs)
      (spelled : text ∈ kind.spelling?) :
      Admits kind (Text.bytes text)
  | stray {b : UInt8} (alone : IsStray b) : Admits illegal [b]

theorem Admits.eq_spelling {kind : TokenKind} {bs : List UInt8} (h : Admits kind bs)
    (text : String) (fixed : text ∈ kind.spelling?) : bs = Text.bytes text := by
  cases h with
  | @word bs letters =>
    rcases ofWord_cases (Text.ofCodes bs) with ⟨free, -⟩ | member
    · simp [free, spelling?] at fixed
    · have spelled : (ofWord (Text.ofCodes bs)).spelling? = some (Text.ofCodes bs) :=
        spelling?_of_reserved _ member
      obtain rfl : Text.ofCodes bs = text := Option.some.inj (spelled.symm.trans fixed)
      rw [Text.bytes_ofCodes (Text.ascii_of_isLetter letters.all)]
  | number digits => simp [spelling?] at fixed
  | sign among spelled => rw [Option.some.inj (spelled.symm.trans fixed)]
  | stray alone => simp [spelling?] at fixed

theorem ofWord_ne {word : String} {kind : TokenKind} (other : kind.isWord = false) :
    ofWord word ≠ kind := by
  rintro rfl
  simp [isWord_ofWord] at other

section
variable {kind : TokenKind} {bs : List UInt8}

theorem Admits.of_identifier (h : Admits kind bs) (same : kind = identifier) :
    Text.IsRun isLetter bs ∧ Text.ofCodes bs ∉ reserved.map Prod.fst := by
  cases h with
  | word letters =>
    rcases ofWord_cases (Text.ofCodes bs) with ⟨-, free⟩ | member
    · exact ⟨letters, free⟩
    · have := spelling?_of_reserved _ member
      simp [same, spelling?] at this
  | number digits => simp at same
  | sign among spelled => exact absurd (same ▸ among) (by decide)
  | stray alone => simp at same

theorem Admits.of_integer (h : Admits kind bs) (same : kind = integer) :
    Text.IsRun isDigit bs := by
  cases h with
  | word letters => exact absurd same (ofWord_ne (by decide))
  | number digits => exact digits
  | sign among spelled => exact absurd (same ▸ among) (by decide)
  | stray alone => simp at same

theorem Admits.of_illegal (h : Admits kind bs) (same : kind = illegal) :
    ∃ b, bs = [b] ∧ IsStray b := by
  cases h with
  | word letters => exact absurd same (ofWord_ne (by decide))
  | number digits => simp at same
  | sign among spelled => exact absurd (same ▸ among) (by decide)
  | stray alone => exact ⟨_, rfl, alone⟩

end

end TokenKind

namespace Lexeme

theorem eq_of_ofUInt8 {b : UInt8} {c : Char} (h : Char.ofUInt8 b = c) : b = c.toUInt8 := by
  rw [← h]
  exact b.toUInt8_toUInt32.symm

theorem mem_spelling?_of_operator? {b c : UInt8} {kind : TokenKind}
    (h : operator? b c = some kind) :
    kind ∈ TokenKind.signs ∧ ∃ text ∈ kind.spelling?, [b, c] = Text.bytes text := by
  rw [operator?] at h
  split at h
  · next first second =>
    obtain rfl := Option.some.inj h
    rw [eq_of_ofUInt8 first, eq_of_ofUInt8 second]
    exact ⟨by decide, "==", by decide, by decide⟩
  · next first second =>
    obtain rfl := Option.some.inj h
    rw [eq_of_ofUInt8 first, eq_of_ofUInt8 second]
    exact ⟨by decide, "!=", by decide, by decide⟩
  · simp at h

theorem mem_spelling?_of_symbol? {b : UInt8} {kind : TokenKind} (h : symbol? b = some kind) :
    kind ∈ TokenKind.signs ∧ ∃ text ∈ kind.spelling?, [b] = Text.bytes text := by
  have alone {c : Char} {k : TokenKind} (shown : Char.ofUInt8 b = c)
      (spelled : k ∈ TokenKind.signs ∧ k.spelling? = some (String.singleton c) ∧
        [c.toUInt8] = Text.bytes (String.singleton c)) (same : some k = some kind) :
      kind ∈ TokenKind.signs ∧ ∃ text ∈ kind.spelling?, [b] = Text.bytes text := by
    obtain rfl := Option.some.inj same
    rw [eq_of_ofUInt8 shown]
    exact ⟨spelled.1, _, spelled.2⟩
  rw [symbol?] at h
  split at h
  case h_15 => simp at h
  all_goals
    next shown => exact alone shown (by decide) h

theorem symbol?_of_head : ∀ kind ∈ TokenKind.signs, ∀ text ∈ kind.spelling?,
    ∀ b ∈ (Text.bytes text).head?, (symbol? b).isSome := by
  decide +kernel

theorem symbol_cases (b : UInt8) : (symbol b).kind = .illegal ∧ symbol? b = none ∨
    (symbol b).kind ∈ TokenKind.signs ∧
      ∃ text ∈ (symbol b).kind.spelling?, [b] = Text.bytes text := by
  cases found : symbol? b with
  | none =>
    left
    rw [symbol, found]
    exact ⟨rfl, rfl⟩
  | some kind =>
    right
    rw [symbol, found]
    exact mem_spelling?_of_symbol? found

theorem admits_symbol {b : UInt8} (visible : IsVisible b) (letter : isLetter b = false)
    (digit : isDigit b = false) : TokenKind.Admits (symbol b).kind [b] := by
  rcases symbol_cases b with ⟨illegal, none⟩ | ⟨among, text, fixed, same⟩
  · rw [illegal]
    refine .stray ⟨visible, letter, digit, fun kind among text fixed head => ?_⟩
    have := symbol?_of_head kind among text fixed b head
    simp [none] at this
  · rw [same]
    exact .sign among fixed

section
variable {input rest : List UInt8} {lexeme : Lexeme}

theorem Opens.admits (h : Opens input lexeme rest) (visible : ∀ b ∈ lexeme.text, IsVisible b) :
    TokenKind.Admits lexeme.kind lexeme.text := by
  cases h with
  | word some letters stops => exact .word ⟨some, letters⟩
  | number some digits stops => exact .number ⟨some, digits⟩
  | @operator b c rest kind spelled =>
    obtain ⟨among, text, fixed, same⟩ := mem_spelling?_of_operator? spelled
    change TokenKind.Admits kind [b, c]
    rw [same]
    exact .sign among fixed
  | symbol nonzero letter digit alone =>
    exact admits_symbol (visible _ List.mem_cons_self) letter digit

theorem Opens.word_stops (h : Opens input lexeme rest) (word : lexeme.kind.isWord) :
    ∀ b ∈ rest.head?, isLetter b = false := by
  cases h with
  | word some letters stops => exact stops
  | number some digits stops => simp [TokenKind.isWord, TokenKind.reserved] at word
  | operator spelled =>
    have sign := TokenKind.isWord_of_mem_signs _ (mem_spelling?_of_operator? spelled).1
    simp [sign] at word
  | @symbol b rest nonzero letter digit alone =>
    rcases symbol_cases b with ⟨illegal, -⟩ | ⟨among, -⟩
    · rw [illegal] at word
      exact absurd word (by decide)
    · simp [TokenKind.isWord_of_mem_signs _ among] at word

theorem Opens.integer_stops (h : Opens input lexeme rest) (integer : lexeme.kind = .integer) :
    ∀ b ∈ rest.head?, isDigit b = false := by
  have other : TokenKind.integer ∉ TokenKind.signs := by decide
  cases h with
  | @word text rest some letters stops =>
    have word := TokenKind.isWord_ofWord (Text.ofCodes text)
    change TokenKind.ofWord (Text.ofCodes text) = .integer at integer
    rw [integer] at word
    exact absurd word (by decide)
  | number some digits stops => exact stops
  | @operator b c rest kind spelled =>
    obtain rfl : kind = .integer := integer
    exact absurd (mem_spelling?_of_operator? spelled).1 other
  | @symbol b rest nonzero letter digit alone =>
    rcases symbol_cases b with ⟨illegal, -⟩ | ⟨among, -⟩
    · simp [integer] at illegal
    · exact absurd (integer ▸ among) other

theorem Opens.sign_stops (h : Opens input lexeme rest) (visible : ∀ b ∈ lexeme.text, IsVisible b)
    (sign : lexeme.kind = .assign ∨ lexeme.kind = .bang) :
    ∀ b ∈ rest.head?, b ≠ '='.toUInt8 := by
  obtain ⟨b, text, letter, digit, greedy⟩ : ∃ b, lexeme.text = [b] ∧ isLetter b = false ∧
      isDigit b = false ∧ operator? b '='.toUInt8 ≠ none := by
    have admits := h.admits visible
    rcases sign with same | same
    · rw [same] at admits
      exact ⟨'='.toUInt8, admits.eq_spelling "=" rfl, by decide⟩
    · rw [same] at admits
      exact ⟨'!'.toUInt8, admits.eq_spelling "!" rfl, by decide⟩
  cases h with
  | @word bs rest some letters stops =>
    obtain rfl : bs = [b] := text
    simp [letters b List.mem_cons_self] at letter
  | @number bs rest some digits stops =>
    obtain rfl : bs = [b] := text
    simp [digits b List.mem_cons_self] at digit
  | operator spelled => simp at text
  | symbol nonzero _ _ alone =>
    obtain rfl := List.singleton_inj.1 text
    rintro c head rfl
    exact greedy (alone _ head)

end

end Lexeme

namespace Token

/-- A token other than the end of input, the lexeme that it shows and what follows it. -/
structure CutFrom (t : Token) (source : List UInt8) (lexeme : Lexeme) (rest : List UInt8) :
    Prop where
  kind : t.kind = lexeme.kind
  literal : t.literal = Text.ofCodes lexeme.text
  here : source.drop t.start = lexeme.text ++ rest
  stop : t.stop = t.start + lexeme.text.length
  visible : ∀ b ∈ lexeme.text, IsVisible b
  opens : Lexeme.Opens (lexeme.text ++ rest) lexeme rest

/-- What the kind of a token says about its text and about the byte that follows. -/
structure Classified (t : Token) (source : List UInt8) : Prop where
  fixed : ∀ text ∈ t.kind.spelling?, t.literal = text
  identifier : t.kind = .identifier → Text.IsRun isLetter (Text.bytes t.literal) ∧
    t.literal ∉ TokenKind.reserved.map Prod.fst
  integer : t.kind = .integer → Text.IsRun isDigit (Text.bytes t.literal)
  illegal : t.kind = .illegal →
    t.stop = t.start + 1 ∧ ∃ b, source[t.start]? = some b ∧ TokenKind.IsStray b
  word_stops : t.kind.isWord → ∀ b ∈ source[t.stop]?, isLetter b = false
  integer_stops : t.kind = .integer → ∀ b ∈ source[t.stop]?, isDigit b = false
  sign_stops : t.kind = .assign ∨ t.kind = .bang → ∀ b ∈ source[t.stop]?, b ≠ '='.toUInt8

section
variable {t : Token} {source rest : List UInt8} {lexeme : Lexeme}

theorem CutFrom.next (h : t.CutFrom source lexeme rest) : source[t.stop]? = rest.head? := by
  have behind : source.drop t.stop = rest := by
    rw [h.stop, ← List.drop_drop, h.here, List.drop_left]
  rw [← behind, List.head?_drop]

theorem CutFrom.admits (h : t.CutFrom source lexeme rest) : t.kind.Admits lexeme.text :=
  h.kind ▸ h.opens.admits h.visible

theorem CutFrom.classified (h : t.CutFrom source lexeme rest) : t.Classified source where
  fixed := by
    intro text spelled
    rw [h.literal, h.admits.eq_spelling text spelled]
    exact t.kind.ofCodes_spelling text spelled
  identifier := by
    intro same
    obtain ⟨letters, free⟩ := h.admits.of_identifier same
    rw [h.literal, Text.bytes_ofCodes (Text.ascii_of_isLetter letters.all)]
    exact ⟨letters, free⟩
  integer := by
    intro same
    have digits := h.admits.of_integer same
    rw [h.literal, Text.bytes_ofCodes (Text.ascii_of_isDigit digits.all)]
    exact digits
  illegal := by
    intro same
    obtain ⟨b, text, stray⟩ := h.admits.of_illegal same
    have here := h.here
    rw [text] at here
    refine ⟨by rw [h.stop, text]; rfl, b, ?_, stray⟩
    rw [← List.head?_drop, here]
    rfl
  word_stops := by
    rw [h.next, h.kind]
    exact h.opens.word_stops
  integer_stops := by
    rw [h.next, h.kind]
    exact h.opens.integer_stops
  sign_stops := by
    rw [h.next, h.kind]
    exact h.opens.sign_stops h.visible

theorem classified_of_end (ended : t.kind = .endOfInput) (literal : t.literal = "") :
    t.Classified source := by
  constructor
  case fixed =>
    intro text spelled
    rw [ended] at spelled
    rw [literal]
    exact Option.some.inj spelled
  all_goals simp [ended, TokenKind.isWord, TokenKind.reserved]

end

end Token

theorem Layout.cut {start : Nat} {input source : List UInt8} {tokens : List Token}
    (h : Layout start input tokens) (small : start + input.length < UInt32.size)
    (here : source.drop start = input) : ∀ t ∈ tokens, t.kind = .endOfInput ∧ t.literal = "" ∨
      ∃ lexeme rest, t.CutFrom source lexeme rest := by
  induction h with
  | ending =>
    intro t found
    obtain rfl := List.mem_singleton.1 found
    exact .inl ⟨rfl, rfl⟩
  | @token start gap rest lexeme tokens blank visible opens more ih =>
    simp only [List.length_append] at small
    have text := (extract_of_drop here).2
    have behind := (extract_of_drop text).2
    intro t found
    rcases List.mem_cons.1 found with rfl | found
    · have span := @Token.span_ofLexeme (start + gap.length) lexeme (by omega)
      refine .inr ⟨lexeme, rest, rfl, rfl, ?_, ?_, visible, opens⟩
      · rw [span.1, text]
      · rw [span.1, span.2]
    · exact ih (by omega) behind t found

inductive Token.Spelled (t : Token) : Prop
  | ending (ended : t.kind = .endOfInput) (literal : t.literal = "") : Spelled t
  | lexeme {text : List UInt8} (admits : t.kind.Admits text)
      (literal : t.literal = Text.ofCodes text) : Spelled t

theorem Token.Spelled.literal_eq {t : Token} (h : t.Spelled) {text : String}
    (fixed : text ∈ t.kind.spelling?) : t.literal = text := by
  cases h with
  | ending ended literal =>
    rw [ended] at fixed
    rw [literal]
    exact Option.some.inj fixed
  | lexeme admits literal =>
    rw [literal, admits.eq_spelling text fixed]
    exact t.kind.ofCodes_spelling text fixed

theorem Layout.spelled {start : Nat} {input : List UInt8} {tokens : List Token}
    (h : Layout start input tokens) : ∀ t ∈ tokens, t.Spelled := by
  induction h with
  | ending => exact List.forall_mem_singleton.2 (.ending rfl rfl)
  | token blank visible opens more ih =>
    exact List.forall_mem_cons.2 ⟨.lexeme (opens.admits visible) rfl, ih⟩

theorem tokenize_spelled (source : String) : ∀ t ∈ tokenize source, t.Spelled :=
  (Cursor.layout_tokenize source).spelled

/-- Every token is what its kind says and takes all that it can: no word is followed by a
letter, no number by a digit and neither of the two signs that could be longer by an equals sign. -/
theorem tokenize_classified (source : String) (short : (Text.bytes source).length < UInt32.size) :
    ∀ t ∈ tokenize source, t.Classified (Text.bytes source) := by
  intro t found
  have layout := Cursor.layout_tokenize source
  rcases layout.cut (by omega) rfl t found with ⟨ended, literal⟩ | ⟨lexeme, rest, cut⟩
  · exact Token.classified_of_end ended literal
  · exact cut.classified

theorem tokenize_classified_accent : (Text.bytes "leté1").length < UInt32.size ∧
    ∃ t ∈ tokenize "leté1", t.kind = .illegal ∧ t.Classified (Text.bytes "leté1") := by
  have found : (tokenize "leté1")[1]? = some ⟨.illegal, "Ã", ⟨3, 4⟩⟩ := by decide +kernel
  have member := List.mem_of_getElem? found
  exact ⟨by decide, _, member, rfl, tokenize_classified "leté1" (by decide) _ member⟩

end Scriptlet
