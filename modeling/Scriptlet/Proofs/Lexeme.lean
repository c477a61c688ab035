import Mathlib.Data.List.TakeWhile
import Scriptlet.Token.Lexeme

/-!
What reading a lexeme comes to. An input opens with a lexeme in one of four
ways, one for each class of first byte, and a word or a number goes as far as
its bytes do. Every lexeme is plain ASCII, unless it is one byte that begins
nothing, and no byte of it is NUL.
-/

namespace Scriptlet

theorem code_of_isLetter {b : UInt8} (h : isLetter b) :
    (97 ≤ b.toNat ∧ b.toNat ≤ 122) ∨ (65 ≤ b.toNat ∧ b.toNat ≤ 90) ∨ b.toNat = 95 := by
  simp only [isLetter, Bool.or_eq_true, Bool.and_eq_true, decide_eq_true_eq, beq_iff_eq,
    UInt8.le_iff_toNat_le] at h
  rcases h with (⟨low, high⟩ | ⟨low, high⟩) | rfl
  · exact .inl ⟨low, high⟩
  · exact .inr (.inl ⟨low, high⟩)
  · exact .inr (.inr rfl)

theorem code_of_isDigit {b : UInt8} (h : isDigit b) : 48 ≤ b.toNat ∧ b.toNat ≤ 57 := by
  simp only [isDigit, Bool.and_eq_true, decide_eq_true_eq, UInt8.le_iff_toNat_le] at h
  exact h

theorem isBlank_iff_code {b : UInt8} :
    isBlank b ↔ b.toNat = 32 ∨ b.toNat = 9 ∨ b.toNat = 10 ∨ b.toNat = 13 := by
  simp [isBlank, ← UInt8.toNat_inj, Char.toUInt8, or_assoc]

theorem not_isLetter_of_isDigit {b : UInt8} (h : isDigit b) : isLetter b = false := by
  apply Bool.eq_false_iff.2
  intro letter
  have := code_of_isLetter letter
  have := code_of_isDigit h
  omega

theorem not_isLetter_of_isBlank {b : UInt8} (h : isBlank b) : isLetter b = false := by
  apply Bool.eq_false_iff.2
  intro letter
  have := code_of_isLetter letter
  have := isBlank_iff_code.1 h
  omega

theorem not_isDigit_of_isBlank {b : UInt8} (h : isBlank b) : isDigit b = false := by
  apply Bool.eq_false_iff.2
  intro digit
  have := code_of_isDigit digit
  have := isBlank_iff_code.1 h
  omega

theorem operator?_spelling {b c : UInt8} {kind : TokenKind} (h : operator? b c = some kind) :
    c.toNat = 61 ∧ (b.toNat = 61 ∨ b.toNat = 33) := by
  have code {a : UInt8} {shown : Char} (same : Char.ofUInt8 a = shown) :
      a.toNat = shown.toNat := by
    subst same
    rfl
  rw [operator?] at h
  split at h
  · next first second => exact ⟨code second, .inl (code first)⟩
  · next first second => exact ⟨code second, .inr (code first)⟩
  · simp at h

theorem operator?_begins {b c : UInt8} {kind : TokenKind} (h : operator? b c = some kind) :
    b ≠ 0 ∧ ¬isLetter b ∧ ¬isDigit b := by
  have := operator?_spelling h
  refine ⟨?_, fun letter => ?_, fun digit => ?_⟩
  · rintro rfl
    exact absurd this.2 (by decide)
  · have := code_of_isLetter letter
    omega
  · have := code_of_isDigit digit
    omega

/-- A byte that no lexeme begun before it goes on with. -/
structure IsSeam (b : UInt8) : Prop where
  letter : isLetter b = false
  digit : isDigit b = false
  sign : b ≠ '='.toUInt8

theorem IsSeam.of_blank {b : UInt8} (h : isBlank b) : IsSeam b where
  letter := not_isLetter_of_isBlank h
  digit := not_isDigit_of_isBlank h
  sign := by
    rintro rfl
    exact absurd h (by decide)

theorem IsSeam.zero : IsSeam 0 where
  letter := by decide
  digit := by decide
  sign := by decide

theorem IsSeam.operator? {b c : UInt8} (h : IsSeam c) : operator? b c = none := by
  by_contra found
  obtain ⟨kind, spelled⟩ := Option.ne_none_iff_exists'.1 found
  exact h.sign (UInt8.toNat_inj.1 (operator?_spelling spelled).1)

theorem ne_zero_of_pos {b : UInt8} (h : 0 < b.toNat) : b ≠ 0 := by
  rintro rfl
  exact absurd h (by decide)

/-- A byte that shows: neither a blank nor the one that ends the input. -/
def IsVisible (b : UInt8) : Prop :=
  b ≠ 0 ∧ isBlank b = false

theorem isVisible_iff_code {b : UInt8} : IsVisible b ↔
    b.toNat ≠ 0 ∧ b.toNat ≠ 32 ∧ b.toNat ≠ 9 ∧ b.toNat ≠ 10 ∧ b.toNat ≠ 13 := by
  simp [IsVisible, ← Bool.not_eq_true, isBlank_iff_code, ← UInt8.toNat_inj]

theorem splitWhile_append {p : UInt8 → Bool} {run rest : List UInt8} (all : ∀ a ∈ run, p a)
    (stops : ∀ a ∈ rest.head?, p a = false) :
    (run ++ rest).takeWhile p = run ∧ (run ++ rest).dropWhile p = rest := by
  rw [List.takeWhile_append_of_pos all, List.dropWhile_append_of_pos all]
  cases rest with
  | nil => simp
  | cons c rest => simp [stops c rfl]

namespace Lexeme

/-- An input that opens with a lexeme, and what follows it. -/
inductive Opens : List UInt8 → Lexeme → List UInt8 → Prop
  | word {text rest : List UInt8} (some : text ≠ []) (letters : ∀ b ∈ text, isLetter b)
      (stops : ∀ b ∈ rest.head?, isLetter b = false) : Opens (text ++ rest) (word text) rest
  | number {text rest : List UInt8} (some : text ≠ []) (digits : ∀ b ∈ text, isDigit b)
      (stops : ∀ b ∈ rest.head?, isDigit b = false) :
      Opens (text ++ rest) ⟨.integer, text⟩ rest
  | operator {b c : UInt8} {rest : List UInt8} {kind : TokenKind}
      (spelled : operator? b c = some kind) : Opens (b :: c :: rest) ⟨kind, [b, c]⟩ rest
  | symbol {b : UInt8} {rest : List UInt8} (visible : b ≠ 0) (letter : isLetter b = false)
      (digit : isDigit b = false) (alone : ∀ c ∈ rest.head?, operator? b c = none) :
      Opens (b :: rest) (symbol b) rest

theorem opens_of_read? {input rest : List UInt8} {lexeme : Lexeme}
    (h : read? input = some (lexeme, rest)) : Opens input lexeme rest := by
  have run {p : UInt8 → Bool} {b : UInt8} {tail : List UInt8} (first : p b) :
      b :: tail = (b :: tail.takeWhile p) ++ tail.dropWhile p ∧
      (∀ a ∈ b :: tail.takeWhile p, p a) ∧ ∀ a ∈ (tail.dropWhile p).head?, p a = false := by
    refine ⟨by simp, ?_, fun a found => ?_⟩
    · simpa [first] using fun a => List.mem_takeWhile_imp
    · have := List.head?_dropWhile_not p tail
      simp_all
  rw [read?.eq_def] at h
  split at h
  · simp at h
  · next b tail =>
    split at h
    · simp at h
    next visible =>
    split at h
    · next letter =>
      obtain ⟨whole, letters, stops⟩ := @run isLetter b tail letter
      obtain ⟨rfl, rfl⟩ := Prod.mk.inj (Option.some.inj h)
      rw [whole]
      exact .word (by simp) letters stops
    next letter =>
    split at h
    · next digit =>
      obtain ⟨whole, digits, stops⟩ := @run isDigit b tail digit
      obtain ⟨rfl, rfl⟩ := Prod.mk.inj (Option.some.inj h)
      rw [whole]
      exact .number (by simp) digits stops
    next digit =>
    simp only [Bool.not_eq_true] at letter digit
    split at h
    · obtain ⟨rfl, rfl⟩ := Prod.mk.inj (Option.some.inj h)
      exact .symbol visible letter digit (by simp)
    · split at h
      · next spelled =>
        obtain ⟨rfl, rfl⟩ := Prod.mk.inj (Option.some.inj h)
        exact .operator spelled
      · next alone =>
        obtain ⟨rfl, rfl⟩ := Prod.mk.inj (Option.some.inj h)
        exact .symbol visible letter digit (by simpa using alone)

theorem Opens.read?_eq {input rest : List UInt8} {lexeme : Lexeme}
    (h : Opens input lexeme rest) : read? input = some (lexeme, rest) := by
  cases h with
  | @word text rest some letters stops =>
    obtain ⟨b, tail, rfl⟩ := List.exists_cons_of_ne_nil some
    have letter := letters b List.mem_cons_self
    have := code_of_isLetter letter
    have visible : b ≠ 0 := ne_zero_of_pos (by omega)
    obtain ⟨kept, left⟩ := splitWhile_append (List.forall_mem_cons.1 letters).2 stops
    simp only [List.cons_append, read?.eq_def, if_neg visible, if_pos letter, kept, left]
  | @number text rest some digits stops =>
    obtain ⟨b, tail, rfl⟩ := List.exists_cons_of_ne_nil some
    have digit := digits b List.mem_cons_self
    have := code_of_isDigit digit
    have visible : b ≠ 0 := ne_zero_of_pos (by omega)
    have letter : ¬isLetter b := Bool.eq_false_iff.1 (not_isLetter_of_isDigit digit)
    obtain ⟨kept, left⟩ := splitWhile_append (List.forall_mem_cons.1 digits).2 stops
    simp only [List.cons_append, read?.eq_def, if_neg visible, if_neg letter, if_pos digit, kept,
      left]
  | @operator b c rest kind spelled =>
    obtain ⟨visible, letter, digit⟩ := operator?_begins spelled
    simp only [read?.eq_def, if_neg visible, if_neg letter, if_neg digit, spelled]
  | @symbol b rest visible letter digit alone =>
    simp only [read?.eq_def, if_neg visible, letter, digit, Bool.false_eq_true, if_false]
    cases rest with
    | nil => rfl
    | cons c rest => simp only [alone c rfl]

theorem read?_eq_some_iff {input rest : List UInt8} {lexeme : Lexeme} :
    read? input = some (lexeme, rest) ↔ Opens input lexeme rest :=
  ⟨opens_of_read?, Opens.read?_eq⟩

theorem Opens.visible {input rest : List UInt8} {lexeme : Lexeme} (h : Opens input lexeme rest)
    (start : ∀ b ∈ input.head?, isBlank b = false) : ∀ b ∈ lexeme.text, IsVisible b := by
  intro b found
  cases h with
  | word some letters stops =>
    have := code_of_isLetter (letters b found)
    exact isVisible_iff_code.2 (by omega)
  | number some digits stops =>
    have := code_of_isDigit (digits b found)
    exact isVisible_iff_code.2 (by omega)
  | operator spelled =>
    have := operator?_spelling spelled
    simp only [List.mem_cons, List.not_mem_nil, or_false] at found
    rcases found with rfl | rfl <;> exact isVisible_iff_code.2 (by omega)
  | symbol visible letter digit alone =>
    obtain rfl : b = _ := by simpa [Lexeme.symbol] using found
    exact ⟨visible, by simpa using start⟩

theorem Opens.ascii {input rest : List UInt8} {lexeme : Lexeme} (h : Opens input lexeme rest) :
    (∀ b ∈ lexeme.text, b.toNat < 128) ∨ ∃ b, 128 ≤ b.toNat ∧ lexeme.text = [b] := by
  cases h with
  | word some letters stops =>
    left
    intro b found
    have := code_of_isLetter (letters b found)
    omega
  | number some digits stops =>
    left
    intro b found
    have := code_of_isDigit (digits b found)
    omega
  | operator spelled =>
    left
    intro b found
    have := operator?_spelling spelled
    simp only [List.mem_cons, List.not_mem_nil, or_false] at found
    rcases found with rfl | rfl <;> omega
  | @symbol b rest visible letter digit alone =>
    by_cases wide : 128 ≤ b.toNat
    · exact .inr ⟨b, wide, rfl⟩
    · exact .inl (by simpa [Lexeme.symbol] using wide)

theorem read?_eq_none_iff {input : List UInt8} :
    read? input = none ↔ ∀ b ∈ input.head?, b = 0 := by
  cases input with
  | nil => simp [read?]
  | cons b rest =>
    by_cases h : b = 0
    · simp [read?, h]
    · simp only [read?.eq_def, h, if_false, List.head?_cons]
      repeat' split
      all_goals simp [h]

end Lexeme

end Scriptlet
