import Scriptlet.Proofs.Lexeme
import Scriptlet.Token.Stream

/-!
How the tokens of a source lie in it: one after the other, each behind a gap of
blanks, and the end of input behind the last gap. Whatever is said about all
tokens of a source follows by induction on this layout.
-/

namespace Scriptlet

namespace Token

def ofLexeme (start : Nat) (lexeme : Lexeme) : Token :=
  ⟨lexeme.kind, Text.ofCodes lexeme.text, .ofOffsets start (start + lexeme.text.length)⟩

def ending (offset : Nat) : Token :=
  ⟨.endOfInput, "", .ofOffsets offset offset⟩

def start (t : Token) : Nat := t.span.start.toNat

def stop (t : Token) : Nat := t.span.stop.toNat

theorem span_ofLexeme {start : Nat} {lexeme : Lexeme}
    (small : start + lexeme.text.length < UInt32.size) : (ofLexeme start lexeme).start = start ∧
      (ofLexeme start lexeme).stop = start + lexeme.text.length := by
  constructor
  · exact UInt32.toNat_ofNat_of_lt' (by omega)
  · exact UInt32.toNat_ofNat_of_lt' small

theorem span_ending {offset : Nat} (small : offset < UInt32.size) :
    (ending offset).start = offset ∧ (ending offset).stop = offset := by
  constructor
  · exact UInt32.toNat_ofNat_of_lt' small
  · exact UInt32.toNat_ofNat_of_lt' small

end Token

/-- Tokens that lie in an input of which the first byte has the offset `start`. -/
inductive Layout : Nat → List UInt8 → List Token → Prop
  | ending {start : Nat} {gap rest : List UInt8} (blank : ∀ b ∈ gap, isBlank b)
      (ended : ∀ b ∈ rest.head?, b = 0) :
      Layout start (gap ++ rest) [.ending (start + gap.length)]
  | token {start : Nat} {gap rest : List UInt8} {lexeme : Lexeme} {tokens : List Token}
      (blank : ∀ b ∈ gap, isBlank b) (visible : ∀ b ∈ lexeme.text, IsVisible b)
      (opens : Lexeme.Opens (lexeme.text ++ rest) lexeme rest)
      (more : Layout (start + gap.length + lexeme.text.length) rest tokens) :
      Layout start (gap ++ (lexeme.text ++ rest)) (.ofLexeme (start + gap.length) lexeme :: tokens)

namespace Cursor

theorem next_of_ended {c : Cursor} (h : Lexeme.read? c.skipBlanks.rest = none) :
    c.next = (.ending c.skipBlanks.offset, c.skipBlanks) := by
  simp only [next, h]
  rfl

theorem next_of_lexeme {c : Cursor} {lexeme : Lexeme} {rest : List UInt8}
    (h : Lexeme.read? c.skipBlanks.rest = some (lexeme, rest)) :
    c.next = (.ofLexeme c.skipBlanks.offset lexeme,
      ⟨rest, c.skipBlanks.offset + lexeme.text.length⟩) := by
  simp only [next, h]
  rfl

theorem tokens_of_end {c : Cursor} (h : c.next.1.kind = .endOfInput) :
    c.tokens = [c.next.1] := by
  rw [tokens, if_pos h]

theorem tokens_of_token {c : Cursor} (h : c.next.1.kind ≠ .endOfInput) :
    c.tokens = c.next.1 :: c.next.2.tokens := by
  rw [tokens, if_neg h]

theorem tokens_next_of_end {c : Cursor} (h : c.next.1.kind = .endOfInput) :
    c.next.2.tokens = c.tokens := by
  have again := next_next_of_end h
  rw [tokens_of_end h, tokens_of_end (by rw [again]; exact h), again]

theorem exists_gap (c : Cursor) : ∃ gap, c.rest = gap ++ c.skipBlanks.rest ∧
    c.skipBlanks.offset = c.offset + gap.length ∧ (∀ b ∈ gap, isBlank b) ∧
    ∀ b ∈ c.skipBlanks.rest.head?, isBlank b = false := by
  refine ⟨c.rest.takeWhile isBlank, List.takeWhile_append_dropWhile.symm, rfl,
    fun b found => List.mem_takeWhile_imp found, fun b head => ?_⟩
  have := List.head?_dropWhile_not isBlank c.rest
  simp_all [skipBlanks]

theorem layout_tokens (c : Cursor) : Layout c.offset c.rest c.tokens := by
  fun_induction tokens c with
  | case1 c ended =>
    obtain ⟨gap, split, offset, blank, -⟩ := c.exists_gap
    cases found : Lexeme.read? c.skipBlanks.rest with
    | none =>
      rw [next_of_ended found, split, offset]
      exact .ending blank (Lexeme.read?_eq_none_iff.1 found)
    | some read =>
      rw [next_of_lexeme found] at ended
      exact absurd ended (Lexeme.kind_ne_endOfInput found)
  | case2 c going ih =>
    obtain ⟨gap, split, offset, blank, first⟩ := c.exists_gap
    cases found : Lexeme.read? c.skipBlanks.rest with
    | none =>
      rw [next_of_ended found] at going
      exact absurd rfl going
    | some read =>
      obtain ⟨lexeme, rest⟩ := read
      have opens := Lexeme.read?_eq_some_iff.1 found
      have whole := Lexeme.text_append_rest found
      rw [next_of_lexeme found, offset] at ih ⊢
      rw [split, ← whole]
      exact .token blank (opens.visible first) (whole ▸ opens) ih

theorem layout_tokenize (source : String) :
    Layout 0 (Text.bytes source) (tokenize source) :=
  layout_tokens (.ofSource source)

theorem skipBlanks_append {gap rest : List UInt8} (blank : ∀ b ∈ gap, isBlank b)
    (stops : ∀ b ∈ rest.head?, isBlank b = false) (offset : Nat) :
    skipBlanks ⟨gap ++ rest, offset⟩ = ⟨rest, offset + gap.length⟩ := by
  obtain ⟨skipped, left⟩ := splitWhile_append blank stops
  simp only [skipBlanks, skipped, left]

theorem tokens_of_layout {start : Nat} {input : List UInt8} {tokens : List Token}
    (h : Layout start input tokens) : Cursor.tokens ⟨input, start⟩ = tokens := by
  induction h with
  | @ending start gap rest blank ended =>
    have stops : ∀ b ∈ rest.head?, isBlank b = false := by
      intro b head
      rw [ended b head]
      decide
    have skipped := skipBlanks_append blank stops start
    have next := @next_of_ended ⟨gap ++ rest, start⟩ (by
      rw [skipped]
      exact Lexeme.read?_eq_none_iff.2 ended)
    rw [tokens_of_end (by rw [next]; rfl), next, skipped]
  | @token start gap rest lexeme tokens blank visible opens more ih =>
    have stops : ∀ b ∈ (lexeme.text ++ rest).head?, isBlank b = false := by
      obtain ⟨b, text, same⟩ := List.exists_cons_of_ne_nil (Lexeme.text_ne_nil opens.read?_eq)
      rw [same] at visible ⊢
      rintro b' head
      obtain rfl := Option.some.inj head
      exact (visible b List.mem_cons_self).2
    have skipped := skipBlanks_append blank stops start
    have next := @next_of_lexeme ⟨gap ++ (lexeme.text ++ rest), start⟩ lexeme rest (by
      rw [skipped]
      exact opens.read?_eq)
    have going := Lexeme.kind_ne_endOfInput opens.read?_eq
    rw [tokens_of_token (by rw [next]; exact going), next, skipped, ih]

end Cursor

namespace Layout

variable {start : Nat} {input : List UInt8} {tokens : List Token}

theorem length_le (h : Layout start input tokens) : tokens.length ≤ input.length + 1 := by
  induction h with
  | ending => simp
  | @token start gap rest lexeme tokens blank visible opens more ih =>
    have := List.length_pos_iff.2 (Lexeme.text_ne_nil opens.read?_eq)
    simp only [List.length_cons, List.length_append]
    omega

theorem idxOf_zero_append {seen rest : List UInt8} (h : ∀ b ∈ seen, b ≠ 0) :
    (seen ++ rest).idxOf 0 = seen.length + rest.idxOf 0 := by
  have : 0 ∉ seen := fun found => h 0 found rfl
  rw [List.idxOf_append, if_neg this, Nat.add_comm]

theorem idxOf_zero_gap {gap rest : List UInt8} (blank : ∀ b ∈ gap, isBlank b) :
    (gap ++ rest).idxOf 0 = gap.length + rest.idxOf 0 := by
  apply idxOf_zero_append
  intro b found
  have := isBlank_iff_code.1 (blank b found)
  exact ne_zero_of_pos (by omega)

theorem idxOf_zero_ended {rest : List UInt8} (ended : ∀ b ∈ rest.head?, b = 0) :
    rest.idxOf 0 = 0 := by
  cases rest with
  | nil => rfl
  | cons b rest => simp [ended b rfl]

theorem idxOf_zero_token {gap text rest : List UInt8} (blank : ∀ b ∈ gap, isBlank b)
    (visible : ∀ b ∈ text, IsVisible b) :
    (gap ++ (text ++ rest)).idxOf 0 = gap.length + text.length + rest.idxOf 0 := by
  rw [idxOf_zero_gap blank, idxOf_zero_append fun b found => (visible b found).1, Nat.add_assoc]

theorem ends (h : Layout start input tokens) : ∃ body,
    tokens = body ++ [.ending (start + input.idxOf 0)] ∧ ∀ t ∈ body, t.kind ≠ .endOfInput := by
  induction h with
  | @ending start gap rest blank ended =>
    refine ⟨[], ?_, by simp⟩
    rw [idxOf_zero_gap blank, idxOf_zero_ended ended]
    rfl
  | @token start gap rest lexeme tokens blank visible opens more ih =>
    obtain ⟨body, rfl, going⟩ := ih
    refine ⟨.ofLexeme (start + gap.length) lexeme :: body, ?_, ?_⟩
    · rw [idxOf_zero_token blank visible]
      simp [Nat.add_assoc]
    · rw [List.forall_mem_cons]
      exact ⟨Lexeme.kind_ne_endOfInput opens.read?_eq, going⟩

end Layout

theorem cons_eq_concat {t last : Token} {rest tokens : List Token}
    (same : t :: rest = tokens ++ [last]) (other : t.kind ≠ last.kind) :
    ∃ more, tokens = t :: more ∧ rest = more ++ [last] := by
  cases tokens with
  | nil => exact absurd (congrArg Token.kind (List.cons.inj same).1) other
  | cons u more =>
    obtain ⟨rfl, rfl⟩ := List.cons.inj same
    exact ⟨more, rfl, rfl⟩

theorem tokenize_eq_concat (source : String) : ∃ last,
    tokenize source = (tokenize source).dropLast ++ [last] ∧ last.kind = .endOfInput ∧
      ∀ t ∈ (tokenize source).dropLast, t.kind ≠ .endOfInput := by
  obtain ⟨body, whole, going⟩ := (Cursor.layout_tokenize source).ends
  have same : (tokenize source).dropLast = body := by rw [whole, List.dropLast_concat]
  rw [same]
  exact ⟨_, whole, rfl, going⟩

theorem getLast?_tokenize (source : String) : ∃ last,
    (tokenize source).getLast? = some last ∧ last.kind = .endOfInput := by
  obtain ⟨last, whole, ended, -⟩ := tokenize_eq_concat source
  exact ⟨last, by rw [whole, List.getLast?_concat], ended⟩

end Scriptlet
