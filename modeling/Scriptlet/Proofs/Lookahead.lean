import Scriptlet.Proofs.Coverage
import Scriptlet.Proofs.Seam

/-!
How far tokens look ahead. Whether a token goes on is decided by the byte behind it and by
none that follows, so what stands from some offset on has no part in the tokens that end
before that offset.
-/

namespace Scriptlet

/-- The byte behind the token comes before the offset as well. -/
def Token.endsBefore (offset : Nat) (t : Token) : Bool :=
  t.stop < offset

theorem Token.endsBefore_eq_false {offset : Nat} {t : Token} :
    t.endsBefore offset = false ↔ offset ≤ t.stop := by
  rw [endsBefore, decide_eq_false_iff_not, Nat.not_lt]

theorem exists_cons_of_append {part rest seen more : List UInt8}
    (whole : seen ++ more = part ++ rest) (inside : part.length < seen.length) :
    ∃ b left, seen = part ++ b :: left ∧ rest = b :: (left ++ more) := by
  rcases List.append_eq_append_iff.1 whole with ⟨extra, rfl, -⟩ | ⟨left, rfl, rfl⟩
  · rw [List.length_append] at inside
    omega
  · cases left with
    | nil =>
      rw [List.append_nil] at inside
      exact absurd inside (Nat.lt_irrefl _)
    | cons b left => exact ⟨b, left, rfl, rfl⟩

namespace Layout

variable {start offset : Nat} {input seen more : List UInt8} {tokens : List Token}

theorem le_stop (h : Layout start input tokens) (small : start + input.length < UInt32.size) :
    ∀ t ∈ tokens, start ≤ t.stop := by
  induction h with
  | @ending start gap rest blank ended =>
    intro t found
    rw [List.length_append] at small
    obtain rfl := List.mem_singleton.1 found
    rw [(Token.span_ending (by omega)).2]
    omega
  | @token start gap rest lexeme tokens blank visible opens more ih =>
    intro t found
    simp only [List.length_append] at small
    rcases List.mem_cons.1 found with rfl | found
    · rw [(Token.span_ofLexeme (by omega)).2]
      omega
    · have := ih (by omega) t found
      omega

theorem filter_endsBefore_eq_nil (h : Layout start input tokens)
    (small : start + input.length < UInt32.size) (beyond : offset ≤ start) :
    tokens.filter (·.endsBefore offset) = [] := by
  refine List.filter_eq_nil_iff.2 fun t found => Bool.eq_false_iff.1 ?_
  exact Token.endsBefore_eq_false.2 (Nat.le_trans beyond (h.le_stop small t found))

theorem exists_prefix_of_late (late : tokens.filter (·.endsBefore offset) = []) :
    ∃ tokens', Layout start input tokens' ∧
      tokens.filter (·.endsBefore offset) <+: tokens'.filter (·.endsBefore offset) := by
  refine ⟨_, Cursor.layout_tokens ⟨input, start⟩, ?_⟩
  rw [late]
  exact List.nil_prefix

theorem exists_filter_prefix (h : Layout start (seen ++ more) tokens) (other : List UInt8)
    (small : start + (seen ++ more).length < UInt32.size) :
    ∃ tokens', Layout start (seen ++ other) tokens' ∧
      tokens.filter (·.endsBefore (start + seen.length)) <+:
        tokens'.filter (·.endsBefore (start + seen.length)) := by
  generalize whole : seen ++ more = input at h small
  induction h generalizing seen with
  | @ending start gap rest blank ended =>
    rw [List.length_append] at small
    rcases Nat.lt_or_ge gap.length seen.length with inside | beyond
    · obtain ⟨b, left, rfl, rfl⟩ := exists_cons_of_append whole inside
      refine ⟨_, ?_, List.prefix_rfl⟩
      rw [List.append_assoc]
      exact .ending blank fun c head => ended c (by simpa using head)
    · have stop := (@Token.span_ending (start + gap.length) (by omega)).2
      have late : [Token.ending (start + gap.length)].filter
          (·.endsBefore (start + seen.length)) = [] := by
        simp [Token.endsBefore_eq_false, stop, beyond]
      exact exists_prefix_of_late late
  | @token start gap rest lexeme tokens blank visible opens behind ih =>
    simp only [List.length_append] at small
    rcases Nat.lt_or_ge (gap ++ lexeme.text).length seen.length with inside | beyond
    · rw [← List.append_assoc] at whole
      obtain ⟨b, left, rfl, rfl⟩ := exists_cons_of_append whole inside
      obtain ⟨onward, layout, kept⟩ := @ih (b :: left) rfl (by omega)
      have same : start + gap.length + lexeme.text.length + (b :: left).length =
          start + (gap ++ lexeme.text ++ b :: left).length := by
        simp only [List.length_append, Nat.add_assoc]
      have opens' : Lexeme.Opens (lexeme.text ++ (b :: left ++ other)) lexeme _ :=
        opens.extend fun c head => .inl head
      refine ⟨.ofLexeme (start + gap.length) lexeme :: onward, ?_, ?_⟩
      · rw [List.append_assoc, List.append_assoc]
        exact .token blank visible opens' layout
      · rw [← same, List.filter_cons, List.filter_cons]
        split
        · exact (List.prefix_cons_inj _).2 kept
        · exact kept
    · rw [List.length_append] at beyond
      have stop := (@Token.span_ofLexeme (start + gap.length) lexeme (by omega)).2
      have late : (Token.ofLexeme (start + gap.length) lexeme :: tokens).filter
          (·.endsBefore (start + seen.length)) = [] := by
        rw [List.filter_cons_of_neg, behind.filter_endsBefore_eq_nil (by omega) (by omega)]
        rw [Bool.not_eq_true, Token.endsBefore_eq_false, stop]
        omega
      exact exists_prefix_of_late late

end Layout

theorem filter_endsBefore_eq {s t : String} {seen more other : List UInt8}
    (first : Text.bytes s = seen ++ more) (second : Text.bytes t = seen ++ other)
    (short : (Text.bytes s).length < UInt32.size) (short' : (Text.bytes t).length < UInt32.size) :
    (tokenize s).filter (·.endsBefore seen.length) =
      (tokenize t).filter (·.endsBefore seen.length) := by
  have half {s t : String} {more other : List UInt8} (first : Text.bytes s = seen ++ more)
      (second : Text.bytes t = seen ++ other) (short : (Text.bytes s).length < UInt32.size) :
      (tokenize s).filter (·.endsBefore seen.length) <+:
        (tokenize t).filter (·.endsBefore seen.length) := by
    have layout := Cursor.layout_tokenize s
    rw [first] at layout short
    obtain ⟨tokens, onward, kept⟩ := layout.exists_filter_prefix other (by rwa [Nat.zero_add])
    have read : tokenize t = tokens := by
      rw [tokenize, Cursor.ofSource, second]
      exact Cursor.tokens_of_layout onward
    rwa [read, ← Nat.zero_add seen.length]
  have there := half first second short
  exact there.eq_of_length_le (half second first short').length_le

/-- Sources that begin alike have the same tokens up to where they differ, but for a token
that reaches that far: no token takes notice of more than the byte behind it. -/
theorem tokenize_agree (a b c : String) (short : (Text.bytes (a ++ b)).length < UInt32.size)
    (short' : (Text.bytes (a ++ c)).length < UInt32.size) :
    (tokenize (a ++ b)).filter (·.endsBefore (Text.bytes a).length) =
      (tokenize (a ++ c)).filter (·.endsBefore (Text.bytes a).length) :=
  filter_endsBefore_eq (Text.bytes_append a b) (Text.bytes_append a c) short short'

theorem tokenize_agree_operator :
    (Text.bytes ("let é =" ++ "= 5;")).length < UInt32.size ∧
    (Text.bytes ("let é =" ++ "\x00;")).length < UInt32.size ∧
    (tokenize ("let é =" ++ "= 5;")).filter (·.endsBefore 8) =
      (tokenize ("let é =" ++ "\x00;")).filter (·.endsBefore 8) :=
  ⟨by decide, by decide, tokenize_agree "let é =" "= 5;" "\x00;" (by decide) (by decide)⟩

end Scriptlet
