import Scriptlet.Proofs.Layout

/-!
Every byte of a source is accounted for. Up to the first NUL, a byte that shows
lies in exactly one token and a blank lies in none, so the tokens and the gaps
before them give back the source. Spans have 32 bits, which is why the sources
here are shorter than that.
-/

namespace Scriptlet

namespace Text

/-- A text that stands for bytes of a source: it has these bytes, unless they
are one byte outside ASCII, which is shown as the character with its code. -/
def Spells (text : String) : List UInt8 → Prop
  | [b] => if 128 ≤ b.toNat then text = String.singleton (Char.ofUInt8 b) else bytes text = [b]
  | bs => bytes text = bs

theorem bytes_ofCodes {bs : List UInt8} (ascii : ∀ b ∈ bs, b.toNat < 128) :
    bytes (ofCodes bs) = bs := by
  have alone {b : UInt8} (small : b.toNat < 128) :
      String.utf8EncodeChar (Char.ofUInt8 b) = [b] := by
    have ascii : (Char.ofUInt8 b).toNat < 128 := small
    rw [utf8EncodeChar_of_ascii ascii]
    exact congrArg ([·]) b.toUInt8_toUInt32
  rw [bytes, ofCodes, String.toList_ofList]
  induction bs with
  | nil => rfl
  | cons b bs ih =>
    rw [List.map_cons, List.flatMap_cons, alone (ascii b List.mem_cons_self),
      ih fun a found => ascii a (List.mem_cons_of_mem b found)]
    rfl

theorem spells_ofCodes {bs : List UInt8}
    (h : (∀ b ∈ bs, b.toNat < 128) ∨ ∃ b, 128 ≤ b.toNat ∧ bs = [b]) : Spells (ofCodes bs) bs := by
  rcases h with ascii | ⟨b, wide, rfl⟩
  · have same := bytes_ofCodes ascii
    unfold Spells
    split
    · next b =>
      have := ascii b List.mem_cons_self
      rw [if_neg (by omega)]
      exact same
    · exact same
  · rw [Spells, if_pos wide]
    rfl

end Text

namespace Token

def covers (t : Token) (offset : Nat) : Bool :=
  t.start ≤ offset && offset < t.stop

def bytesIn (t : Token) (source : List UInt8) : List UInt8 :=
  source.extract t.start t.stop

/-- How a token other than the end of input stands in a source before `stop`. -/
structure Stands (t : Token) (source : List UInt8) (stop : Nat) : Prop where
  nonempty : t.start < t.stop
  before : t.stop ≤ stop
  visible : ∀ b ∈ t.bytesIn source, isBlank b = false
  literal : Text.Spells t.literal (t.bytesIn source)

/-- The gaps before tokens and the bytes of the tokens, in turn. -/
def weave (source : List UInt8) : Nat → List Token → List UInt8
  | _, [] => []
  | start, t :: rest => source.extract start t.start ++ t.bytesIn source ++ weave source t.stop rest

end Token

namespace Layout

variable {start : Nat} {input : List UInt8} {tokens : List Token}

theorem start_le (h : Layout start input tokens) (small : start + input.length < UInt32.size) :
    ∀ t ∈ tokens, start ≤ t.start := by
  induction h with
  | @ending start gap rest blank ended =>
    intro t found
    rw [List.length_append] at small
    obtain rfl := List.mem_singleton.1 found
    rw [(Token.span_ending (by omega)).1]
    omega
  | @token start gap rest lexeme tokens blank visible opens more ih =>
    intro t found
    simp only [List.length_append] at small
    rcases List.mem_cons.1 found with rfl | found
    · rw [(Token.span_ofLexeme (by omega)).1]
      omega
    · have := ih (by omega) t found
      omega

theorem ordered (h : Layout start input tokens) (small : start + input.length < UInt32.size) :
    tokens.Pairwise fun t u => t.stop ≤ u.start := by
  induction h with
  | ending => exact List.pairwise_singleton _ _
  | @token start gap rest lexeme tokens blank visible opens more ih =>
    simp only [List.length_append] at small
    refine List.pairwise_cons.2 ⟨fun u found => ?_, ih (by omega)⟩
    rw [(Token.span_ofLexeme (by omega)).2]
    exact more.start_le (by omega) u found

theorem countP_covers_eq_zero (h : Layout start input tokens)
    (small : start + input.length < UInt32.size) {k : Nat} (before : k < start) :
    tokens.countP (·.covers k) = 0 := by
  apply List.countP_eq_zero.2
  intro t found
  have := h.start_le small t found
  simp only [Token.covers, Bool.and_eq_true, decide_eq_true_eq]
  omega

theorem countP_covers (h : Layout start input tokens) (small : start + input.length < UInt32.size)
    {k : Nat} {b : UInt8} (found : input[k]? = some b) (before : k < input.idxOf 0) :
    tokens.countP (·.covers (start + k)) = if isBlank b then 0 else 1 := by
  induction h generalizing k with
  | @ending start gap rest blank ended =>
    rw [List.length_append] at small
    rw [idxOf_zero_gap blank, idxOf_zero_ended ended, Nat.add_zero] at before
    rw [List.getElem?_append_left before] at found
    have span := @Token.span_ending (start + gap.length) (by omega)
    rw [if_pos (blank b (List.mem_of_getElem? found)), List.countP_singleton, Token.covers,
      span.1, span.2]
    simp only [Bool.and_eq_true, decide_eq_true_eq]
    exact if_neg (by omega)
  | @token start gap rest lexeme tokens blank visible opens more ih =>
    simp only [List.length_append] at small
    rw [idxOf_zero_token blank visible] at before
    have span := @Token.span_ofLexeme (start + gap.length) lexeme (by omega)
    rw [List.countP_cons, Token.covers, span.1, span.2]
    simp only [Bool.and_eq_true, decide_eq_true_eq]
    -- The offset lies in the gap, in the text or behind both.
    rcases Nat.lt_or_ge k gap.length with inGap | pastGap
    · rw [List.getElem?_append_left inGap] at found
      rw [more.countP_covers_eq_zero (by omega) (by omega),
        if_pos (blank b (List.mem_of_getElem? found)), if_neg (by omega)]
    rw [List.getElem?_append_right pastGap] at found
    rcases Nat.lt_or_ge (k - gap.length) lexeme.text.length with inText | pastText
    · rw [List.getElem?_append_left inText] at found
      rw [more.countP_covers_eq_zero (by omega) (by omega),
        (visible b (List.mem_of_getElem? found)).2, if_pos (by omega)]
      rfl
    · rw [List.getElem?_append_right pastText] at found
      have rest := ih (by omega) found (by omega)
      rw [show start + gap.length + lexeme.text.length + (k - gap.length - lexeme.text.length)
        = start + k by omega] at rest
      have outside : ¬(start + gap.length ≤ start + k ∧
          start + k < start + gap.length + lexeme.text.length) := by omega
      rw [rest, if_neg outside, Nat.add_zero]

theorem extract_of_drop {source seen rest : List UInt8} (here : source.drop start = seen ++ rest) :
    source.extract start (start + seen.length) = seen ∧
      source.drop (start + seen.length) = rest := by
  constructor
  · simp [here]
  · rw [← List.drop_drop, here, List.drop_left]

theorem stands (h : Layout start input tokens) (small : start + input.length < UInt32.size)
    {source : List UInt8} (here : source.drop start = input) :
    ∀ t ∈ tokens, t.kind ≠ .endOfInput →
      t.Stands source (start + input.idxOf 0) := by
  induction h with
  | ending =>
    intro t found going
    obtain rfl := List.mem_singleton.1 found
    exact absurd rfl going
  | @token start gap rest lexeme tokens blank visible opens more ih =>
    simp only [List.length_append] at small
    rw [idxOf_zero_token blank visible, ← Nat.add_assoc, ← Nat.add_assoc]
    have text := (extract_of_drop here).2
    intro t found going
    rcases List.mem_cons.1 found with rfl | found
    · have span := @Token.span_ofLexeme (start + gap.length) lexeme (by omega)
      have own : (Token.ofLexeme (start + gap.length) lexeme).bytesIn source = lexeme.text := by
        rw [Token.bytesIn, span.1, span.2]
        exact (extract_of_drop text).1
      have long := List.length_pos_iff.2 (Lexeme.text_ne_nil opens.read?_eq)
      refine ⟨by omega, by omega, ?_, ?_⟩
      · rw [own]
        exact fun b found => (visible b found).2
      · rw [own]
        exact Text.spells_ofCodes opens.ascii
    · exact ih (by omega) (extract_of_drop text).2 t found going

theorem weave_eq (h : Layout start input tokens) (small : start + input.length < UInt32.size)
    {source : List UInt8} (here : source.drop start = input) :
    Token.weave source start tokens = input.take (input.idxOf 0) := by
  induction h with
  | @ending start gap rest blank ended =>
    rw [List.length_append] at small
    have span := @Token.span_ending (start + gap.length) (by omega)
    rw [idxOf_zero_gap blank, idxOf_zero_ended ended, Nat.add_zero, List.take_left, Token.weave,
      Token.weave, Token.bytesIn, span.1, span.2, (extract_of_drop here).1]
    simp
  | @token start gap rest lexeme tokens blank visible opens more ih =>
    simp only [List.length_append] at small
    have text := (extract_of_drop here).2
    have span := @Token.span_ofLexeme (start + gap.length) lexeme (by omega)
    rw [Token.weave, Token.bytesIn, span.1, span.2, (extract_of_drop here).1,
      (extract_of_drop text).1, ih (by omega) (extract_of_drop text).2,
      idxOf_zero_token blank visible, Nat.add_assoc, List.take_length_add_append,
      List.take_length_add_append, List.append_assoc]

end Layout

/-- What tokens are that account for all of a source before the offset `stop`:
the end of input comes last and stands there, the others lie before it, one
after the other, and leave only blanks out. -/
structure Accounts (source : List UInt8) (stop : Nat) (body : List Token) (last : Token) :
    Prop where
  ending : last.kind = .endOfInput ∧ last.literal = "" ∧ last.start = stop ∧ last.stop = stop
  going : ∀ t ∈ body, t.kind ≠ .endOfInput
  stands : ∀ t ∈ body, t.Stands source stop
  ordered : body.Pairwise fun t u => t.stop ≤ u.start
  gaps : ∀ k b, k < stop → source[k]? = some b → (∀ t ∈ body, t.covers k = false) → isBlank b
  once : ∀ k b, k < stop → source[k]? = some b →
    body.countP (·.covers k) = if isBlank b then 0 else 1
  whole : Token.weave source 0 (body ++ [last]) = source.take stop

theorem tokenize_accounts (source : String) (short : (Text.bytes source).length < UInt32.size) :
    ∃ body last, tokenize source = body ++ [last] ∧
      Accounts (Text.bytes source) ((Text.bytes source).idxOf 0) body last := by
  have layout := Cursor.layout_tokenize source
  obtain ⟨body, whole, going⟩ := layout.ends
  rw [Nat.zero_add] at whole
  generalize stopped : (Text.bytes source).idxOf 0 = stop at whole ⊢
  have small : 0 + (Text.bytes source).length < UInt32.size := by omega
  have inside : stop < UInt32.size := stopped ▸ Nat.lt_of_le_of_lt List.idxOf_le_length short
  have span := Token.span_ending inside
  have once (k : Nat) (b : UInt8) (before : k < stop) (found : (Text.bytes source)[k]? = some b) :
      body.countP (·.covers k) = if isBlank b then 0 else 1 := by
    have count := layout.countP_covers small found (stopped ▸ before)
    have outside : (Token.ending stop).covers k = false := by
      simp only [Token.covers, span.1, span.2, Bool.and_eq_false_iff, decide_eq_false_iff_not]
      omega
    rw [whole, List.countP_append, List.countP_singleton, Nat.zero_add, outside] at count
    exact count
  refine ⟨body, .ending stop, whole, ⟨rfl, rfl, span⟩, going, ?_, ?_, ?_, once, ?_⟩
  · intro t found
    have member : t ∈ tokenize source := whole ▸ List.mem_append_left _ found
    have stands := layout.stands small rfl t member (going t found)
    rwa [Nat.zero_add, stopped] at stands
  · have ordered := layout.ordered small
    rw [whole] at ordered
    exact (List.pairwise_append.1 ordered).1
  · intro k b before found uncovered
    by_contra visible
    have count := once k b before found
    rw [if_neg visible, List.countP_eq_zero.2 fun t member => by simp [uncovered t member]] at count
    exact absurd count (by decide)
  · have woven := layout.weave_eq small rfl
    rwa [whole, stopped] at woven

theorem tokenize_accounts_accent : (Text.bytes "a é;\x00 b").length < UInt32.size ∧
    ∃ body last, tokenize "a é;\x00 b" = body ++ [last] ∧
      Accounts (Text.bytes "a é;\x00 b") 5 body last :=
  ⟨by decide, tokenize_accounts "a é;\x00 b" (by decide)⟩

end Scriptlet
