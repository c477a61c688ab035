import Scriptlet.Proofs.Pulls
import Scriptlet.Proofs.Spelling
import Scriptlet.Token.Scanner

/-!
Why a scanner always reads on. Where it stands is never beyond the end of its source, its two
offsets and its byte keep step, and every part of the source that it asks for is there: a part
begins and ends beside a byte of ASCII, and such a byte is a whole character.
-/

namespace Scriptlet

namespace Scanner

/-- How the offsets and the byte of a scanner go together. -/
structure InOrder (s : Scanner) : Prop where
  position : s.position ≤ s.size
  readPosition : s.readPosition = s.position + 1
  byte : s.byte = s.byteAt s.position

def runEnd (s : Scanner) (p : UInt8 → Bool) : Nat :=
  s.position + (((Text.bytes s.source).drop s.position).takeWhile p).length

/-- The parts of the source that are asked for when a token is read at the position. -/
structure Fits (s : Scanner) : Prop where
  remainder : s.remainder? = some ((Text.bytes s.source).drop s.position)
  word : isLetter s.byte → Text.IsSlice s.source s.position (s.runEnd isLetter)
  number : isDigit s.byte → Text.IsSlice s.source s.position (s.runEnd isDigit)
  pair : s.byte = '='.toUInt8 ∨ s.byte = '!'.toUInt8 → s.peekByte = '='.toUInt8 →
    Text.IsSlice s.source s.position (s.readByte.position + 1)

/-- The token lies at the position of the first scanner or behind it, and the second one
stands at the byte behind the token. -/
structure MovesOver (s t : Scanner) (token : Token) (start : Nat) (lexeme : Lexeme) : Prop where
  token : token = .ofLexeme start lexeme
  behind : s.position ≤ start
  opens : Lexeme.Opens ((Text.bytes s.source).drop start) lexeme
    ((Text.bytes s.source).drop t.position)
  stop : t.position = start + lexeme.text.length
  onward : s.position < t.position

def cursor (s : Scanner) : Cursor :=
  ⟨(Text.bytes s.source).drop s.position, s.position⟩

def lexer (s : Scanner) : Lexer :=
  ⟨s.cursor, s.ended⟩

def answer? (s : Scanner) : Call → Option (Option Token × Scanner)
  | .pull => s.pull?.map fun (token, t) => (some token, t)
  | .next => s.next?

def afterCalls? (s : Scanner) : List Call → Option Scanner
  | [] => some s
  | call :: more => (s.answer? call).bind fun (_, t) => t.afterCalls? more

/-- A call that is answered as a lexer answers it, and that moves over the token it gives. -/
structure Answers (s : Scanner) (call : Call) (token : Option Token) (t : Scanner) : Prop where
  answer : s.answer? call = some (token, t)
  lexer : s.lexer.answer call = (token, t.lexer)
  source : t.source = s.source
  inOrder : t.InOrder
  moves : ∀ given ∈ token, given.kind ≠ .endOfInput →
    ∃ start lexeme, s.MovesOver t given start lexeme

theorem readSign?_of_begins {s : Scanner} {kind : TokenKind}
    (begins : operator? s.byte '='.toUInt8 = some kind) :
    s.readSign? = s.pairOr? '='.toUInt8 kind ((symbol? s.byte).getD .illegal) := by
  rw [operator?] at begins
  split at begins
  · next first _ =>
    obtain rfl := Option.some.inj begins
    simp only [readSign?, symbol?, first, Option.getD_some]
  · next first _ =>
    obtain rfl := Option.some.inj begins
    simp only [readSign?, symbol?, first, Option.getD_some]
  · simp at begins

theorem readSign?_of_alone {s : Scanner} (alone : operator? s.byte '='.toUInt8 = none) :
    s.readSign? = some (s.single ((symbol? s.byte).getD .illegal), s) := by
  rw [readSign?]
  split
  · next first =>
    rw [Lexeme.eq_of_ofUInt8 first] at alone
    exact absurd alone (by decide)
  · next first =>
    rw [Lexeme.eq_of_ofUInt8 first] at alone
    exact absurd alone (by decide)
  · rfl

def standing (source : String) (position : Nat) (ended : Bool) : Scanner :=
  ⟨source, position, position + 1, (Text.bytes source)[position]?.getD 0, ended⟩

section
variable {source : String} {position : Nat} {ended : Bool} {input rest : List UInt8}

theorem ofSource_eq (source : String) : ofSource source = standing source 0 false := by
  simp [ofSource, readByte, standing, byteAt]

theorem InOrder.exists_standing {s : Scanner} (h : s.InOrder) : ∃ source position ended,
    position ≤ (Text.bytes source).length ∧ s = standing source position ended := by
  obtain ⟨source, position, readPosition, byte, ended⟩ := s
  obtain ⟨inside, next, shown⟩ := h
  refine ⟨source, position, ended, inside, ?_⟩
  exact congrArg₂ (Scanner.mk source position · · ended) next shown

theorem standing_inOrder (inside : position ≤ (Text.bytes source).length) :
    (standing source position ended).InOrder :=
  ⟨inside, rfl, rfl⟩

theorem readByte_standing (inside : position < (Text.bytes source).length) :
    (standing source position ended).readByte = standing source (position + 1) ended := by
  have first : min (position + 1) (Text.bytes source).length = position + 1 :=
    Nat.min_eq_left inside
  have second : min (position + 1 + 1) ((Text.bytes source).length + 1) = position + 1 + 1 :=
    Nat.min_eq_left (Nat.succ_le_succ inside)
  exact congrArg₂ (Scanner.mk source · · _ ended) first second

theorem readBytes_standing {n : Nat} (inside : position + n ≤ (Text.bytes source).length) :
    (standing source position ended).readBytes n = standing source (position + n) ended := by
  induction n generalizing position with
  | zero => rfl
  | succ n ih =>
    rw [readBytes, readByte_standing (by omega), ih (by omega), Nat.add_assoc, Nat.add_comm 1]

section
variable {b : UInt8} {shown : List UInt8}

theorem lt_of_drop (here : (Text.bytes source).drop position = b :: rest) :
    position < (Text.bytes source).length := by
  have := congrArg List.length here
  rw [List.length_drop, List.length_cons] at this
  omega

theorem le_of_drop (inside : position ≤ (Text.bytes source).length)
    (here : (Text.bytes source).drop position = shown ++ rest) :
    position + shown.length ≤ (Text.bytes source).length := by
  have := congrArg List.length here
  rw [List.length_drop, List.length_append] at this
  omega

theorem drop_of_drop (here : (Text.bytes source).drop position = shown ++ rest) :
    (Text.bytes source).drop (position + shown.length) = rest := by
  rw [← List.drop_drop, here, List.drop_left]

theorem drop_succ_of_drop (here : (Text.bytes source).drop position = b :: rest) :
    (Text.bytes source).drop (position + 1) = rest :=
  @drop_of_drop source position rest [b] here

theorem byte_standing (here : (Text.bytes source).drop position = input) :
    (standing source position ended).byte = input.head?.getD 0 := by
  rw [← here, List.head?_drop]
  rfl

theorem peekByte_standing (here : (Text.bytes source).drop position = b :: rest) :
    (standing source position ended).peekByte = rest.head?.getD 0 :=
  @byte_standing source (position + 1) ended rest (drop_succ_of_drop here)

theorem remainder?_standing (inside : position ≤ (Text.bytes source).length)
    (here : (Text.bytes source).drop position = input) :
    (standing source position ended).remainder? = some input := by
  have within : (standing source position ended).position ≤
      (standing source position ended).size := inside
  rw [remainder?, if_pos within]
  exact congrArg some here

theorem slice?_of_drop (here : (Text.bytes source).drop position = shown ++ rest)
    (ascii : ∀ b ∈ shown, b.toNat < 128) (some : shown ≠ []) :
    Text.slice? source position (position + shown.length) = Option.some (Text.ofCodes shown) := by
  obtain ⟨b, more, rfl⟩ := List.exists_cons_of_ne_nil some
  have before : ((Text.bytes source).take position).length = position :=
    List.length_take_of_le (Nat.le_of_lt (lt_of_drop here))
  have whole := List.take_append_drop position (Text.bytes source)
  have part := Text.slice?_of_ascii (whole.symm.trans (congrArg _ here)) ascii some
  rwa [before] at part

theorem skipBlanks_standing (here : (Text.bytes source).drop position = shown ++ rest)
    (blank : ∀ b ∈ shown, isBlank b) (stops : ∀ b ∈ rest.head?, isBlank b = false) :
    (standing source position ended).skipBlanks =
      standing source (position + shown.length) ended := by
  induction shown generalizing position with
  | nil =>
    have other : isBlank (standing source position ended).byte = false := by
      rw [byte_standing here, List.nil_append]
      cases rest with
      | nil => decide
      | cons b rest => exact stops b rfl
    rw [skipBlanks, if_neg (Bool.eq_false_iff.1 other)]
    rfl
  | cons b shown ih =>
    obtain ⟨first, blank⟩ := List.forall_mem_cons.1 blank
    have shows : (standing source position ended).byte = b := byte_standing here
    have next := ih (drop_succ_of_drop here) blank
    rw [skipBlanks, if_pos (shows ▸ first), readByte_standing (lt_of_drop here), List.length_cons,
      Nat.add_comm shown.length, ← Nat.add_assoc]
    exact next

theorem readRun?_standing {p : UInt8 → Bool}
    (here : (Text.bytes source).drop position = shown ++ rest) (all : ∀ b ∈ shown, p b)
    (stops : ∀ b ∈ rest.head?, p b = false) (ascii : ∀ b ∈ shown, b.toNat < 128)
    (some : shown ≠ []) :
    (standing source position ended).readRun? p = Option.some (Text.ofCodes shown,
      .ofOffsets position (position + shown.length),
      standing source (position + shown.length) ended) := by
  obtain ⟨b, more, rfl⟩ := List.exists_cons_of_ne_nil some
  have inside := Nat.le_of_lt (lt_of_drop here)
  have within := le_of_drop inside here
  have slice := slice?_of_drop here ascii some
  rw [readRun?, remainder?_standing inside here]
  simp only [Option.bind_some, (splitWhile_append all stops).1, readBytes_standing within]
  simp only [standing, slice]
  rfl

theorem pairOr?_standing {c : UInt8} {pair alone : TokenKind} (visible : c ≠ 0)
    (here : (Text.bytes source).drop position = b :: rest) (small : b.toNat < 128)
    (ascii : c.toNat < 128) :
    (standing source position ended).pairOr? c pair alone =
      if c ∈ rest.head? then
        some (⟨pair, Text.ofCodes [b, c], .ofOffsets position (position + 2)⟩,
          standing source (position + 1) ended)
      else
        some (⟨alone, Text.ofCodes [b], .ofOffsets position (position + 1)⟩,
          standing source position ended) := by
  have follows : (standing source position ended).peekByte = c ↔ c ∈ rest.head? := by
    rw [peekByte_standing here]
    cases rest with
    | nil => simp [visible.symm]
    | cons d rest => simp
  have shows : (standing source position ended).byte = b := byte_standing here
  rw [pairOr?]
  split
  · next found =>
    rw [if_pos (follows.1 found)]
    obtain ⟨more, rfl⟩ := List.head?_eq_some_iff.1 (follows.1 found)
    have both : ∀ d ∈ [b, c], d.toNat < 128 :=
      List.forall_mem_cons.2 ⟨small, List.forall_mem_singleton.2 ascii⟩
    have slice := @slice?_of_drop source position more [b, c] here both (List.cons_ne_nil _ _)
    rw [readByte_standing (lt_of_drop here)]
    simp only [standing] at slice ⊢
    simp only [List.length_cons, List.length_nil] at slice
    rw [slice]
    rfl
  · next other =>
    rw [if_neg (mt follows.2 other), single, shows]
    rfl

theorem read?_of_ended (here : (Text.bytes source).drop position = input)
    (nul : ∀ b ∈ input.head?, b = 0) : (standing source position ended).read? =
      some (.ending position, standing source position ended) := by
  have shows : (standing source position ended).byte = 0 := by
    rw [byte_standing here]
    cases input with
    | nil => rfl
    | cons b rest => exact nul b rfl
  rw [read?, if_pos shows]
  rfl

theorem readSign?_of_operator {c : UInt8} {kind : TokenKind} (spelled : operator? b c = some kind)
    (here : (Text.bytes source).drop position = b :: c :: rest) :
    (standing source position ended).readSign? =
      some (.ofLexeme position ⟨kind, [b, c]⟩, standing source (position + 1) ended) := by
  have shows : (standing source position ended).byte = b := byte_standing here
  have code := operator?_spelling spelled
  obtain rfl : c = '='.toUInt8 := UInt8.toNat_inj.1 code.1
  rw [readSign?_of_begins (shows ▸ spelled),
    pairOr?_standing (by decide) here (by omega) (by decide)]
  exact if_pos rfl

theorem readSign?_of_symbol (here : (Text.bytes source).drop position = b :: rest)
    (alone : ∀ c ∈ rest.head?, operator? b c = none) :
    (standing source position ended).readSign? =
      some (.ofLexeme position (.symbol b), standing source position ended) := by
  have shows : (standing source position ended).byte = b := byte_standing here
  cases begins : operator? b '='.toUInt8 with
  | none =>
    rw [readSign?_of_alone (shows ▸ begins), single, shows]
    rfl
  | some kind =>
    have code := operator?_spelling begins
    have other : '='.toUInt8 ∉ rest.head? := fun found => by simp [alone _ found] at begins
    rw [readSign?_of_begins (shows ▸ begins),
      pairOr?_standing (by decide) here (by omega) (by decide), if_neg other, shows]
    rfl

theorem read?_of_opens {lexeme : Lexeme} (here : (Text.bytes source).drop position = input)
    (opens : Lexeme.Opens input lexeme rest) : (standing source position ended).read? =
      some (.ofLexeme position lexeme,
        standing source (position + lexeme.text.length) ended) := by
  have shows : (standing source position ended).byte = input.head?.getD 0 := byte_standing here
  cases opens with
  | @word text rest some letters stops =>
    obtain ⟨b, more, rfl⟩ := List.exists_cons_of_ne_nil some
    have letter : isLetter (standing source position ended).byte :=
      shows ▸ letters b List.mem_cons_self
    have := code_of_isLetter letter
    rw [read?, if_neg (ne_zero_of_pos (by omega)), if_pos letter,
      readRun?_standing here letters stops (Text.ascii_of_isLetter letters) some]
    rfl
  | @number text rest some digits stops =>
    obtain ⟨b, more, rfl⟩ := List.exists_cons_of_ne_nil some
    have digit : isDigit (standing source position ended).byte :=
      shows ▸ digits b List.mem_cons_self
    have := code_of_isDigit digit
    rw [read?, if_neg (ne_zero_of_pos (by omega)),
      if_neg (Bool.eq_false_iff.1 (not_isLetter_of_isDigit digit)), if_pos digit,
      readRun?_standing here digits stops (Text.ascii_of_isDigit digits) some]
    rfl
  | @operator b c rest kind spelled =>
    have shows : (standing source position ended).byte = b := shows
    obtain ⟨visible, letter, digit⟩ := operator?_begins spelled
    have next := lt_of_drop (drop_succ_of_drop here)
    rw [read?, shows, if_neg visible, if_neg letter, if_neg digit,
      readSign?_of_operator spelled here]
    exact congrArg (fun t => some (Token.ofLexeme position ⟨kind, [b, c]⟩, t))
      (readByte_standing next)
  | @symbol b rest visible letter digit alone =>
    have shows : (standing source position ended).byte = b := shows
    rw [read?, shows, if_neg visible, letter, digit, readSign?_of_symbol here alone]
    simp only [Bool.false_eq_true, if_false, Option.map_some, readByte_standing (lt_of_drop here)]
    rfl

end

end

section
variable {s : Scanner}

theorem InOrder.skipBlanks (h : s.InOrder) : ∃ stop, s.position ≤ stop ∧ stop ≤ s.size ∧
    s.skipBlanks = standing s.source stop s.ended ∧
    s.cursor.skipBlanks = ⟨(Text.bytes s.source).drop stop, stop⟩ := by
  obtain ⟨source, position, ended, inside, rfl⟩ := h.exists_standing
  let c : Cursor := (standing source position ended).cursor
  obtain ⟨gap, split, offset, blank, stops⟩ := c.exists_gap
  refine ⟨position + gap.length, Nat.le_add_right _ _, le_of_drop inside split,
    skipBlanks_standing split blank stops, ?_⟩
  exact congrArg₂ Cursor.mk (drop_of_drop split).symm offset

theorem readRun?_isSome_iff (inside : s.position ≤ s.size) (p : UInt8 → Bool) :
    (s.readRun? p).isSome ↔ Text.IsSlice s.source s.position (s.runEnd p) := by
  have left : s.remainder? = some ((Text.bytes s.source).drop s.position) := if_pos inside
  rw [← Text.slice?_isSome_iff, readRun?, left, Option.bind_some, Option.isSome_map]
  rfl

theorem pairOr?_isSome_iff {second : UInt8} (follows : s.peekByte = second)
    (pair alone : TokenKind) : (s.pairOr? second pair alone).isSome ↔
      Text.IsSlice s.source s.position (s.readByte.position + 1) := by
  rw [← Text.slice?_isSome_iff, pairOr?, if_pos follows, Option.isSome_map]

theorem fits_of_read? (inside : s.position ≤ s.size) (h : s.read?.isSome) : s.Fits where
  remainder := if_pos inside
  word := by
    intro letter
    have := code_of_isLetter letter
    rw [read?, if_neg (ne_zero_of_pos (by omega)), if_pos letter, Option.isSome_map] at h
    exact (readRun?_isSome_iff inside isLetter).1 h
  number := by
    intro digit
    have := code_of_isDigit digit
    rw [read?, if_neg (ne_zero_of_pos (by omega)),
      if_neg (Bool.eq_false_iff.1 (not_isLetter_of_isDigit digit)), if_pos digit,
      Option.isSome_map] at h
    exact (readRun?_isSome_iff inside isDigit).1 h
  pair := by
    intro first follows
    have spelled : ∃ kind, operator? s.byte '='.toUInt8 = some kind := by
      rcases first with first | first
      · exact ⟨.equal, by rw [first]; decide⟩
      · exact ⟨.notEqual, by rw [first]; decide⟩
    obtain ⟨kind, spelled⟩ := spelled
    obtain ⟨visible, letter, digit⟩ := operator?_begins spelled
    rw [read?, if_neg visible, if_neg letter, if_neg digit, Option.isSome_map] at h
    rw [readSign?_of_begins spelled] at h
    exact (pairOr?_isSome_iff follows _ _).1 h

theorem InOrder.pull (h : s.InOrder) : ∃ t, s.pull? = some (s.cursor.next.1, t) ∧ t.InOrder ∧
    t.source = s.source ∧ t.ended = s.ended ∧ t.cursor = s.cursor.next.2 ∧
    (s.cursor.next.1.kind ≠ .endOfInput →
      ∃ start lexeme, s.MovesOver t s.cursor.next.1 start lexeme) := by
  obtain ⟨start, behind, within, skips, moved⟩ := h.skipBlanks
  have rest : s.cursor.skipBlanks.rest = (Text.bytes s.source).drop start :=
    congrArg Cursor.rest moved
  have offset : s.cursor.skipBlanks.offset = start := congrArg Cursor.offset moved
  rw [pull?, skips]
  -- The scanner stands where the cursor does behind the blanks, so both read the same lexeme.
  cases found : Lexeme.read? s.cursor.skipBlanks.rest with
  | none =>
    have nul := Lexeme.read?_eq_none_iff.1 (rest ▸ found)
    rw [Cursor.next_of_ended found, offset]
    refine ⟨_, read?_of_ended rfl nul, standing_inOrder within, rfl, rfl, moved.symm, ?_⟩
    exact fun going => absurd rfl going
  | some read =>
    obtain ⟨lexeme, left⟩ := read
    have opens := Lexeme.read?_eq_some_iff.1 (rest ▸ found)
    have text := Lexeme.text_append_rest (rest ▸ found)
    have long := List.length_pos_iff.2 (Lexeme.text_ne_nil found)
    have onward := drop_of_drop text.symm
    have stop := le_of_drop within text.symm
    rw [Cursor.next_of_lexeme found, offset]
    refine ⟨_, read?_of_opens rfl opens, standing_inOrder stop, rfl, rfl, ?_, fun _ => ?_⟩
    · exact congrArg (Cursor.mk · _) onward
    · refine ⟨start, lexeme, rfl, behind, ?_, rfl, ?_⟩
      · exact onward.symm ▸ opens
      · show s.position < start + lexeme.text.length
        omega

theorem InOrder.answers (h : s.InOrder) (call : Call) : ∃ token t, s.Answers call token t := by
  obtain ⟨t, pulls, order, source, ended, cursor, moves⟩ := h.pull
  cases call with
  | pull =>
    refine ⟨some s.cursor.next.1, t, by rw [answer?, pulls]; rfl, ?_, source, order, ?_⟩
    · rw [Lexer.answer, Lexer.pull, Scanner.lexer, Scanner.lexer, ended, cursor]
    · intro given same
      obtain rfl := Option.some.inj same
      exact moves
  | next =>
    by_cases finished : s.ended
    · refine ⟨none, s, by rw [answer?, next?, if_pos finished], ?_, rfl, h, by simp⟩
      exact if_pos finished
    · let u : Scanner := { t with ended := s.cursor.next.1.kind == .endOfInput }
      have order : u.InOrder := ⟨order.position, order.readPosition, order.byte⟩
      refine ⟨some s.cursor.next.1, u, by rw [answer?, next?, if_neg finished, pulls]; rfl, ?_,
        source, order, ?_⟩
      · have same : u.lexer = ⟨s.cursor.next.2, s.cursor.next.1.kind == .endOfInput⟩ :=
          congrArg (Lexer.mk · _) cursor
        rw [same]
        exact if_neg finished
      · rintro given same going
        obtain rfl := Option.some.inj same
        obtain ⟨start, lexeme, same, behind, opens, stop, onward⟩ := moves going
        exact ⟨start, lexeme, same, behind, opens, stop, onward⟩

theorem InOrder.afterCalls (h : s.InOrder) (calls : List Call) : ∃ t,
    s.afterCalls? calls = some t ∧ t.InOrder ∧ t.source = s.source ∧
      t.lexer = s.lexer.afterCalls calls := by
  induction calls generalizing s with
  | nil => exact ⟨s, rfl, h, rfl, rfl⟩
  | cons call more ih =>
    obtain ⟨token, t, answered⟩ := h.answers call
    obtain ⟨u, onward, order, source, same⟩ := ih answered.inOrder
    refine ⟨u, ?_, order, source.trans answered.source, ?_⟩
    · rw [afterCalls?, answered.answer]
      exact onward
    · rw [same, Lexer.afterCalls, answered.lexer]

end

/-- However a scanner is called, its offsets and its byte stay in order, and every part of the
source that it asks for is there, so it answers whatever is called next. The answers are those
of a lexer, and behind a token that it gives it stands farther on than before, at the byte
where the token ends. -/
theorem afterCalls?_safe (source : String) (calls : List Call) : ∃ s,
    (ofSource source).afterCalls? calls = some s ∧ s.source = source ∧
      s.lexer = (Lexer.ofSource source).afterCalls calls ∧ s.InOrder ∧
      s.skipBlanks.source = source ∧ s.skipBlanks.InOrder ∧ s.skipBlanks.Fits ∧
      ∀ call, ∃ token t, s.Answers call token t := by
  have start : (ofSource source).InOrder := by
    rw [ofSource_eq]
    exact standing_inOrder (Nat.zero_le _)
  obtain ⟨s, reached, order, kept, same⟩ := start.afterCalls calls
  obtain ⟨stop, -, within, skips, -⟩ := order.skipBlanks
  have skipped : s.skipBlanks.InOrder := by
    rw [skips]
    exact standing_inOrder within
  have fits : s.skipBlanks.Fits := by
    obtain ⟨t, pulls, -⟩ := order.pull
    exact fits_of_read? skipped.position (Option.isSome_of_eq_some pulls)
  refine ⟨s, reached, kept, same, order, ?_, skipped, fits, order.answers⟩
  rw [skips]
  exact kept

end Scanner

end Scriptlet
