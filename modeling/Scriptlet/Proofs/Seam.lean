import Scriptlet.Proofs.Alike

/-!
Sources that are put together. Blanks are a seam: the tokens before it do not
depend on what follows, and those behind it are the tokens of the second source,
moved. If the first source holds complete statements only, then a parse of the
whole is a parse of the first source and then one of the second.
-/

namespace Scriptlet

def MovedBy (count : Nat) (m n : Nat) : Prop := n = m + count

theorem Lexeme.Opens.extend {input rest more : List UInt8} {lexeme : Lexeme}
    (h : Opens input lexeme rest) (head : ∀ b ∈ more.head?, b ∈ rest.head? ∨ IsSeam b) :
    Opens (lexeme.text ++ more) lexeme more := by
  cases h with
  | word some letters stops =>
    exact .word some letters fun b next => (head b next).elim (stops b) (·.letter)
  | number some digits stops =>
    exact .number some digits fun b next => (head b next).elim (stops b) (·.digit)
  | operator spelled => exact .operator spelled
  | symbol visible letter digit alone =>
    exact .symbol visible letter digit fun c next => (head c next).elim (alone c) (·.operator?)

theorem Lexeme.Opens.extend_seam {input rest more : List UInt8} {lexeme : Lexeme}
    (h : Opens input lexeme rest) (seam : ∀ b ∈ more.head?, IsSeam b) :
    Opens (lexeme.text ++ (rest ++ more)) lexeme (rest ++ more) := by
  apply h.extend
  intro b head
  cases rest with
  | nil => exact .inr (seam b head)
  | cons c rest => exact .inl head

theorem Token.ending_moved {place count : Nat} (small : place + count < UInt32.size) :
    (Token.ending place).Alike (MovedBy count) (.ending (place + count)) := by
  have span := @Token.span_ending place (by omega)
  have span' := @Token.span_ending (place + count) small
  refine ⟨rfl, rfl, ?_, ?_⟩
  · rw [MovedBy, span.1, span'.1]
  · rw [MovedBy, span.2, span'.2]

theorem Token.ofLexeme_moved {place count : Nat} {lexeme : Lexeme}
    (small : place + count + lexeme.text.length < UInt32.size) :
    (Token.ofLexeme place lexeme).Alike (MovedBy count) (.ofLexeme (place + count) lexeme) := by
  have span := @Token.span_ofLexeme place lexeme (by omega)
  have span' := @Token.span_ofLexeme (place + count) lexeme small
  refine ⟨rfl, rfl, ?_, ?_⟩
  · rw [MovedBy, span.1, span'.1]
  · rw [MovedBy, span.2, span'.2, Nat.add_right_comm]

def Token.moved (count : Nat) (t : Token) : Token :=
  { t with span := .ofOffsets (t.start + count) (t.stop + count) }

theorem Token.Alike.eq_moved {count : Nat} {t u : Token} (h : t.Alike (MovedBy count) u) :
    u = t.moved count := by
  have start : t.start + count = u.start := h.start.symm
  have stop : t.stop + count = u.stop := h.stop.symm
  obtain ⟨kind, literal, ⟨a, b⟩⟩ := u
  rw [Token.moved, ← h.kind, ← h.literal, start, stop]
  simp [Span.ofOffsets, Token.start, Token.stop]

theorem Token.eq_map_moved {count : Nat} {tokens moved : List Token}
    (h : List.Forall₂ (Token.Alike (MovedBy count)) tokens moved) :
    moved = tokens.map (.moved count) := by
  induction h with
  | nil => rfl
  | cons same more ih => rw [List.map_cons, ← ih, same.eq_moved]

namespace Layout

variable {start : Nat} {input rest gap : List UInt8} {tokens moved : List Token}

theorem behind_gap (h : Layout (start + gap.length) input tokens) (blank : ∀ b ∈ gap, isBlank b) :
    Layout start (gap ++ input) tokens := by
  have longer {gap' : List UInt8} (blank' : ∀ b ∈ gap', isBlank b) :
      ∀ b ∈ gap ++ gap', isBlank b := List.forall_mem_append.2 ⟨blank, blank'⟩
  generalize same : start + gap.length = place at h
  cases h with
  | ending blank' ended =>
    have layout := @Layout.ending start _ _ (longer blank') ended
    simpa only [List.length_append, List.append_assoc, ← Nat.add_assoc, same] using layout
  | token blank' visible opens more =>
    rw [← same, Nat.add_assoc start, ← List.length_append] at more ⊢
    rw [← List.append_assoc]
    exact .token (longer blank') visible opens more

theorem append (h : Layout start input tokens) (free : 0 ∉ input)
    (seam : ∀ b ∈ rest.head?, IsSeam b) (more : Layout (start + input.length) rest moved) :
    Layout start (input ++ rest) (tokens.dropLast ++ moved) := by
  induction h with
  | @ending start own left blank ended =>
    have nothing : left = [] := by
      cases left with
      | nil => rfl
      | cons b left => exact absurd (by simp [ended b rfl]) free
    subst nothing
    rw [List.append_nil] at more ⊢
    exact more.behind_gap blank
  | @token start own left lexeme tokens blank visible opens behind ih =>
    have more' : Layout (start + own.length + lexeme.text.length + left.length) rest moved := by
      simpa only [List.length_append, ← Nat.add_assoc] using more
    have onward := ih (fun found => free (by simp [found])) more'
    obtain ⟨body, same, -⟩ := behind.ends
    have nonempty : tokens ≠ [] := by simp [same]
    rw [List.append_assoc, List.append_assoc, List.dropLast_cons_of_ne_nil nonempty]
    exact .token blank visible (opens.extend_seam seam) onward

theorem exists_moved (h : Layout start input tokens) {count : Nat}
    (small : start + count + input.length < UInt32.size) : ∃ moved,
      Layout (start + count) input moved ∧
        List.Forall₂ (Token.Alike (MovedBy count)) tokens moved := by
  induction h with
  | @ending start gap rest blank ended =>
    rw [List.length_append] at small
    have same := Token.ending_moved (by omega : start + gap.length + count < UInt32.size)
    rw [Nat.add_right_comm] at same
    exact ⟨_, .ending blank ended, .cons same .nil⟩
  | @token start gap rest lexeme tokens blank visible opens more ih =>
    simp only [List.length_append] at small
    obtain ⟨moved, layout, alike⟩ := ih (by omega)
    have same := @Token.ofLexeme_moved (start + gap.length) count lexeme (by omega)
    rw [Nat.add_right_comm] at same
    have place : start + gap.length + lexeme.text.length + count =
        start + count + gap.length + lexeme.text.length := by omega
    rw [place] at layout
    exact ⟨_, .token blank visible opens layout, .cons same alike⟩

end Layout

section
variable {a w b : String}

theorem exists_tokenize_append (free : 0 ∉ Text.bytes a) (blank : ∀ c ∈ Text.bytes w, isBlank c)
    (gap : w ≠ "") (short : (Text.bytes (a ++ w ++ b)).length < UInt32.size) :
    ∃ moved, tokenize (a ++ w ++ b) = (tokenize a).dropLast ++ moved ∧
      List.Forall₂ (Token.Alike (MovedBy (Text.bytes (a ++ w)).length)) (tokenize b) moved := by
  simp only [Text.bytes_append, List.length_append] at short ⊢
  have seam : ∀ c ∈ (Text.bytes w ++ Text.bytes b).head?, IsSeam c := by
    have some : Text.bytes w ≠ [] := fun none => gap (Text.eq_of_bytes_eq none)
    rw [List.head?_append_of_ne_nil _ some]
    exact fun c head => .of_blank (blank c (List.mem_of_mem_head? head))
  have second := Cursor.layout_tokenize b
  obtain ⟨moved, layout, alike⟩ :=
    second.exists_moved (by rwa [Nat.zero_add] : 0 + _ + _ < UInt32.size)
  rw [← Nat.add_assoc] at layout
  have whole := (Cursor.layout_tokenize a).append free seam (layout.behind_gap blank)
  refine ⟨moved, ?_, alike⟩
  rw [tokenize, Cursor.ofSource, Text.bytes_append, Text.bytes_append, List.append_assoc]
  exact Cursor.tokens_of_layout whole

/-- Blanks part a source whatever stands before and behind them: its tokens are those of
the first part, without the end of input, and then those of the second, all of them as
many bytes farther on as stand before that part. -/
theorem tokenize_append (free : 0 ∉ Text.bytes a) (blank : ∀ c ∈ Text.bytes w, isBlank c)
    (gap : w ≠ "") (short : (Text.bytes (a ++ w ++ b)).length < UInt32.size) :
    let count := (Text.bytes a).length + (Text.bytes w).length
    ∃ body last, tokenize a = body ++ [last] ∧ last.kind = .endOfInput ∧
      tokenize (a ++ w ++ b) = body ++ (tokenize b).map (.moved count) ∧
      ∀ t ∈ tokenize b, (t.moved count).start = t.start + count ∧
        (t.moved count).stop = t.stop + count := by
  intro count
  obtain ⟨last, whole, ended, -⟩ := tokenize_eq_concat a
  obtain ⟨moved, tokens, alike⟩ := exists_tokenize_append free blank gap short
  rw [Text.bytes_append, List.length_append] at alike
  obtain rfl := Token.eq_map_moved alike
  have each := List.forall₂_same.1 (List.forall₂_map_right_iff.1 alike)
  exact ⟨_, last, whole, ended, tokens, fun t found => ⟨(each t found).start, (each t found).stop⟩⟩

theorem tokenize_append_operator :
    0 ∉ Text.bytes "let é =" ∧ (∀ c ∈ Text.bytes "\r\n", isBlank c) ∧
    (Text.bytes ("let é =" ++ "\r\n" ++ "= 1\x00;")).length < UInt32.size ∧
    ∃ body last, tokenize "let é =" = body ++ [last] ∧ last.kind = .endOfInput ∧
      tokenize ("let é =" ++ "\r\n" ++ "= 1\x00;") =
        body ++ (tokenize "= 1\x00;").map (.moved 10) := by
  have free : 0 ∉ Text.bytes "let é =" := by decide
  have blank : ∀ c ∈ Text.bytes "\r\n", isBlank c := List.all_eq_true.1 (by decide)
  have short : (Text.bytes ("let é =" ++ "\r\n" ++ "= 1\x00;")).length < UInt32.size := by decide
  obtain ⟨body, last, whole, ended, tokens, -⟩ := tokenize_append free blank (by decide) short
  exact ⟨free, blank, short, body, last, whole, ended, tokens⟩

end

/-- Says that the end of input came where another token was expected. -/
def Diagnostic.MeetsEnd (d : Diagnostic) : Prop :=
  ∃ expected literal, d.fault = .unexpectedToken expected .endOfInput literal

theorem Parser.meetsEnd_unexpected (expected : TokenKind) {t : Token}
    (ended : t.kind = .endOfInput) : (unexpected expected t).MeetsEnd :=
  ⟨expected, t.literal, by rw [unexpected, ended]⟩

namespace Walk

def join (w v : Walk) : Walk :=
  ⟨w.statements ++ v.statements, w.diagnostics ++ v.diagnostics, w.whole && v.whole⟩

theorem emit_join (s : Statement) (w v : Walk) : (w.emit s).join v = (w.join v).emit s := rfl

theorem report_join (d : Diagnostic) (w v : Walk) : (w.report d).join v = (w.join v).report d := rfl

section
variable {strict : Bool} {last : Token} {body : List Token}

theorem afterSemicolon_concat {left : List Token}
    (closed : afterSemicolon (body ++ [last]) = some left) (other : last.kind ≠ .semicolon) :
    ∃ more, more <:+ body ∧ left = more ++ [last] ∧
      ∀ us, afterSemicolon (body ++ us) = some (more ++ us) := by
  induction body with
  | nil => simp [afterSemicolon, other] at closed
  | cons t body ih =>
    rw [List.cons_append, afterSemicolon] at closed
    split at closed
    · next found =>
      refine ⟨body, List.suffix_cons t body, (Option.some.inj closed).symm, fun us => ?_⟩
      rw [List.cons_append, afterSemicolon, if_pos found]
    · next other =>
      obtain ⟨more, suffix, same, passes⟩ := ih closed
      refine ⟨more, suffix.trans (List.suffix_cons t body), same, fun us => ?_⟩
      rw [List.cons_append, afterSemicolon, if_neg other, passes]

/-- A walk that comes to the end, and did not expect anything there, goes on
into what is put in the place of the end as if it began there. -/
theorem along_append {all : List Token} (same : all = body ++ [last])
    (ended : last.kind = .endOfInput) (going : ∀ t ∈ body, t.kind ≠ .endOfInput)
    (whole : (along strict all).whole)
    (complete : ∀ d ∈ (along strict all).diagnostics, ¬d.MeetsEnd) (us : List Token) :
    along strict (body ++ us) = (along strict all).join (along strict us) := by
  fun_induction along strict all generalizing body with
  | case1 => simp at same
  | case2 t rest final =>
    cases body with
    | nil => rfl
    | cons u body =>
      obtain ⟨rfl, -⟩ := List.cons.inj same
      exact absurd final (going t List.mem_cons_self)
  | case3 t word =>
    obtain ⟨more, -, impossible⟩ := cons_eq_concat same (by simp [word, ended])
    simp at impossible
  | case4 t word name named =>
    obtain ⟨more, -, behind⟩ := cons_eq_concat same (by simp [word, ended])
    obtain ⟨more, -, impossible⟩ := cons_eq_concat behind (by simp [named, ended])
    simp at impossible
  | case5 t word name named sign rest assigned missing => simp [stranded] at whole
  | case6 t word name named sign rest assigned left closed ih =>
    obtain ⟨_, rfl, same₁⟩ := cons_eq_concat same (by simp [word, ended])
    obtain ⟨_, rfl, same₂⟩ := cons_eq_concat same₁ (by simp [named, ended])
    obtain ⟨body, rfl, rfl⟩ := cons_eq_concat same₂ (by simp [assigned, ended])
    obtain ⟨more, suffix, behind, passes⟩ := afterSemicolon_concat closed (by simp [ended])
    have onward : ∀ t ∈ more, t.kind ≠ .endOfInput := by
      intro t found
      exact going t (by simp [suffix.subset found])
    have next := ih behind onward whole complete
    rw [emit_join, ← next]
    exact along_letBinding word named assigned (passes us)
  | case7 t word name named sign rest other ih =>
    obtain ⟨visible, complete⟩ := List.forall_mem_cons.1 complete
    have more : sign.kind ≠ .endOfInput := mt (Parser.meetsEnd_unexpected .assign) visible
    obtain ⟨_, rfl, same₁⟩ := cons_eq_concat same (by simp [word, ended])
    obtain ⟨_, rfl, same₂⟩ := cons_eq_concat same₁ (by simp [named, ended])
    obtain ⟨body, rfl, rfl⟩ := cons_eq_concat same₂ (by rwa [ended])
    have onward : ∀ t ∈ sign :: body, t.kind ≠ .endOfInput := by
      intro t found
      exact going t (List.mem_cons_of_mem _ (List.mem_cons_of_mem _ found))
    have next := ih rfl onward whole complete
    rw [report_join, ← next]
    exact along_unassigned word named other
  | case8 t word name rest other ih =>
    obtain ⟨visible, complete⟩ := List.forall_mem_cons.1 complete
    have more : name.kind ≠ .endOfInput := mt (Parser.meetsEnd_unexpected .identifier) visible
    obtain ⟨_, rfl, same₁⟩ := cons_eq_concat same (by simp [word, ended])
    obtain ⟨body, rfl, rfl⟩ := cons_eq_concat same₁ (by rwa [ended])
    have onward : ∀ t ∈ name :: body, t.kind ≠ .endOfInput := by
      intro t found
      exact going t (List.mem_cons_of_mem _ found)
    have next := ih rfl onward whole complete
    rw [report_join, ← next]
    exact along_unnamed word other
  | case9 t rest word missing => simp [stranded] at whole
  | case10 t rest word left closed ih =>
    obtain ⟨body, rfl, rfl⟩ := cons_eq_concat same (by simp [word, ended])
    obtain ⟨more, suffix, behind, passes⟩ := afterSemicolon_concat closed (by simp [ended])
    have onward : ∀ t ∈ more, t.kind ≠ .endOfInput := by
      intro t found
      exact going t (by simp [suffix.subset found])
    have next := ih behind onward whole complete
    rw [emit_join, ← next]
    exact along_returnValue word (passes us)
  | case11 t rest reports final binds returns ih =>
    obtain ⟨body, rfl, rfl⟩ := cons_eq_concat same (by rwa [ended])
    obtain ⟨-, onward⟩ := List.forall_mem_cons.1 going
    have next := ih rfl onward whole (List.forall_mem_cons.1 complete).2
    rw [report_join, ← next, List.cons_append, along_unrecognised final binds returns,
      if_pos reports]
  | case12 t rest lenient final binds returns ih =>
    obtain ⟨body, rfl, rfl⟩ := cons_eq_concat same (by rwa [ended])
    obtain ⟨-, onward⟩ := List.forall_mem_cons.1 going
    have next := ih rfl onward whole complete
    rw [← next, List.cons_append, along_unrecognised final binds returns, if_neg lenient]

end

end Walk

/-- If a source holds complete statements only, the parse of it and then a second
one finds what the two parses find, all that is of the second moved behind the first. -/
theorem parse?_append {strict : Bool} {a w b : String} {first second : Program} {p q : Parser}
    (free : 0 ∉ Text.bytes a) (blank : ∀ c ∈ Text.bytes w, isBlank c) (gap : w ≠ "")
    (short : (Text.bytes (a ++ w ++ b)).length < UInt32.size)
    (parsed : parse? ⟨strict, none⟩ a = some (first, p))
    (parsed' : parse? ⟨strict, none⟩ b = some (second, q))
    (complete : ∀ d ∈ p.diagnostics, ¬d.MeetsEnd) :
    let count := (Text.bytes (a ++ w)).length
    ∃ moved found r, parse? ⟨strict, none⟩ (a ++ w ++ b) =
        some (⟨first.statements ++ moved⟩, r) ∧
      r.diagnostics = p.diagnostics ++ found ∧
      List.Forall₂ (Statement.Alike (MovedBy count)) second.statements moved ∧
      List.Forall₂ (Diagnostic.Alike (MovedBy count)) q.diagnostics found := by
  intro count
  obtain ⟨whole, statements, diagnostics⟩ := walk_of_parse? rfl parsed
  obtain ⟨whole', statements', diagnostics'⟩ := walk_of_parse? rfl parsed'
  obtain ⟨last, same, ended, going⟩ := tokenize_eq_concat a
  obtain ⟨moved, tokens, alike⟩ := exists_tokenize_append free blank gap short
  have onward : (Walk.along strict (tokenize b)).Alike _ (Walk.along strict moved) :=
    Walk.along_alike alike
  rw [diagnostics] at complete
  have both := Walk.along_append same ended going whole complete moved
  rw [← tokens] at both
  have total : (Walk.along strict (tokenize (a ++ w ++ b))).whole := by
    rw [both, Walk.join, onward.whole, whole, whole']
    rfl
  have affords := Policy.affords_of_unlimited (rfl : Policy.maxTokens ⟨strict, none⟩ = none)
  obtain ⟨r, parsed, -, -, found⟩ := parse?_of_whole (affords _) total
  refine ⟨_, _, r, ?_, ?_, statements' ▸ onward.statements, diagnostics' ▸ onward.diagnostics⟩
  · rw [parsed, both, statements]
    rfl
  · rw [found, both, diagnostics]
    rfl

theorem parse?_append_mistake : ∃ first p second q,
    parse? ⟨true, none⟩ "let = 1; return x;" = some (first, p) ∧
    parse? ⟨true, none⟩ "let b = 2; let" = some (second, q) ∧
    ∃ moved found r, parse? ⟨true, none⟩ ("let = 1; return x;" ++ "\n" ++ "let b = 2; let") =
        some (⟨first.statements ++ moved⟩, r) ∧
      r.diagnostics = p.diagnostics ++ found ∧
      List.Forall₂ (Statement.Alike (MovedBy 19)) second.statements moved ∧
      List.Forall₂ (Diagnostic.Alike (MovedBy 19)) q.diagnostics found := by
  obtain ⟨⟨first, p⟩, parsed⟩ : ∃ r, parse? ⟨true, none⟩ "let = 1; return x;" = some r :=
    Option.isSome_iff_exists.1 (by decide +kernel)
  obtain ⟨⟨second, q⟩, parsed'⟩ : ∃ r, parse? ⟨true, none⟩ "let b = 2; let" = some r :=
    Option.isSome_iff_exists.1 (by decide +kernel)
  have found : (Walk.along true (tokenize "let = 1; return x;")).diagnostics =
      [⟨.unexpectedToken .identifier .assign "=", 4⟩, ⟨.unrecognisedStatement .assign "=", 4⟩,
       ⟨.unrecognisedStatement .integer "1", 6⟩, ⟨.unrecognisedStatement .semicolon ";", 7⟩] := by
    decide +kernel
  have complete : ∀ d ∈ p.diagnostics, ¬d.MeetsEnd := by
    rw [(walk_of_parse? rfl parsed).2.2, found]
    simp [Diagnostic.MeetsEnd]
  exact ⟨first, p, second, q, parsed, parsed',
    parse?_append (by decide) (by decide +kernel) (by decide) (by decide) parsed parsed' complete⟩

end Scriptlet
