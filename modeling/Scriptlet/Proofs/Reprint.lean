import Scriptlet.Proofs.Limit
import Scriptlet.Proofs.Printing
import Scriptlet.Proofs.Seam

/-!
Programs that are printed and read again. The printer puts nothing between two
statements and leaves the place of a missing value empty, and still no text runs
into the next one, and what is skipped between an equals sign and a semicolon is
the printed value and nothing else. So all comes back but the values.
-/

namespace Scriptlet

structure Identifier.IsName (name : Identifier) : Prop where
  letters : Text.IsRun isLetter (Text.bytes name.value)
  free : name.value ∉ TokenKind.reserved.map Prod.fst

/-- A text that ends neither the statement in which it stands nor the input. -/
structure Text.IsInner (text : String) : Prop where
  semicolon : ';' ∉ text.toList
  nul : '\x00' ∉ text.toList

namespace Statement

/-- Begins with its own word, has a name that can be read back, and a value, if any,
that is read to its end. -/
inductive Printable : Statement → Prop
  | letBinding {token : Token} {name : Identifier} {value : Option Identifier}
      (word : token.literal = "let") (named : name.IsName)
      (inner : ∀ v ∈ value, Text.IsInner v.value) : Printable (.letBinding token name value)
  | returnValue {token : Token} {value : Option Identifier} (word : token.literal = "return")
      (inner : ∀ v ∈ value, Text.IsInner v.value) : Printable (.returnValue token value)

/-- A statement and one of the same form, with the same name, that has no value. -/
inductive Rereads : Statement → Statement → Prop
  | letBinding {token token' : Token} {name name' : Identifier} {value : Option Identifier}
      (word : token'.literal = token.literal) (named : name'.value = name.value) :
      Rereads (.letBinding token name value) (.letBinding token' name' none)
  | returnValue {token token' : Token} {value : Option Identifier}
      (word : token'.literal = token.literal) :
      Rereads (.returnValue token value) (.returnValue token' none)

def erase : Statement → Statement
  | letBinding token name _ => letBinding token name none
  | returnValue token _ => returnValue token none

theorem Rereads.render {s s' : Statement} (h : s.Rereads s') : s'.render = s.erase.render := by
  cases h with
  | letBinding word named => simp only [Statement.render, erase, Identifier.render, word, named]
  | returnValue word => simp only [Statement.render, erase, word]

theorem isInner_renderValue {value : Option Identifier}
    (inner : ∀ v ∈ value, Text.IsInner v.value) : Text.IsInner (renderValue value) := by
  cases value with
  | none => exact ⟨by simp [renderValue], by simp [renderValue]⟩
  | some v => exact inner v rfl

end Statement

namespace Program

def erase (program : Program) : Program :=
  ⟨program.statements.map Statement.erase⟩

theorem render_of_rereads {statements read : List Statement}
    (h : List.Forall₂ Statement.Rereads statements read) :
    render ⟨read⟩ = (erase ⟨statements⟩).render := by
  induction h with
  | nil => rfl
  | cons same more ih =>
    rw [render_cons, same.render, ih]
    exact (render_cons _ _).symm

end Program

theorem TokenKind.Stops.semicolon (next : Option UInt8) : Stops (Text.bytes ";") next where
  word run := absurd run (by decide)
  number run := absurd run (by decide)
  sign impossible := absurd impossible (by decide)

theorem Layout.semicolon_free {start : Nat} {input : List UInt8} {tokens : List Token}
    (h : Layout start input tokens) (free : ';'.toUInt8 ∉ input) :
    ∀ t ∈ tokens, t.kind ≠ .semicolon := by
  induction h with
  | ending => simp [Token.ending]
  | @token start gap rest lexeme tokens blank visible opens more ih =>
    simp only [List.mem_append, not_or] at free
    rw [List.forall_mem_cons]
    constructor
    · intro same
      have admits := opens.admits visible
      rw [show lexeme.kind = .semicolon from same] at admits
      rw [admits.eq_spelling ";" rfl] at free
      exact free.2.1 (by decide)
    · exact ih free.2.2

/-- Wherever it stands, the source has such tokens. -/
def ReadAs (P : List Token → Prop) (source : String) : Prop :=
  ∀ start, ∃ tokens, Layout start (Text.bytes source) tokens ∧ P tokens

def Leads (kind : TokenKind) (text : String) (P : List Token → Prop) (tokens : List Token) :
    Prop :=
  ∃ t rest, tokens = t :: rest ∧ t.kind = kind ∧ t.literal = text ∧ P rest

def Closed (P : List Token → Prop) (tokens : List Token) : Prop :=
  ∃ rest, Walk.afterSemicolon tokens = some rest ∧ P rest

section
variable {P Q : List Token → Prop} {kind : TokenKind} {text : String} {tokens : List Token}

theorem Leads.mono (h : Leads kind text P tokens) (imp : ∀ more, P more → Q more) :
    Leads kind text Q tokens := by
  obtain ⟨t, more, rfl, same, literal, holds⟩ := h
  exact ⟨t, more, rfl, same, literal, imp more holds⟩

theorem Leads.length_eq {n : Nat} (h : Leads kind text P tokens)
    (rest : ∀ more, P more → more.length = n) : tokens.length = n + 1 := by
  obtain ⟨t, more, rfl, -, -, holds⟩ := h
  rw [List.length_cons, rest more holds]

theorem Leads.closed (h : Leads .semicolon text P tokens) : Closed P tokens := by
  obtain ⟨t, more, rfl, same, -, holds⟩ := h
  exact ⟨more, if_pos same, holds⟩

end

namespace ReadAs

variable {P Q : List Token → Prop} {source : String}

theorem mono (h : ReadAs P source) (imp : ∀ tokens, P tokens → Q tokens) : ReadAs Q source := by
  intro start
  obtain ⟨tokens, layout, holds⟩ := h start
  exact ⟨tokens, layout, imp tokens holds⟩

theorem blank {gap : String} (blank : ∀ b ∈ Text.bytes gap, isBlank b) :
    ReadAs (Leads .endOfInput "" (· = [])) gap := by
  intro start
  have layout := @Layout.ending start _ [] blank (by simp)
  rw [List.append_nil] at layout
  exact ⟨_, layout, _, _, rfl, rfl, rfl, rfl⟩

theorem empty : ReadAs (Leads .endOfInput "" (· = [])) "" :=
  blank (by simp)

theorem behind_space (h : ReadAs P source) : ReadAs P (" " ++ source) := by
  intro start
  obtain ⟨tokens, layout, holds⟩ := h (start + (Text.bytes " ").length)
  rw [Text.bytes_append]
  exact ⟨tokens, layout.behind_gap (by decide +kernel), holds⟩

theorem token (h : ReadAs P source) {kind : TokenKind} {text : String}
    (admitted : kind.Admits (Text.bytes text)) (ascii : ∀ b ∈ Text.bytes text, b.toNat < 128)
    (stops : TokenKind.Stops (Text.bytes text) (Text.bytes source).head?) :
    ReadAs (Leads kind text P) (text ++ source) := by
  intro start
  obtain ⟨tokens, more, holds⟩ := h (start + (Text.bytes text).length)
  have layout := @Layout.token start [] _ ⟨kind, Text.bytes text⟩ _ (by simp)
    admitted.visible (admitted.opens stops) more
  rw [Text.bytes_append]
  exact ⟨_, layout, _, _, rfl, rfl, Text.ofCodes_bytes ascii, holds⟩

theorem spaced (h : ReadAs P source) {kind : TokenKind} {text : String}
    (admitted : kind.Admits (Text.bytes text)) (ascii : ∀ b ∈ Text.bytes text, b.toNat < 128) :
    ReadAs (Leads kind text P) (text ++ (" " ++ source)) := by
  apply h.behind_space.token admitted ascii
  rw [Text.bytes_append]
  exact .of_seam (.of_blank (by decide))

theorem word (h : ReadAs P source) {text : String}
    (letters : Text.IsRun isLetter (Text.bytes text)) :
    ReadAs (Leads (TokenKind.ofWord text) text P) (text ++ (" " ++ source)) := by
  have ascii := Text.ascii_of_isLetter letters.all
  have admitted := TokenKind.Admits.word letters
  rw [Text.ofCodes_bytes ascii] at admitted
  exact h.spaced admitted ascii

theorem closed (h : ReadAs P source) {text : String} (inner : Text.IsInner text) :
    ReadAs (Closed P) (text ++ (";" ++ source)) := by
  intro start
  have semicolon : ReadAs (Leads .semicolon ";" P) (";" ++ source) :=
    h.token (.sign (by decide) rfl) (by decide +kernel) (.semicolon _)
  obtain ⟨_, behind, t, rest, rfl, same, -, holds⟩ :=
    semicolon (start + (Text.bytes text).length)
  have own := Cursor.layout_tokens ⟨Text.bytes text, start⟩
  have free := own.semicolon_free (Text.not_mem_bytes (by decide) inner.semicolon)
  have nul : 0 ∉ Text.bytes text := Text.not_mem_bytes (by decide) inner.nul
  have seam : ∀ b ∈ (Text.bytes (";" ++ source)).head?, IsSeam b := by
    rw [Text.bytes_append]
    rintro _ ⟨⟩
    exact ⟨by decide, by decide, by decide⟩
  have whole := own.append nul seam behind
  rw [Text.bytes_append]
  refine ⟨_, whole, rest, Walk.afterSemicolon_append (fun s found => ?_) same, holds⟩
  exact free s (List.dropLast_subset _ found)

theorem letBinding {token : Token} {name : Identifier} {value : Option Identifier}
    (word : token.literal = "let") (named : name.IsName)
    (behind : ReadAs P (Statement.renderValue value ++ (";" ++ source))) :
    ReadAs (Leads .letWord "let" (Leads .identifier name.value (Leads .assign "=" P)))
      (Statement.render (.letBinding token name value) ++ source) := by
  have text : Statement.render (.letBinding token name value) ++ source =
      "let" ++ (" " ++ (name.value ++ (" " ++ ("=" ++ (" " ++
        (Statement.renderValue value ++ (";" ++ source))))))) := by
    have sign : " = " = " " ++ ("=" ++ " ") := rfl
    simp only [Statement.render, Identifier.render, word, sign, String.append_assoc]
  have sign := behind.spaced (.sign (by decide) rfl : TokenKind.assign.Admits (Text.bytes "="))
    (by decide +kernel)
  have bound := sign.word named.letters
  rw [TokenKind.ofWord_of_free named.free] at bound
  rw [text]
  exact @ReadAs.word _ _ bound "let" (by decide)

theorem returnValue {token : Token} {value : Option Identifier} (word : token.literal = "return")
    (behind : ReadAs P (Statement.renderValue value ++ (";" ++ source))) :
    ReadAs (Leads .returnWord "return" P)
      (Statement.render (.returnValue token value) ++ source) := by
  have text : Statement.render (.returnValue token value) ++ source =
      "return" ++ (" " ++ (Statement.renderValue value ++ (";" ++ source))) := by
    simp only [Statement.render, word, String.append_assoc]
  rw [text]
  exact @ReadAs.word _ _ behind "return" (by decide)

end ReadAs

/-- A walk over the tokens meets nothing but these statements, each without its value. -/
def Regains (statements : List Statement) (tokens : List Token) : Prop :=
  ∃ read, List.Forall₂ Statement.Rereads statements read ∧
    ∀ strict, Walk.along strict tokens = ⟨read, [], true⟩

section
variable {statements : List Statement} {token : Token} {name : Identifier}
  {value : Option Identifier} {tokens : List Token}

theorem regains_nil (h : Leads .endOfInput "" (· = []) tokens) : Regains [] tokens := by
  obtain ⟨t, rest, rfl, ended, -⟩ := h
  exact ⟨[], .nil, fun _ => Walk.along_ended ended⟩

theorem Regains.letBinding (word : token.literal = "let")
    (h : Leads .letWord "let" (Leads .identifier name.value
      (Leads .assign "=" (Closed (Regains statements)))) tokens) :
    Regains (.letBinding token name value :: statements) tokens := by
  obtain ⟨t, _, rfl, binds, literal, more⟩ := h
  obtain ⟨n, _, rfl, named, same, more⟩ := more
  obtain ⟨sign, _, rfl, assigned, -, left, closed, read, reread, along⟩ := more
  have first : Statement.Rereads (.letBinding token name value) (.letBinding t (.ofToken n) none) :=
    .letBinding (literal.trans word.symm) same
  refine ⟨_, .cons first reread, fun strict => ?_⟩
  rw [Walk.along_letBinding binds named assigned closed, along]
  rfl

theorem Regains.returnValue (word : token.literal = "return")
    (h : Leads .returnWord "return" (Closed (Regains statements)) tokens) :
    Regains (.returnValue token value :: statements) tokens := by
  obtain ⟨t, _, rfl, returns, literal, left, closed, read, reread, along⟩ := h
  refine ⟨_, .cons (.returnValue (literal.trans word.symm)) reread, fun strict => ?_⟩
  rw [Walk.along_returnValue returns closed, along]
  rfl

theorem Statement.Printable.readAs {s : Statement} (h : s.Printable) {source : String}
    (more : ReadAs (Regains statements) source) :
    ReadAs (Regains (s :: statements)) (s.render ++ source) := by
  cases h with
  | letBinding word named inner =>
    have closed := more.closed (isInner_renderValue inner)
    exact (closed.letBinding word named).mono fun _ => Regains.letBinding word
  | returnValue word inner =>
    have closed := more.closed (isInner_renderValue inner)
    exact (closed.returnValue word).mono fun _ => Regains.returnValue word

theorem readAs_render (printable : ∀ s ∈ statements, s.Printable) :
    ReadAs (Regains statements) (Program.render ⟨statements⟩) := by
  induction statements with
  | nil => exact ReadAs.empty.mono fun _ => regains_nil
  | cons s statements ih =>
    obtain ⟨first, more⟩ := List.forall_mem_cons.1 printable
    rw [Program.render_cons]
    exact first.readAs (ih more)

end

/-- A program that was printed is read back without a mistake, strictly or not, with or
without the limit that its text gives. Every statement comes back in its place and with
its name, and only the values are lost. -/
theorem parse?_render {policy : Policy} {program : Program}
    (printable : ∀ s ∈ program.statements, s.Printable)
    (lasts : policy.maxTokens = none ∨ policy = policy.boundedBy program.render) :
    ∃ read p, parse? policy program.render = some (read, p) ∧ p.diagnostics = [] ∧
      List.Forall₂ Statement.Rereads program.statements read.statements ∧
      read.render = program.erase.render := by
  have affords : policy.Affords ((tokenize program.render).length + 1) := by
    rcases lasts with unlimited | bounded
    · exact Policy.affords_of_unlimited unlimited _
    · rw [bounded]
      exact boundedBy_affords policy program.render
  obtain ⟨tokens, layout, read, reread, along⟩ := readAs_render printable 0
  have same : tokenize program.render = tokens := Cursor.tokens_of_layout layout
  have walk := along policy.strict
  rw [← same] at walk
  obtain ⟨p, parsed, -, -, found⟩ := parse?_of_whole affords (by rw [walk])
  rw [walk] at parsed found
  exact ⟨⟨read⟩, p, parsed, found, reread, Program.render_of_rereads reread⟩

theorem parse?_render_awkward : ∃ program : Program,
    (∀ s ∈ program.statements, s.Printable) ∧
    program.render = "let _x = == é\nlet y = (;return ;return 1return;" ∧
    ∃ read p,
      parse? (Policy.boundedBy ⟨true, none⟩ program.render) program.render = some (read, p) ∧
      p.diagnostics = [] ∧
      List.Forall₂ Statement.Rereads program.statements read.statements ∧
      read.render = program.erase.render := by
  let binds : Token := ⟨.letWord, "let", ⟨0, 3⟩⟩
  let returns : Token := ⟨.illegal, "return", ⟨7, 7⟩⟩
  let program : Program :=
    ⟨[.letBinding binds ⟨binds, "_x"⟩ (some ⟨binds, "== é\nlet y = ("⟩), .returnValue returns none,
      .returnValue returns (some ⟨returns, "1return"⟩)]⟩
  have printable : ∀ s ∈ program.statements, s.Printable := by
    refine List.forall_mem_cons.2 ⟨?_, List.forall_mem_cons.2 ⟨?_, List.forall_mem_singleton.2 ?_⟩⟩
    · refine .letBinding rfl ⟨by decide, by decide⟩ ?_
      rintro _ ⟨⟩
      exact ⟨by decide, by decide⟩
    · exact .returnValue rfl (by simp)
    · refine .returnValue rfl ?_
      rintro _ ⟨⟩
      exact ⟨by decide, by decide⟩
  exact ⟨program, printable, by decide, parse?_render printable (.inr rfl)⟩

end Scriptlet
