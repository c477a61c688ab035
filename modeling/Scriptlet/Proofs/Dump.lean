import Scriptlet.Command.Outcome
import Scriptlet.Proofs.Lockstep
import Scriptlet.Proofs.Printing

/-!
The token dump, read back. Each of its lines shows the kind of a token and either shows
its text or leaves one out that the kind gives away, and no text has a line feed in it.
So a dump holds all that a parser looks at.
-/

namespace Scriptlet

namespace TokenKind

theorem isOpen_eq (kind : TokenKind) : kind.isOpen = kind.spelling?.isNone := by
  cases kind <;> rfl

theorem name_free (kind : TokenKind) : ' ' ∉ kind.name.toList ∧ '\n' ∉ kind.name.toList := by
  cases kind <;> decide

end TokenKind

namespace Token

def dump (tokens : List Token) : String :=
  String.join (tokens.map (·.dumpLine ++ "\n"))

def readLine? (line : String) : Option (TokenKind × String) :=
  let name := line.toList.takeWhile (· ≠ ' ')
  -- without the blank and the parenthesis behind the name, and the last two characters
  let shown := (line.toList.drop (name.length + 2)).dropLast.dropLast
  (TokenKind.ofName? (String.ofList name)).map fun kind =>
    (kind, kind.spelling?.getD (String.ofList shown))

def readDump? (dump : String) : Option (List (TokenKind × String)) :=
  (Text.lines dump).mapM readLine?

def meaning (t : Token) : TokenKind × String :=
  (t.kind, t.literal)

variable {t : Token}

theorem Spelled.unbroken (h : t.Spelled) : '\n' ∉ t.literal.toList := by
  cases h with
  | ending ended literal => simp [literal]
  | lexeme admits literal =>
    rw [literal, Text.ofCodes, String.toList_ofList]
    intro found
    obtain ⟨b, among, shown⟩ := List.mem_map.1 found
    have visible := admits.visible b among
    rw [Lexeme.eq_of_ofUInt8 shown] at visible
    exact absurd visible.2 (by decide)

-- Each character of a text is a byte shown by its code.
theorem Spelled.narrow (h : t.Spelled) : ∀ c ∈ t.literal.toList, c.toNat ≤ 0xff := by
  cases h with
  | ending ended literal => simp [literal]
  | @lexeme text admits literal =>
    rw [literal, Text.ofCodes, String.toList_ofList]
    exact List.forall_mem_map.2 fun b _ => Nat.le_of_lt_succ b.toNat_lt

theorem Spelled.dumpLine_unbroken (h : t.Spelled) : '\n' ∉ t.dumpLine.toList := by
  have name := t.kind.name_free.2
  have text := h.unbroken
  rw [dumpLine]
  split
  · simp [name, text]
  · simp [name]

theorem Spelled.readLine?_dumpLine (h : t.Spelled) :
    readLine? (t.dumpLine ++ "\n") = some t.meaning := by
  let shown := if t.kind.isOpen then t.literal else ""
  have literal : t.kind.spelling?.getD shown = t.literal := by
    cases fixed : t.kind.spelling? with
    | none => simp [shown, TokenKind.isOpen_eq, fixed]
    | some text => exact (h.literal_eq fixed).symm
  have whole : (t.dumpLine ++ "\n").toList =
      t.kind.name.toList ++ ' ' :: '(' :: (shown.toList ++ [')'] ++ ['\n']) := by
    simp [dumpLine, shown]
  have name : (t.dumpLine ++ "\n").toList.takeWhile (· ≠ ' ') = t.kind.name.toList := by
    rw [whole, List.takeWhile_append_of_pos, List.takeWhile_cons_of_neg (by simp),
      List.append_nil]
    intro c found
    apply decide_eq_true
    rintro rfl
    exact t.kind.name_free.1 found
  have text : ((t.dumpLine ++ "\n").toList.drop (t.kind.name.toList.length + 2)).dropLast.dropLast
      = shown.toList := by
    rw [whole, List.drop_length_add_append, List.drop_succ_cons, List.drop_succ_cons,
      List.drop_zero, List.dropLast_concat, List.dropLast_concat]
  rw [readLine?, name, text, String.ofList_toList, String.ofList_toList, TokenKind.ofName?_name,
    Option.map_some, literal]
  rfl

theorem lines_dump {tokens : List Token} (spelled : ∀ t ∈ tokens, t.Spelled) :
    Text.lines (dump tokens) = tokens.map (·.dumpLine ++ "\n") := by
  have inner : ∀ line ∈ tokens.map dumpLine, '\n' ∉ line.toList := by
    intro line found
    obtain ⟨t, among, rfl⟩ := List.mem_map.1 found
    exact (spelled t among).dumpLine_unbroken
  have same := Text.lines_join inner
  rwa [List.map_map] at same

theorem readDump?_dump {tokens : List Token} (spelled : ∀ t ∈ tokens, t.Spelled) :
    readDump? (dump tokens) = some (tokens.map meaning) := by
  rw [readDump?, lines_dump spelled]
  induction tokens with
  | nil => rfl
  | cons t tokens ih =>
    obtain ⟨first, more⟩ := List.forall_mem_cons.1 spelled
    rw [List.map_cons, List.mapM_cons, first.readLine?_dumpLine, ih more]
    rfl

end Token

theorem Token.forall₂_alike_of_meaning {ts us : List Token}
    (same : us.map Token.meaning = ts.map Token.meaning) :
    List.Forall₂ (Token.Alike fun _ _ => True) ts us := by
  have equal : List.Forall₂ (· = ·) (ts.map Token.meaning) (us.map Token.meaning) := by
    rw [same]
    exact List.forall₂_refl _
  rw [List.forall₂_map_left_iff, List.forall₂_map_right_iff] at equal
  refine equal.imp fun t u same => ?_
  obtain ⟨kind, literal⟩ := Prod.mk.inj same
  exact ⟨kind.symm, literal.symm, trivial, trivial⟩

/-- What was read and found is the same, and nothing but places may differ. -/
structure SameButPlaces (r r' : Program × Parser) : Prop where
  statements : List.Forall₂ (Statement.Alike fun _ _ => True) r.1.statements r'.1.statements
  render : r'.1.render = r.1.render
  size : r'.1.size = r.1.size
  faults : r'.2.diagnostics.map Diagnostic.fault = r.2.diagnostics.map Diagnostic.fault
  messages : r'.2.messages = r.2.messages
  tips : r'.2.diagnostics.map (·.fault.tip) = r.2.diagnostics.map (·.fault.tip)
  pulled : r'.2.pulled = r.2.pulled
  exhausted : r'.2.exhausted = r.2.exhausted

theorem Parser.Twins.sameButPlaces {program read : Program} {p q : Parser}
    (statements : List.Forall₂ (Statement.Alike fun _ _ => True) program.statements read.statements)
    (h : p.Twins (fun _ _ => True) q) : SameButPlaces (program, p) (read, q) where
  statements := statements
  render := Program.render_of_alike statements
  size := statements.length_eq.symm
  faults := Diagnostic.map_fault_of_alike id h.diagnostics
  messages := Diagnostic.map_fault_of_alike Fault.message h.diagnostics
  tips := Diagnostic.map_fault_of_alike Fault.tip h.diagnostics
  pulled := h.pulled
  exhausted := h.exhausted

theorem parse?_of_meaning {source other : String} (policy : Policy)
    (same : (tokenize other).map Token.meaning = (tokenize source).map Token.meaning) :
    Option.Rel SameButPlaces (parse? policy source) (parse? policy other) := by
  have both := Parser.parse?_alike policy (Token.forall₂_alike_of_meaning same)
  generalize parse? policy source = a at both ⊢
  generalize parse? policy other = b at both ⊢
  cases both with
  | none => exact .none
  | some h => exact .some (h.2.sameButPlaces h.1)

namespace Command

/-- A dump has a line for each token, under any options, and the kinds and texts of all
tokens can be read off it. So for sources with the same dump nothing but places can differ
in what is read and found, under any policy that lets one of the parses end. -/
theorem dump_lossless {i : Invocation} {world : World} {origin source : String}
    (takes : i.Takes world true origin source) :
    ∃ dump, (i.run world).code = 0 ∧ (i.run world).output = Text.bytes dump ∧
      Text.lines dump = (tokenize source).map (·.dumpLine ++ "\n") ∧
      Token.readDump? dump = some ((tokenize source).map Token.meaning) ∧
      ∀ (j : Invocation) (world' : World) (origin' other : String),
        j.Takes world' true origin' other → (j.run world').output = (i.run world).output →
          ∀ policy : Policy, policy.maxTokens.isSome ∨ (parse? policy source).isSome ∨
              (parse? policy other).isSome →
            ∃ r r', parse? policy source = some r ∧ parse? policy other = some r' ∧
              SameButPlaces r r' := by
  have shown : i.run world = i.dump source := takes.run_eq
  have spelled := tokenize_spelled source
  rw [shown]
  refine ⟨Token.dump (tokenize source), rfl, rfl, Token.lines_dump spelled,
    Token.readDump?_dump spelled, fun j world' origin' other takes' equal policy ends => ?_⟩
  have shown' : j.run world' = j.dump other := takes'.run_eq
  rw [shown'] at equal
  have equal : Token.dump (tokenize other) = Token.dump (tokenize source) :=
    Text.eq_of_bytes_eq equal
  have same : some _ = some _ := (Token.readDump?_dump (tokenize_spelled other)).symm.trans
    (equal ▸ Token.readDump?_dump spelled)
  have ends : (parse? policy source).isSome ∨ (parse? policy other).isSome :=
    ends.elim (fun limited => .inl (parse?_isSome limited source)) id
  have both := parse?_of_meaning policy (Option.some.inj same)
  generalize parse? policy source = a at both ends ⊢
  generalize parse? policy other = b at both ends ⊢
  cases both with
  | none => simp at ends
  | some agree => exact ⟨_, _, rfl, rfl, agree⟩

theorem dump_lossless_blanks :
    let source := "let x=é;let\x01"
    let other := "\r\nlet\tx = é ; let \x01\n"
    let given : Invocation := ⟨.parse source true true, false, false, some 3⟩
    let named : Invocation := ⟨.parse "a/b.mk" false true, true, true, none⟩
    let world : World := .ofFiles none [] [("a/b.mk", Text.bytes other)]
    (named.run world).output = (given.run world).output ∧
      (∃ dump, (given.run world).output = Text.bytes dump ∧
        Token.readDump? dump = some ((tokenize source).map Token.meaning)) ∧
      ∃ r r', parse? ⟨true, none⟩ source = some r ∧ parse? ⟨true, none⟩ other = some r' ∧
        SameButPlaces r r' := by
  intro source other given named world
  have held : world.read "a/b.mk" = .ok (Text.bytes other) := by rfl
  have takes : given.Takes world true "<source>" source := .inline rfl
  have takes' : named.Takes world true "a/b.mk" other := .file rfl held
  have equal : (named.run world).output = (given.run world).output := by
    have same : Token.dump (tokenize other) = Token.dump (tokenize source) := by decide +kernel
    rw [takes.run_eq, takes'.run_eq]
    exact congrArg Text.bytes same
  have ends : (parse? ⟨true, none⟩ source).isSome := by decide +kernel
  obtain ⟨dump, -, output, -, read, onward⟩ := dump_lossless takes
  exact ⟨equal, ⟨dump, output, read⟩, onward named world "a/b.mk" other takes' equal ⟨true, none⟩
    (.inr (.inl ends))⟩

end Command

end Scriptlet
