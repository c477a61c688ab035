import Scriptlet.Proofs.Walk

/-!
Limits that a source cannot use up. A parse that ends by itself pulls each of
its tokens once and one more, so a limit that allows for that changes nothing.
A parse that would go on for ever ends with the limit, and keeps all that it had
found before it got stuck.
-/

namespace Scriptlet

namespace Parser

section
variable {p : Parser} {policy : Policy} {all tokens : List Token} {ds : List Diagnostic}
  {w : Walk}

/-- Unless it is limited, the loop comes from `p` to a statement that is not
closed, and neither stops nor reports anything from there on. -/
def Hangs (p : Parser) (statements : List Statement) (diagnostics : List Diagnostic) : Prop :=
  ∃ q left statement r, p.Reaches statements q ∧ q.Ahead left ∧ Unclosed left ∧
    q.Searches statement r ∧ ∀ n, (r.advanced n).current.kind ≠ .semicolon ∧
      (r.advanced n).exhausted = false ∧ (r.advanced n).diagnostics = diagnostics

theorem Retraces.hangs (h : p.Retraces policy all ds w) (stranded : w.whole = false)
    (unlimited : policy.maxTokens = none) : p.Hangs w.statements (ds ++ w.diagnostics) := by
  obtain ⟨q, left, reaches, faces, ends⟩ := h
  rw [if_neg (by simp [stranded])] at ends
  obtain ⟨statement, r, ahead, searches, next, missing⟩ :=
    faces.searches_of_unclosed (Policy.affords_of_unlimited unlimited _) ends
  have endless := skipToSemicolon_eq_none_iff.1 (next.skipToSemicolon_endless unlimited missing)
  refine ⟨q, left, statement, r, reaches, faces.ahead, ends, searches, fun n => ?_⟩
  refine ⟨(endless n).1, (endless n).2, ?_⟩
  rw [advanced_of_unlimited (next.policy ▸ unlimited), next.diagnostics]

theorem Faces.exists_concat {last : Token} (h : p.Faces policy all tokens ds)
    (ends : all.getLast? = some last) : ∃ skipped, tokens = skipped ++ [last] := by
  obtain ⟨t, rest, rfl⟩ := h.ahead.exists_cons
  obtain ⟨seen, rfl⟩ := h.suffix
  apply List.getLast?_eq_some_iff.1
  simpa [List.getLast?_append, List.getLast?_cons] using ends

theorem Retraces.parseStatements_spent {limit : Nat} {last : Token}
    (h : p.Retraces policy all ds w) (stranded : w.whole = false)
    (limited : policy.maxTokens = some limit) (lasts : policy.Affords (all.length + 1))
    (ends : all.getLast? = some last) (ended : last.kind = .endOfInput) :
    ∃ q, p.parseStatements = some (w.statements, q) ∧
      q.Spent limit (ds ++ w.diagnostics ++ [outOfTokens limit last]) := by
  obtain ⟨q, left, reaches, faces, unclosed⟩ := h
  rw [if_neg (by simp [stranded])] at unclosed
  obtain ⟨statement, r, ahead, searches, next, missing⟩ :=
    faces.searches_of_unclosed lasts unclosed
  obtain ⟨skipped, rfl⟩ := next.exists_concat ends
  obtain ⟨s, skips, spent⟩ := next.skipToSemicolon_spent ended limited lasts
    fun t found => missing t (List.mem_append_left _ found)
  have parsed : q.parseStatement = some (none, s) := by
    rw [searches.parseStatement_eq, skips]
    rfl
  refine ⟨s, ?_, spent⟩
  rw [reaches.parseStatements_eq, parseStatements_of_round searches.going faces.running parsed,
    advance_of_exhausted spent.exhausted, parseStatements_of_done (.inr spent.exhausted)]
  simp

end

end Parser

section
variable {policy : Policy} {source : String}

theorem parse?_of_stranded {limit : Nat} {last : Token} (limited : policy.maxTokens = some limit)
    (lasts : policy.Affords ((tokenize source).length + 1))
    (stranded : (Walk.along policy.strict (tokenize source)).whole = false)
    (ends : (tokenize source).getLast? = some last) (ended : last.kind = .endOfInput) :
    ∃ q, parse? policy source =
        some (⟨(Walk.along policy.strict (tokenize source)).statements⟩, q) ∧
      q.Spent limit ((Walk.along policy.strict (tokenize source)).diagnostics
        ++ [Parser.outOfTokens limit last]) := by
  have retraces := (Parser.faces_ofSource policy source).retraces lasts
  obtain ⟨q, parsed, spent⟩ := retraces.parseStatements_spent stranded limited lasts ends ended
  refine ⟨q, ?_, spent⟩
  rw [parse?, Parser.parseProgram, parsed]
  rfl

end

theorem boundedBy_affords (policy : Policy) (source : String) :
    (policy.boundedBy source).Affords ((tokenize source).length + 1) := by
  intro limit limited
  have size := (Cursor.layout_tokenize source).length_le
  obtain rfl : (Text.bytes source).length + 2 = limit := by simpa [Policy.boundedBy] using limited
  omega

theorem parse?_limitedFor (policy : Policy) (source : String) :
    parse? (policy.limitedFor source) source = some (parse policy source) :=
  (Option.some_get _).symm

theorem exists_limit_of_lasts {policy : Policy} {source : String}
    (lasts : policy = policy.boundedBy source ∨
      ∃ limit ∈ policy.maxTokens, (tokenize source).length + 1 ≤ limit) :
    ∃ limit, policy.maxTokens = some limit ∧
      policy.Affords ((tokenize source).length + 1) := by
  rcases lasts with bounded | ⟨limit, limited, room⟩
  · refine ⟨_, congrArg Policy.maxTokens bounded, ?_⟩
    rw [bounded]
    exact boundedBy_affords policy source
  · refine ⟨limit, limited, fun limit' limited' => ?_⟩
    obtain rfl : limit = limit' := by simpa [Option.mem_def.1 limited] using limited'
    exact room

/-- The limit that a source gives does not show in a parse that ends without
one. A parse that does not end is cut off by it, at the end of input. -/
theorem parse?_boundedBy (strict : Bool) (source : String) :
    let free : Policy := ⟨strict, none⟩
    let limit := (Text.bytes source).length + 2
    (∀ program p, parse? free source = some (program, p) →
      ∃ q, parse? (free.boundedBy source) source = some (program, q) ∧
        q.diagnostics = p.diagnostics ∧ q.pulled = p.pulled ∧ q.exhausted = false) ∧
    (parse? free source = none → ∃ statements found last q,
      (Parser.ofSource free source).Hangs statements found ∧
        (tokenize source).getLast? = some last ∧ last.kind = .endOfInput ∧
        parse? (free.boundedBy source) source = some (⟨statements⟩, q) ∧
        q.Spent limit (found ++ [Parser.outOfTokens limit last])) ∧
    ∃ program q, parse? (free.boundedBy source) source = some (program, q) ∧
      (q.exhausted ↔ parse? free source = none) := by
  intro free limit
  have lasts := boundedBy_affords free source
  have affords := Policy.affords_of_unlimited (rfl : free.maxTokens = none)
  obtain ⟨last, ends, ended⟩ := getLast?_tokenize source
  by_cases whole : (Walk.along strict (tokenize source)).whole
  · obtain ⟨p, parsed, running, pulled, found⟩ := parse?_of_whole (affords _) whole
    obtain ⟨q, parsed', running', pulled', found'⟩ := parse?_of_whole lasts whole
    refine ⟨fun program p' same => ?_, fun endless => ?_, _, q, parsed', ?_⟩
    · obtain ⟨rfl, rfl⟩ := Prod.mk.inj (Option.some.inj (parsed.symm.trans same))
      exact ⟨q, parsed', found'.trans found.symm, pulled'.trans pulled.symm, running'⟩
    · simp [parsed] at endless
    · simp [running', parsed]
  · have stranded : (Walk.along strict (tokenize source)).whole = false := by simpa using whole
    have retraces := (Parser.faces_ofSource free source).retraces (affords _)
    have endless : parse? free source = none := parse?_of_endless rfl stranded
    have limited : (free.boundedBy source).maxTokens = some limit := rfl
    obtain ⟨q, parsed, spent⟩ := parse?_of_stranded limited lasts stranded ends ended
    refine ⟨fun program p same => ?_, fun _ => ?_, _, q, parsed, ?_⟩
    · simp [endless] at same
    · exact ⟨_, _, last, q, retraces.hangs stranded rfl, ends, ended, parsed, spent⟩
    · simp [spent.exhausted, endless]

end Scriptlet
