import Scriptlet.Proofs.Accounting
import Scriptlet.Proofs.Coverage

/-!
What the faults of a source point at. Each stands at a token that is not what had to
come there, and they come in the order of these tokens. A limit that is spent cuts the
list off and is reported behind it.
-/

namespace Scriptlet

theorem Layout.starts_increase {start : Nat} {input : List UInt8} {tokens : List Token}
    (h : Layout start input tokens) (small : start + input.length < UInt32.size) :
    tokens.Pairwise fun t u => t.start < u.start := by
  induction h with
  | ending => exact List.pairwise_singleton _ _
  | @token start gap rest lexeme tokens blank visible opens more ih =>
    have long := List.length_pos_iff.2 (Lexeme.text_ne_nil opens.read?_eq)
    simp only [List.length_append] at small
    refine List.pairwise_cons.2 ⟨fun u found => ?_, ih (by omega)⟩
    have := more.start_le (by omega) u found
    rw [(Token.span_ofLexeme (by omega)).1]
    omega

def Fault.literal : Fault → String
  | unexpectedToken _ _ literal => literal
  | unrecognisedStatement _ literal => literal
  | tokenLimitExceeded _ => ""

namespace Parser

/-- Among these tokens there is one at which the fault stands and which is not what the
tokens before it call for, or which starts no statement. -/
inductive Evidence (tokens : List Token) : Diagnostic → Prop
  | unnamed {word t : Token} (behind : [word, t] <:+: tokens) (binds : word.kind = .letWord)
      (other : t.kind ≠ .identifier) : Evidence tokens (unexpected .identifier t)
  | unassigned {word name t : Token} (behind : [word, name, t] <:+: tokens)
      (binds : word.kind = .letWord) (named : name.kind = .identifier)
      (other : t.kind ≠ .assign) : Evidence tokens (unexpected .assign t)
  | stray {t : Token} (among : t ∈ tokens) (going : t.kind ≠ .endOfInput)
      (binds : t.kind ≠ .letWord) (returns : t.kind ≠ .returnWord) :
      Evidence tokens (unrecognised t)

/-- The first fault stands before the second one, or both are about one token, which was
not the one expected and is then found to start no statement. -/
def Precedes (d e : Diagnostic) : Prop :=
  d.position < e.position ∨ d.position = e.position ∧
    ∃ expected t, d = unexpected expected t ∧ e = unrecognised t

/-- Faults that are found on a way through the tokens. -/
inductive Blames (strict : Bool) : List Token → List Diagnostic → Prop
  | stop {tokens : List Token} : Blames strict tokens []
  | pass {t : Token} {rest : List Token} {ds : List Diagnostic} (more : Blames strict rest ds) :
      Blames strict (t :: rest) ds
  | unnamed {t name : Token} {rest : List Token} {ds : List Diagnostic}
      (word : t.kind = .letWord) (other : name.kind ≠ .identifier)
      (more : Blames strict (name :: rest) ds) :
      Blames strict (t :: name :: rest) (unexpected .identifier name :: ds)
  | unassigned {t name sign : Token} {rest : List Token} {ds : List Diagnostic}
      (word : t.kind = .letWord) (named : name.kind = .identifier) (other : sign.kind ≠ .assign)
      (more : Blames strict (sign :: rest) ds) :
      Blames strict (t :: name :: sign :: rest) (unexpected .assign sign :: ds)
  | stray {t : Token} {rest : List Token} {ds : List Diagnostic} (reports : strict = true)
      (going : t.kind ≠ .endOfInput) (binds : t.kind ≠ .letWord) (returns : t.kind ≠ .returnWord)
      (more : Blames strict rest ds) : Blames strict (t :: rest) (unrecognised t :: ds)

section
variable {strict : Bool} {t : Token} {tokens rest : List Token} {d : Diagnostic}
  {ds : List Diagnostic}

theorem Evidence.of_suffix (h : Evidence rest d) (behind : rest <:+ tokens) :
    Evidence tokens d := by
  cases h with
  | unnamed pair binds other => exact .unnamed (pair.trans behind.isInfix) binds other
  | unassigned three binds named other =>
    exact .unassigned (three.trans behind.isInfix) binds named other
  | stray among going binds returns => exact .stray (behind.subset among) going binds returns

theorem Evidence.exists_token (h : Evidence tokens d) :
    ∃ t ∈ tokens, d.position = t.span.start ∧ d.fault.literal = t.literal := by
  cases h with
  | unnamed pair => exact ⟨_, pair.subset (by simp), rfl, rfl⟩
  | unassigned three => exact ⟨_, three.subset (by simp), rfl, rfl⟩
  | stray among => exact ⟨_, among, rfl, rfl⟩

theorem Evidence.exists_start (h : Evidence tokens d) :
    ∃ t ∈ tokens, d.position = t.span.start := by
  obtain ⟨t, among, start, -⟩ := h.exists_token
  exact ⟨t, among, start⟩

theorem Evidence.not_isLimit (h : Evidence tokens d) : d.isLimit = false := by
  cases h with
  | unnamed => rfl
  | unassigned => rfl
  | stray => rfl

theorem Blames.of_suffix (h : Blames strict rest ds) (behind : rest <:+ tokens) :
    Blames strict tokens ds := by
  induction tokens with
  | nil => rwa [← List.suffix_nil.1 behind]
  | cons t tokens ih =>
    rcases List.suffix_cons_iff.1 behind with rfl | within
    · exact h
    · exact .pass (ih within)

theorem Blames.evidence (h : Blames strict tokens ds) : ∀ d ∈ ds, Evidence tokens d := by
  induction h with
  | stop => simp
  | pass onward ih => exact fun d found => (ih d found).of_suffix (List.suffix_cons _ _)
  | @unnamed t name rest ds word other onward ih =>
    have here : [t, name] <:+: t :: name :: rest := ⟨[], rest, rfl⟩
    refine List.forall_mem_cons.2 ⟨.unnamed here word other, fun d found => ?_⟩
    exact (ih d found).of_suffix (List.suffix_cons _ _)
  | @unassigned t name sign rest ds word named other onward ih =>
    have here : [t, name, sign] <:+: t :: name :: sign :: rest := ⟨[], rest, rfl⟩
    refine List.forall_mem_cons.2 ⟨.unassigned here word named other, fun d found => ?_⟩
    exact (ih d found).of_suffix ⟨[t, name], rfl⟩
  | stray reports going binds returns onward ih =>
    refine List.forall_mem_cons.2
      ⟨.stray List.mem_cons_self going binds returns, fun d found => ?_⟩
    exact (ih d found).of_suffix (List.suffix_cons _ _)

theorem Blames.behind (h : Blames strict (t :: rest) ds) :
    ∀ d ∈ ds, d = unrecognised t ∨ ∃ u ∈ rest, d.position = u.span.start := by
  cases h with
  | stop => simp
  | pass onward => exact fun d found => .inr (onward.evidence d found).exists_start
  | unnamed word other onward =>
    refine List.forall_mem_cons.2 ⟨.inr ⟨_, List.mem_cons_self, rfl⟩, fun d found => .inr ?_⟩
    exact (onward.evidence d found).exists_start
  | unassigned word named other onward =>
    refine List.forall_mem_cons.2 ⟨.inr ⟨_, by simp, rfl⟩, fun d found => .inr ?_⟩
    exact ((onward.evidence d found).of_suffix (List.suffix_cons _ _)).exists_start
  | stray reports going binds returns onward =>
    refine List.forall_mem_cons.2 ⟨.inl rfl, fun d found => .inr ?_⟩
    exact (onward.evidence d found).exists_start

/-- A token that was not the one expected may still be found to start nothing, and all
other faults stand behind it. -/
theorem Blames.unexpected_precedes (h : Blames strict (t :: rest) ds)
    (ordered : (t :: rest).Pairwise fun t u => t.start < u.start) (expected : TokenKind) :
    ∀ d ∈ ds, Precedes (unexpected expected t) d := by
  intro d found
  rcases h.behind d found with rfl | ⟨u, among, position⟩
  · exact .inr ⟨rfl, expected, t, rfl, rfl⟩
  · have later : t.start < u.start := (List.pairwise_cons.1 ordered).1 u among
    refine .inl ?_
    rw [position]
    exact UInt32.lt_iff_toNat_lt.2 later

theorem Blames.ordered (h : Blames strict tokens ds)
    (ordered : tokens.Pairwise fun t u => t.start < u.start) : ds.Pairwise Precedes := by
  induction h with
  | stop => exact .nil
  | pass onward ih => exact ih ordered.of_cons
  | unnamed word other onward ih =>
    have next := ordered.of_cons
    exact List.pairwise_cons.2 ⟨onward.unexpected_precedes next .identifier, ih next⟩
  | unassigned word named other onward ih =>
    have next := ordered.of_cons.of_cons
    exact List.pairwise_cons.2 ⟨onward.unexpected_precedes next .assign, ih next⟩
  | @stray t rest ds reports going binds returns onward ih =>
    refine List.pairwise_cons.2 ⟨fun d found => .inl ?_, ih ordered.of_cons⟩
    obtain ⟨u, among, position⟩ := (onward.evidence d found).exists_start
    rw [position]
    exact UInt32.lt_iff_toNat_lt.2 ((List.pairwise_cons.1 ordered).1 u among)

theorem Blames.recognised (h : Blames false tokens ds) (u : Token) : unrecognised u ∉ ds := by
  generalize lenient : false = strict at h
  induction h with
  | stop => exact List.not_mem_nil
  | pass onward ih => exact ih
  | unnamed word other onward ih => simpa [unexpected, unrecognised] using ih
  | unassigned word named other onward ih => simpa [unexpected, unrecognised] using ih
  | stray reports => exact absurd (lenient.trans reports) Bool.false_ne_true

end

end Parser

theorem Walk.blames (strict : Bool) (tokens : List Token) :
    Parser.Blames strict tokens (along strict tokens).diagnostics := by
  have behind {tokens left : List Token} (closed : afterSemicolon tokens = some left) :
      left <:+ tokens := by
    obtain ⟨skipped, t, rfl, -, -⟩ := split_of_afterSemicolon closed
    exact ⟨skipped ++ [t], by simp⟩
  fun_induction along strict tokens with
  | case1 | case2 | case3 | case4 | case5 | case9 => exact .stop
  | case6 t word name named sign rest assigned left closed ih =>
    exact ih.of_suffix ((behind closed).trans ⟨[t, name, sign], rfl⟩)
  | case7 t word name named sign rest other ih => exact .unassigned word named other ih
  | case8 t word name rest other ih => exact .unnamed word other ih
  | case10 t rest word left closed ih =>
    exact ih.of_suffix ((behind closed).trans (List.suffix_cons _ _))
  | case11 t rest strict ended binds returns ih => exact .stray strict ended binds returns ih
  | case12 t rest lenient ended binds returns ih => exact .pass ih

namespace Parser

section
variable {policy : Policy} {source : String} {program : Program} {p : Parser}

theorem InStep.faults {q : Parser} (h : p.InStep q) : q.faults = p.faults := by
  rw [h.same]
  rfl

theorem faults_eq_diagnostics (faults : ∀ d ∈ p.diagnostics, d.isLimit = false) :
    p.faults = p.diagnostics :=
  List.filter_eq_self.2 fun d found => by simp [faults d found]

theorem faults_of_spent {found : List Diagnostic} {limit : Nat} {t : Token}
    (same : p.diagnostics = found ++ [outOfTokens limit t])
    (faults : ∀ d ∈ found, d.isLimit = false) : p.faults = found := by
  have kept : found.filter (fun d => !d.isLimit) = found :=
    List.filter_eq_self.2 fun d among => by simp [faults d among]
  rw [Parser.faults, same, List.filter_append, kept]
  exact List.append_nil found

theorem faults_of_unlimited (unlimited : policy.maxTokens = none)
    (parsed : parse? policy source = some (program, p)) : p.faults = p.diagnostics ∧
      p.diagnostics = (Walk.along policy.strict (tokenize source)).diagnostics := by
  obtain ⟨-, -, found⟩ := walk_of_parse? unlimited parsed
  refine ⟨faults_eq_diagnostics fun d among => ?_, found⟩
  rw [found] at among
  exact ((Walk.blames _ _).evidence d among).not_isLimit

theorem exists_faults_eq_walk {limit : Nat} (limited : policy.maxTokens = some limit)
    (lasts : policy.Affords ((tokenize source).length + 1)) :
    ∃ program q, parse? policy source = some (program, q) ∧
      q.faults = (Walk.along policy.strict (tokenize source)).diagnostics := by
  have blames := Walk.blames policy.strict (tokenize source)
  have faults := fun d found => (blames.evidence d found).not_isLimit
  by_cases whole : (Walk.along policy.strict (tokenize source)).whole
  · obtain ⟨q, parsed, -, -, found⟩ := parse?_of_whole lasts whole
    exact ⟨_, q, parsed, (faults_eq_diagnostics (found ▸ faults)).trans found⟩
  · obtain ⟨last, ends, ended⟩ := getLast?_tokenize source
    obtain ⟨q, parsed, spent⟩ :=
      parse?_of_stranded limited lasts (Bool.eq_false_iff.2 whole) ends ended
    exact ⟨_, q, parsed, faults_of_spent spent.diagnostics faults⟩

/-- A parse finds the faults that a walk finds, as far as its limit lasts. -/
theorem faults_prefix_walk (parsed : parse? policy source = some (program, p)) :
    p.faults <+: (Walk.along policy.strict (tokenize source)).diagnostics := by
  obtain ⟨strict, maxTokens⟩ := policy
  cases maxTokens with
  | none =>
    obtain ⟨same, found⟩ := faults_of_unlimited rfl parsed
    exact same.trans found ▸ List.prefix_rfl
  | some limit =>
    -- The walk has no limit to be spent, so a parse that goes on longer stands between.
    obtain ⟨more, tighter, lasts⟩ := exists_lasting strict limit source
    obtain ⟨long, q, onward, found⟩ := exists_faults_eq_walk rfl lasts
    rw [← found]
    rcases parse?_keeps tighter parsed onward with ⟨-, next⟩ | ⟨-, behind⟩
    · exact next.faults ▸ List.prefix_rfl
    · exact behind.faults

end

/-- The faults of a source come in the order in which they stand in it, and each has its
evidence among the tokens. Two of them stand at one place only if a token that was not the
one expected starts no statement either, and without strictness none do. All that can come
behind them is the report that the limit is spent. -/
theorem parse?_evidence {policy : Policy} {source : String}
    (short : (Text.bytes source).length < UInt32.size) {program : Program} {p : Parser}
    (parsed : parse? policy source = some (program, p)) :
    (p.diagnostics = p.faults ∨ ∃ limit ∈ policy.maxTokens, ∃ t,
      p.diagnostics = p.faults ++ [outOfTokens limit t]) ∧
    (∀ d ∈ p.faults, Evidence (tokenize source) d) ∧ p.faults.Pairwise Precedes ∧
    (policy.strict = false → p.faults.Pairwise fun d e => d.position < e.position) := by
  have blames := Walk.blames policy.strict (tokenize source)
  have first := faults_prefix_walk parsed
  have layout := Cursor.layout_tokenize source
  have ordered := (blames.ordered (layout.starts_increase (by omega))).sublist first.sublist
  refine ⟨?_, fun d found => blames.evidence d (first.subset found), ordered, fun lenient => ?_⟩
  · have moves := parseStatements_moves
      (fun r d (running : r.exhausted = false) (fault : d.isLimit = false) =>
        And.intro running fault) (parseStatements_of_parseProgram parsed)
    obtain ⟨strict, maxTokens⟩ := policy
    cases maxTokens with
    | none => exact .inl (faults_of_unlimited rfl parsed).1.symm
    | some limit =>
      have stops := moves.stopsAt (stopsAt_ofSource strict limit source)
      cases spent : p.exhausted with
      | false => exact .inl (faults_eq_diagnostics (stops.running spent)).symm
      | true =>
        obtain ⟨-, found, same, faults⟩ := stops.spent spent
        refine .inr ⟨limit, rfl, p.current, ?_⟩
        rw [faults_of_spent same faults, same]
  · rw [lenient] at blames first
    refine ordered.imp_of_mem fun _ second precedes => ?_
    rcases precedes with earlier | ⟨-, _, t, -, rfl⟩
    · exact earlier
    · exact absurd (first.subset second) (blames.recognised t)

theorem parse?_evidence_spent :
    let source := "let = 5; let let x y é return a"
    (Text.bytes source).length < UInt32.size ∧ ∃ program p,
      parse? ⟨true, some 15⟩ source = some (program, p) ∧ p.faults.length = 9 ∧
      p.diagnostics.length = 10 ∧ (∀ d ∈ p.faults, Evidence (tokenize source) d) ∧
      p.faults.Pairwise Precedes := by
  intro source
  have short : (Text.bytes source).length < UInt32.size := by decide
  have ends := @parse?_isSome ⟨true, some 15⟩ rfl source
  obtain ⟨⟨program, p⟩, parsed⟩ := Option.isSome_iff_exists.1 ends
  have count : (parse? ⟨true, some 15⟩ source).map (fun result =>
      (result.2.faults.length, result.2.diagnostics.length)) = some (9, 10) := by decide +kernel
  rw [parsed] at count
  obtain ⟨found, all⟩ := Prod.mk.inj (Option.some.inj count)
  obtain ⟨-, evidence, ordered, -⟩ := parse?_evidence short parsed
  exact ⟨short, program, p, parsed, found, all, evidence, ordered⟩

end Parser

end Scriptlet
