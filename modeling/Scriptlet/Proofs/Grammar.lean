import Mathlib.Computability.Language
import Mathlib.Data.List.Basic
import Mathlib.InformationTheory.Coding.UniquelyDecodable
import Scriptlet.Proofs.Limit

/-!
The grammar of the language, as words of token kinds. A program is a sequence
of statements, between which a lenient parser lets any token stand that begins
none. There is one way only to take a program apart, and the parser finds no
fault exactly where there is one.
-/

open Computability InformationTheory

namespace Scriptlet.Grammar

/-- What may stand between the head of a statement and its semicolon. -/
def filler : Language TokenKind :=
  {w | ∀ k ∈ w, k ≠ .semicolon ∧ k ≠ .endOfInput}

def statement : Language TokenKind :=
  {[.letWord, .identifier, .assign]} * filler * {[.semicolon]}
    + {[.returnWord]} * filler * {[.semicolon]}

def other : Language TokenKind :=
  {w | ∃ k, w = [k] ∧ k ≠ .letWord ∧ k ≠ .returnWord ∧ k ≠ .endOfInput}

def factor (strict : Bool) : Language TokenKind :=
  if strict then statement else statement + other

theorem mem_statement_iff {w : List TokenKind} : w ∈ statement ↔ ∃ xs ∈ filler,
    w = .letWord :: .identifier :: .assign :: (xs ++ [.semicolon]) ∨
      w = .returnWord :: (xs ++ [.semicolon]) := by
  have form (head : List TokenKind) : w ∈ ({head} * filler * {[.semicolon]} : Language TokenKind) ↔
      ∃ xs ∈ filler, w = head ++ (xs ++ [.semicolon]) := by
    constructor
    · intro member
      obtain ⟨_, ⟨_, rfl, xs, inside, rfl⟩, _, rfl, rfl⟩ := member
      exact ⟨xs, inside, List.append_assoc ..⟩
    · rintro ⟨xs, inside, rfl⟩
      rw [← List.append_assoc]
      exact Language.append_mem_mul (Language.append_mem_mul rfl inside) rfl
  rw [statement, Language.mem_add, form, form]
  constructor
  · rintro (⟨xs, inside, rfl⟩ | ⟨xs, inside, rfl⟩)
    · exact ⟨xs, inside, .inl rfl⟩
    · exact ⟨xs, inside, .inr rfl⟩
  · rintro ⟨xs, inside, rfl | rfl⟩
    · exact .inl ⟨xs, inside, rfl⟩
    · exact .inr ⟨xs, inside, rfl⟩

theorem mem_factor_iff {strict : Bool} {w : List TokenKind} :
    w ∈ factor strict ↔ w ∈ statement ∨ strict = false ∧ w ∈ other := by
  cases strict with
  | true => simp [factor]
  | false =>
    rw [factor, if_neg Bool.false_ne_true, Language.mem_add]
    simp

def closes : List TokenKind → Bool
  | [] => false
  | k :: rest =>
    if k = .semicolon then rest.isEmpty else k != .endOfInput && closes rest

theorem closes_iff {w : List TokenKind} : closes w ↔ ∃ xs ∈ filler, w = xs ++ [.semicolon] := by
  induction w with
  | nil => simp [closes]
  | cons k rest ih =>
    rw [closes]
    constructor
    · intro h
      split at h
      · next found => exact ⟨[], fun _ impossible => by simp at impossible, by simp_all⟩
      · next other =>
        simp only [Bool.and_eq_true, bne_iff_ne] at h
        obtain ⟨xs, inside, rfl⟩ := ih.1 h.2
        exact ⟨k :: xs, List.forall_mem_cons.2 ⟨⟨other, h.1⟩, inside⟩, rfl⟩
    · rintro ⟨xs, inside, same⟩
      cases xs with
      | nil => simp_all
      | cons x xs =>
        obtain ⟨rfl, rfl⟩ := List.cons.inj same
        obtain ⟨⟨closing, ended⟩, inside⟩ := List.forall_mem_cons.1 inside
        rw [if_neg closing, Bool.and_eq_true, bne_iff_ne]
        exact ⟨ended, ih.2 ⟨xs, inside, rfl⟩⟩

def isStatement : List TokenKind → Bool
  | .letWord :: .identifier :: .assign :: rest => closes rest
  | .returnWord :: rest => closes rest
  | _ => false

theorem isStatement_iff {w : List TokenKind} : isStatement w ↔ w ∈ statement := by
  rw [mem_statement_iff]
  constructor
  · intro h
    unfold isStatement at h
    split at h
    · obtain ⟨xs, inside, rfl⟩ := closes_iff.1 h
      exact ⟨xs, inside, .inl rfl⟩
    · obtain ⟨xs, inside, rfl⟩ := closes_iff.1 h
      exact ⟨xs, inside, .inr rfl⟩
    · simp at h
  · rintro ⟨xs, inside, rfl | rfl⟩
    · exact closes_iff.2 ⟨xs, inside, rfl⟩
    · exact closes_iff.2 ⟨xs, inside, rfl⟩

instance (w : List TokenKind) : Decidable (w ∈ statement) :=
  decidable_of_iff _ isStatement_iff

/-- No word of a statement begins another, for the first semicolon ends each. -/
theorem eq_of_mem_statement {u v r s : List TokenKind} (hu : u ∈ statement) (hv : v ∈ statement)
    (same : u ++ r = v ++ s) : u = v := by
  have split {w : List TokenKind} (h : w ∈ statement) :
      ∃ init, w = init ++ [.semicolon] ∧ .semicolon ∉ init := by
    obtain ⟨xs, inside, rfl | rfl⟩ := mem_statement_iff.1 h
    · refine ⟨.letWord :: .identifier :: .assign :: xs, rfl, ?_⟩
      simpa using fun found => (inside _ found).1 rfl
    · refine ⟨.returnWord :: xs, rfl, ?_⟩
      simpa using fun found => (inside _ found).1 rfl
  obtain ⟨init, rfl, before⟩ := split hu
  obtain ⟨init', rfl, before'⟩ := split hv
  simp only [List.append_assoc, List.singleton_append] at same
  have long : init.length = init'.length := by
    have place := congrArg (List.idxOf .semicolon) same
    rw [List.idxOf_append, if_neg before, List.idxOf_append, if_neg before'] at place
    simpa using place
  rw [(List.append_inj same long).1]

theorem head_of_mem_statement {w : List TokenKind} (h : w ∈ statement) :
    ∃ k rest, w = k :: rest ∧ (k = .letWord ∨ k = .returnWord) := by
  obtain ⟨xs, -, rfl | rfl⟩ := mem_statement_iff.1 h
  · exact ⟨_, _, rfl, .inl rfl⟩
  · exact ⟨_, _, rfl, .inr rfl⟩

theorem append_ne_of_other {u v r s : List TokenKind} (hu : u ∈ statement) (hv : v ∈ other) :
    u ++ r ≠ v ++ s := by
  obtain ⟨k, rest, rfl, word⟩ := head_of_mem_statement hu
  obtain ⟨l, rfl, binds, returns, -⟩ := hv
  intro same
  obtain rfl : k = l := (List.cons.inj same).1
  exact word.elim binds returns

theorem not_statement_of_other {w : List TokenKind} (h : w ∈ other) : w ∉ statement := by
  intro both
  exact append_ne_of_other (r := []) (s := []) both h rfl

theorem eq_of_mem_factor {strict : Bool} {u v r s : List TokenKind} (hu : u ∈ factor strict)
    (hv : v ∈ factor strict) (same : u ++ r = v ++ s) : u = v := by
  rcases mem_factor_iff.1 hu with hu | ⟨-, hu⟩
  · rcases mem_factor_iff.1 hv with hv | ⟨-, hv⟩
    · exact eq_of_mem_statement hu hv same
    · exact absurd same (append_ne_of_other hu hv)
  · rcases mem_factor_iff.1 hv with hv | ⟨-, hv⟩
    · exact absurd same.symm (append_ne_of_other hv hu)
    · obtain ⟨k, rfl, -⟩ := hu
      obtain ⟨l, rfl, -⟩ := hv
      rw [(List.cons.inj same).1]

theorem ne_nil_of_mem_factor {strict : Bool} {w : List TokenKind} (h : w ∈ factor strict) :
    w ≠ [] := by
  rcases mem_factor_iff.1 h with h | ⟨-, k, rfl, -⟩
  · obtain ⟨k, rest, rfl, -⟩ := head_of_mem_statement h
    simp
  · simp

theorem uniquelyDecodable_factor (strict : Bool) :
    UniquelyDecodable (factor strict : Set (List TokenKind)) := by
  intro us vs hu hv same
  induction us generalizing vs with
  | nil =>
    cases vs with
    | nil => rfl
    | cons v vs =>
      have := ne_nil_of_mem_factor (hv v List.mem_cons_self)
      simp [this] at same
  | cons u us ih =>
    cases vs with
    | nil =>
      have := ne_nil_of_mem_factor (hu u List.mem_cons_self)
      simp [this] at same
    | cons v vs =>
      obtain ⟨first, others⟩ := List.forall_mem_cons.1 hu
      obtain ⟨first', others'⟩ := List.forall_mem_cons.1 hv
      rw [List.flatten_cons, List.flatten_cons] at same
      obtain rfl := eq_of_mem_factor first first' same
      rw [ih vs others others' (List.append_cancel_left same)]

structure Splits (strict : Bool) (tokens : List Token) (factors : List (List Token)) : Prop where
  whole : factors.flatten = tokens
  each : ∀ f ∈ factors, f.map Token.kind ∈ factor strict

/-- The statement that a factor stands for. -/
inductive Denotes : List Token → Statement → Prop
  | letBinding {t name : Token} {rest : List Token} (word : t.kind = .letWord) :
      Denotes (t :: name :: rest) (.letBinding t (.ofToken name) none)
  | returnValue {t : Token} {rest : List Token} (word : t.kind = .returnWord) :
      Denotes (t :: rest) (.returnValue t none)

def statementsAmong (factors : List (List Token)) : List (List Token) :=
  factors.filter fun f => f.map Token.kind ∈ statement

theorem along_of_statement {f : List Token} (h : f.map Token.kind ∈ statement) :
    ∃ s, Denotes f s ∧ ∀ strict rest,
      Walk.along strict (f ++ rest) = (Walk.along strict rest).emit s := by
  have closed {ys : List Token} {xs : List TokenKind} (inside : xs ∈ filler)
      (same : ys.map Token.kind = xs ++ [.semicolon]) (rest : List Token) :
      Walk.afterSemicolon (ys ++ rest) = some rest := by
    obtain ⟨skipped, final, rfl, rfl, last⟩ := List.map_eq_append_iff.1 same
    obtain ⟨s, rfl, found⟩ := List.map_eq_singleton_iff.1 last
    rw [List.append_assoc]
    exact Walk.afterSemicolon_append
      (fun u member => (inside _ (List.mem_map_of_mem member)).1) found
  obtain ⟨xs, inside, same | same⟩ := mem_statement_iff.1 h
  · obtain ⟨t, _, rfl, word, same⟩ := List.map_eq_cons_iff.1 same
    obtain ⟨name, _, rfl, named, same⟩ := List.map_eq_cons_iff.1 same
    obtain ⟨sign, rest, rfl, assigned, same⟩ := List.map_eq_cons_iff.1 same
    exact ⟨_, .letBinding word, fun strict left =>
      Walk.along_letBinding word named assigned (closed inside same left)⟩
  · obtain ⟨t, rest, rfl, word, same⟩ := List.map_eq_cons_iff.1 same
    exact ⟨_, .returnValue word, fun strict left =>
      Walk.along_returnValue word (closed inside same left)⟩

theorem along_of_other {f : List Token} (h : f.map Token.kind ∈ other) (rest : List Token) :
    Walk.along false (f ++ rest) = Walk.along false rest := by
  obtain ⟨k, same, binds, returns, ended⟩ := h
  obtain ⟨t, rfl, rfl⟩ := List.map_eq_singleton_iff.1 same
  exact Walk.along_other ended binds returns

theorem along_of_splits {strict : Bool} {tokens : List Token} {last : Token}
    {factors : List (List Token)} (h : Splits strict tokens factors)
    (ended : last.kind = .endOfInput) :
    (Walk.along strict (tokens ++ [last])).whole ∧
      (Walk.along strict (tokens ++ [last])).diagnostics = [] ∧
      List.Forall₂ Denotes (statementsAmong factors)
        (Walk.along strict (tokens ++ [last])).statements := by
  induction factors generalizing tokens with
  | nil =>
    obtain rfl := h.whole
    rw [List.flatten_nil, List.nil_append, Walk.along_ended ended]
    exact ⟨rfl, rfl, .nil⟩
  | cons f factors ih =>
    obtain rfl := h.whole
    obtain ⟨first, others⟩ := List.forall_mem_cons.1 h.each
    have rest := ih ⟨rfl, others⟩
    rw [List.flatten_cons, List.append_assoc, statementsAmong]
    rcases mem_factor_iff.1 first with member | ⟨rfl, member⟩
    · obtain ⟨s, denotes, emits⟩ := along_of_statement member
      rw [emits, List.filter_cons_of_pos (by simpa using member)]
      exact ⟨rest.1, rest.2.1, .cons denotes rest.2.2⟩
    · have apart := not_statement_of_other member
      rw [along_of_other member, List.filter_cons_of_neg (by simpa using apart)]
      exact rest

section
variable {strict : Bool} {t last : Token} {tokens rest : List Token}

theorem closed_of_afterSemicolon {left : List Token}
    (closed : Walk.afterSemicolon rest = some left) (same : rest = tokens ++ [last])
    (ended : last.kind = .endOfInput) (going : ∀ t ∈ tokens, t.kind ≠ .endOfInput) :
    ∃ body more, tokens = body ++ more ∧ left = more ++ [last] ∧
      ∃ xs ∈ filler, body.map Token.kind = xs ++ [.semicolon] := by
  obtain ⟨skipped, s, rfl, others, found⟩ := Walk.split_of_afterSemicolon closed
  obtain rfl | ⟨more, final, rfl⟩ := List.eq_nil_or_concat left
  · obtain ⟨-, rfl⟩ := List.append_inj' same rfl |>.imp id List.singleton_inj.1
    simp [found] at ended
  · rw [List.concat_eq_append, ← List.cons_append, ← List.append_assoc] at same
    obtain ⟨rfl, final⟩ := List.append_inj' same rfl
    refine ⟨skipped ++ [s], more, by simp, by rw [List.concat_eq_append, final], ?_⟩
    refine ⟨skipped.map Token.kind, fun k member => ?_, by simp [found]⟩
    obtain ⟨t, among, rfl⟩ := List.mem_map.1 member
    exact ⟨others t among, going t (List.mem_append_left _ among)⟩

theorem Splits.cons {f : List Token} {factors : List (List Token)}
    (member : f.map Token.kind ∈ factor strict) (h : Splits strict tokens factors) :
    Splits strict (f ++ tokens) (f :: factors) where
  whole := by rw [List.flatten_cons, h.whole]
  each := List.forall_mem_cons.2 ⟨member, h.each⟩

theorem splits_of_along {all : List Token} (same : all = tokens ++ [last])
    (ended : last.kind = .endOfInput) (going : ∀ t ∈ tokens, t.kind ≠ .endOfInput)
    (whole : (Walk.along strict all).whole) (clean : (Walk.along strict all).diagnostics = []) :
    ∃ factors, Splits strict tokens factors := by
  -- The steps that report or get stranded are out, and each other one is a factor.
  fun_induction Walk.along strict all generalizing tokens with
  | case1 => simp at same
  | case2 t rest final =>
    cases tokens with
    | nil => exact ⟨[], rfl, by simp⟩
    | cons u tokens =>
      obtain ⟨rfl, -⟩ := List.cons.inj same
      exact absurd final (going t List.mem_cons_self)
  | case3 t word =>
    obtain ⟨more, -, impossible⟩ := cons_eq_concat same (by simp [word, ended])
    simp at impossible
  | case4 t word name named =>
    obtain ⟨more, -, behind⟩ := cons_eq_concat same (by simp [word, ended])
    obtain ⟨more, -, impossible⟩ := cons_eq_concat behind (by simp [named, ended])
    simp at impossible
  | case5 t word name named sign rest assigned missing => simp [Walk.stranded] at whole
  | case6 t word name named sign rest assigned left closed ih =>
    obtain ⟨_, rfl, same₁⟩ := cons_eq_concat same (by simp [word, ended])
    obtain ⟨_, rfl, same₂⟩ := cons_eq_concat same₁ (by simp [named, ended])
    obtain ⟨_, rfl, same₃⟩ := cons_eq_concat same₂ (by simp [assigned, ended])
    obtain ⟨-, -, -, inner⟩ : _ ∧ _ ∧ _ ∧ _ := by simpa only [List.forall_mem_cons] using going
    obtain ⟨body, more, rfl, behind, xs, inside, kinds⟩ :=
      closed_of_afterSemicolon closed same₃ ended inner
    have onward := fun t found => inner t (List.mem_append_right body found)
    obtain ⟨factors, splits⟩ := ih behind onward whole clean
    have member : (t :: name :: sign :: body).map Token.kind ∈ statement :=
      mem_statement_iff.2 ⟨xs, inside, .inl (by simp [word, named, assigned, kinds])⟩
    have more := splits.cons (mem_factor_iff.2 (.inl member))
    exact ⟨_, more⟩
  | case7 t word name named sign rest other ih => simp [Walk.report] at clean
  | case8 t word name rest other ih => simp [Walk.report] at clean
  | case9 t rest word missing => simp [Walk.stranded] at whole
  | case10 t rest word left closed ih =>
    obtain ⟨_, rfl, same₁⟩ := cons_eq_concat same (by simp [word, ended])
    obtain ⟨-, inner⟩ := List.forall_mem_cons.1 going
    obtain ⟨body, more, rfl, behind, xs, inside, kinds⟩ :=
      closed_of_afterSemicolon closed same₁ ended inner
    have onward := fun t found => inner t (List.mem_append_right body found)
    obtain ⟨factors, splits⟩ := ih behind onward whole clean
    have member : (t :: body).map Token.kind ∈ statement :=
      mem_statement_iff.2 ⟨xs, inside, .inr (by simp [word, kinds])⟩
    have more := splits.cons (mem_factor_iff.2 (.inl member))
    exact ⟨_, more⟩
  | case11 t rest reports final binds returns ih => simp [Walk.report] at clean
  | case12 t rest lenient final binds returns ih =>
    obtain ⟨more, rfl, behind⟩ := cons_eq_concat same (by rwa [ended])
    obtain ⟨-, inner⟩ := List.forall_mem_cons.1 going
    obtain ⟨factors, splits⟩ := ih behind inner whole clean
    obtain rfl : strict = false := by simpa using lenient
    have member : [t].map Token.kind ∈ other := ⟨t.kind, rfl, binds, returns, final⟩
    have more := splits.cons (mem_factor_iff.2 (.inr ⟨rfl, member⟩))
    exact ⟨_, more⟩

theorem exists_splits {words : List (List TokenKind)} (same : tokens.map Token.kind = words.flatten)
    (member : ∀ w ∈ words, w ∈ factor strict) : ∃ factors, Splits strict tokens factors := by
  induction words generalizing tokens with
  | nil =>
    obtain rfl := List.map_eq_nil_iff.1 same
    exact ⟨[], rfl, by simp⟩
  | cons w words ih =>
    rw [List.flatten_cons] at same
    obtain ⟨f, rest, rfl, rfl, behind⟩ := List.map_eq_append_iff.1 same
    obtain ⟨first, others⟩ := List.forall_mem_cons.1 member
    obtain ⟨factors, splits⟩ := ih behind others
    exact ⟨f :: factors, splits.cons first⟩

theorem mem_kstar_iff :
    tokens.map Token.kind ∈ (factor strict)∗ ↔ ∃ factors, Splits strict tokens factors := by
  rw [Language.mem_kstar]
  constructor
  · rintro ⟨words, same, member⟩
    exact exists_splits same member
  · rintro ⟨factors, rfl, each⟩
    refine ⟨factors.map (List.map Token.kind), List.map_flatten, fun w found => ?_⟩
    obtain ⟨f, among, rfl⟩ := List.mem_map.1 found
    exact each f among

theorem Splits.unique {factors factors' : List (List Token)} (h : Splits strict tokens factors)
    (h' : Splits strict tokens factors') : factors = factors' := by
  have kinds {fs : List (List Token)} (h : Splits strict tokens fs) :
      (∀ w ∈ fs.map (List.map Token.kind), w ∈ factor strict) ∧
        (fs.map (List.map Token.kind)).flatten = tokens.map Token.kind := by
    refine ⟨fun w found => ?_, by rw [← List.map_flatten, h.whole]⟩
    obtain ⟨f, among, rfl⟩ := List.mem_map.1 found
    exact h.each f among
  have same := uniquelyDecodable_factor strict _ _ (kinds h).1 (kinds h').1
    ((kinds h).2.trans (kinds h').2.symm)
  have lengths (fs : List (List Token)) :
      fs.map List.length = (fs.map (List.map Token.kind)).map List.length := by
    simp [Function.comp_def]
  apply List.eq_iff_flatten_eq.2
  refine ⟨h.whole.trans h'.whole.symm, ?_⟩
  rw [lengths, lengths, same]

end

section
variable {policy : Policy} {source : String} {body : List Token} {last : Token}

theorem exists_parse?_eq_walk {limit : Nat} (limited : policy.maxTokens = some limit)
    (lasts : policy.Affords ((tokenize source).length + 1))
    (whole : tokenize source = body ++ [last]) (ended : last.kind = .endOfInput)
    (going : ∀ t ∈ body, t.kind ≠ .endOfInput) : ∃ p, parse? policy source =
      some (⟨(Walk.along policy.strict (tokenize source)).statements⟩, p) ∧
        (p.diagnostics = [] ↔ ∃ factors, Splits policy.strict body factors) := by
  by_cases complete : (Walk.along policy.strict (tokenize source)).whole
  · obtain ⟨p, parsed, -, -, found⟩ := parse?_of_whole lasts complete
    refine ⟨p, parsed, ?_⟩
    rw [found]
    constructor
    · intro clean
      exact splits_of_along whole ended going complete clean
    · rintro ⟨factors, splits⟩
      rw [whole]
      exact (along_of_splits splits ended).2.1
  · have stranded : (Walk.along policy.strict (tokenize source)).whole = false := by
      simpa using complete
    have ends : (tokenize source).getLast? = some last := by rw [whole, List.getLast?_concat]
    obtain ⟨p, parsed, spent⟩ := parse?_of_stranded limited lasts stranded ends ended
    refine ⟨p, parsed, ?_⟩
    rw [spent.diagnostics]
    constructor
    · intro clean
      simp at clean
    · rintro ⟨factors, splits⟩
      rw [whole] at complete
      exact absurd (along_of_splits splits ended).1 complete

end

/-- Under a limit that the source cannot use up, the parser finds no fault
exactly in the words of the grammar. There is one way only to take such a word
apart, and the program has a statement for each factor that is one. -/
theorem parse?_clean_iff (policy : Policy) (source : String)
    (lasts : policy = policy.boundedBy source ∨
      ∃ limit ∈ policy.maxTokens, (tokenize source).length + 1 ≤ limit) :
    let body := (tokenize source).dropLast
    ∃ program p, parse? policy source = some (program, p) ∧
      (p.diagnostics = [] ↔ body.map Token.kind ∈ (factor policy.strict)∗) ∧
      (p.diagnostics = [] → ∃! factors, Splits policy.strict body factors) ∧
      ∀ factors, Splits policy.strict body factors →
        program.size = (statementsAmong factors).length ∧
          List.Forall₂ Denotes (statementsAmong factors) program.statements := by
  intro body
  obtain ⟨limit, limited, affords⟩ := exists_limit_of_lasts lasts
  obtain ⟨last, whole, ended, going⟩ := tokenize_eq_concat source
  obtain ⟨p, parsed, clean⟩ := exists_parse?_eq_walk limited affords whole ended going
  refine ⟨_, p, parsed, clean.trans mem_kstar_iff.symm, fun found => ?_, fun factors splits => ?_⟩
  · obtain ⟨factors, splits⟩ := clean.1 found
    exact ⟨factors, splits, fun other splits' => splits'.unique splits⟩
  · have pairs := (along_of_splits splits ended).2.2
    rw [← whole] at pairs
    exact ⟨pairs.length_eq.symm, pairs⟩

theorem parse?_clean_iff_two : ∃ program p,
    parse? (.boundedBy ⟨true, none⟩ "return; let a = 1;") "return; let a = 1;" =
      some (program, p) ∧ p.diagnostics = [] ∧ program.size = 2 := by
  obtain ⟨program, p, parsed, clean, -, denotes⟩ :=
    parse?_clean_iff (.boundedBy ⟨true, none⟩ "return; let a = 1;") "return; let a = 1;" (.inl rfl)
  let body := (tokenize "return; let a = 1;").dropLast
  have member : ∀ f ∈ [body.take 2, body.drop 2], f.map Token.kind ∈ statement := by
    decide +kernel
  have splits : Splits true body [body.take 2, body.drop 2] := ⟨by simp, member⟩
  refine ⟨program, p, parsed, clean.2 (mem_kstar_iff.2 ⟨_, splits⟩), ?_⟩
  rw [(denotes _ splits).1]
  decide +kernel

end Scriptlet.Grammar
