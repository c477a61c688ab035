import Scriptlet.Proofs.Stream

/-!
A lexer in the hands of a user, who may pull tokens and go on with the iteration in any
order. Both take the next token from one stream. Only the iteration comes to an end, once it
has shown the end of input itself, and behind the end of input nothing moves any more.
-/

namespace Scriptlet

inductive Call
  | pull
  | next
deriving DecidableEq

namespace Lexer

def answer (l : Lexer) : Call → Option Token × Lexer
  | .pull => (some l.pull.1, l.pull.2)
  | .next => l.next?

/-- The calls, each with the token that it was answered with, if any. -/
def trace (l : Lexer) : List Call → List (Call × Option Token)
  | [] => []
  | call :: more => (call, (l.answer call).1) :: (l.answer call).2.trace more

def afterCalls (l : Lexer) : List Call → Lexer
  | [] => l
  | call :: more => (l.answer call).2.afterCalls more

def given (trace : List (Call × Option Token)) : List Token :=
  trace.filterMap Prod.snd

/-- The iteration has come to the end of input. -/
def ShowsEnd (trace : List (Call × Option Token)) : Prop :=
  ∃ last, (.next, some last) ∈ trace ∧ last.kind = .endOfInput

section
variable {l : Lexer} {calls : List Call} {before after : List (Call × Option Token)}

theorem answer_cases (l : Lexer) (call : Call) :
    (call = .next ∧ l.ended) ∧ l.answer call = (none, l) ∨
    ¬(call = .next ∧ l.ended) ∧ ∃ ended, l.answer call =
        (some l.cursor.next.1, ⟨l.cursor.next.2, ended⟩) ∧
      (ended ↔ l.ended ∨ call = .next ∧ l.cursor.next.1.kind = .endOfInput) := by
  cases call with
  | pull => exact .inr ⟨by simp, l.ended, rfl, by simp⟩
  | next =>
    by_cases ended : l.ended
    · exact .inl ⟨⟨rfl, ended⟩, by rw [answer, next?, if_pos ended]⟩
    · refine .inr ⟨fun both => ended both.2, _, by rw [answer, next?, if_neg ended], ?_⟩
      simp [ended]

@[simp]
theorem given_cons_some {call : Call} {token : Token} :
    given ((call, some token) :: after) = token :: given after :=
  rfl

theorem showsEnd_append : ShowsEnd (before ++ after) ↔ ShowsEnd before ∨ ShowsEnd after := by
  simp only [ShowsEnd, List.mem_append, or_and_right, exists_or]

theorem showsEnd_single {call : Call} {token : Token} : ShowsEnd [(call, some token)] ↔
    call = .next ∧ token.kind = .endOfInput := by
  simp only [ShowsEnd, List.mem_singleton, Prod.mk.injEq, Option.some.injEq]
  constructor
  · rintro ⟨last, ⟨rfl, rfl⟩, ended⟩
    exact ⟨rfl, ended⟩
  · rintro ⟨rfl, ended⟩
    exact ⟨token, ⟨rfl, rfl⟩, ended⟩

theorem answer_eq_none_iff (l : Lexer) (call : Call) :
    (l.answer call).1 = none ↔ call = .next ∧ l.ended := by
  rcases l.answer_cases call with ⟨finished, same⟩ | ⟨going, ended, same, -⟩
  · rw [same]
    exact iff_of_true rfl finished
  · rw [same]
    exact iff_of_false (Option.some_ne_none _) going

theorem ended_answer (l : Lexer) (call : Call) :
    (l.answer call).2.ended ↔ l.ended ∨ ShowsEnd [(call, (l.answer call).1)] := by
  rcases l.answer_cases call with ⟨⟨-, finished⟩, same⟩ | ⟨-, ended, same, iff⟩
  · rw [same]
    exact iff_of_true finished (.inl finished)
  · rw [same, showsEnd_single]
    exact iff

theorem ended_afterCalls (l : Lexer) (calls : List Call) :
    (l.afterCalls calls).ended ↔ l.ended ∨ ShowsEnd (l.trace calls) := by
  induction calls generalizing l with
  | nil => simp [afterCalls, trace, ShowsEnd]
  | cons call more ih =>
    rw [afterCalls, ih, ended_answer, or_assoc, ← showsEnd_append]
    rfl

theorem trace_calls (l : Lexer) (calls : List Call) : (l.trace calls).map Prod.fst = calls := by
  induction calls generalizing l with
  | nil => rfl
  | cons call more ih => rw [trace, List.map_cons, ih]

theorem given_trace (l : Lexer) (calls : List Call) : given (l.trace calls) =
    (List.range (given (l.trace calls)).length).map l.cursor.stream := by
  induction calls generalizing l with
  | nil => rfl
  | cons call more ih =>
    rcases l.answer_cases call with ⟨-, same⟩ | ⟨-, ended, same, -⟩
    · rw [trace, same]
      exact ih l
    · rw [trace, same, given_cons_some, List.length_cons, List.range_succ_eq_map, List.map_cons,
        List.map_map, Cursor.stream_zero]
      refine congrArg _ ((ih _).trans (List.map_congr_left fun n _ => ?_))
      exact (l.cursor.stream_succ n).symm

theorem cursor_afterCalls (l : Lexer) (calls : List Call) : (l.afterCalls calls).cursor =
    l.cursor.after (given (l.trace calls)).length := by
  induction calls generalizing l with
  | nil => rfl
  | cons call more ih =>
    rcases l.answer_cases call with ⟨-, same⟩ | ⟨-, ended, same, -⟩
    · rw [afterCalls, trace, same]
      exact ih l
    · rw [afterCalls, trace, same, ih]
      rfl

theorem exists_split_of_trace {call : Call} {token : Option Token}
    (split : l.trace calls = before ++ (call, token) :: after) : ∃ earlier,
      l.trace earlier = before ∧ ((l.afterCalls earlier).answer call).1 = token := by
  induction before generalizing l calls with
  | nil =>
    cases calls with
    | nil => simp [trace] at split
    | cons first more =>
      obtain ⟨rfl, rfl⟩ := Prod.mk.inj (List.cons.inj split).1
      exact ⟨[], rfl, rfl⟩
  | cons entry before ih =>
    cases calls with
    | nil => simp [trace] at split
    | cons first more =>
      obtain ⟨rfl, onward⟩ := List.cons.inj split
      obtain ⟨earlier, rfl, found⟩ := ih onward
      exact ⟨first :: earlier, rfl, found⟩

theorem drain_of_ended (ended : l.ended) : l.drain.1 = [] := by
  rw [drain]
  split
  · rfl
  · next shown => simp [next?, ended] at shown

theorem drain_of_running (running : l.ended = false) : l.drain.1 = l.cursor.tokens := by
  fun_induction drain l with
  | case1 l m none => simp [next?, running] at none
  | case2 l token m some ih =>
    rw [next?, running, if_neg Bool.false_ne_true] at some
    obtain ⟨shown, rfl⟩ := Prod.mk.inj some
    obtain rfl := Option.some.inj shown
    by_cases ended : l.cursor.next.1.kind = .endOfInput
    · rw [drain_of_ended (by simpa using ended), Cursor.tokens_of_end ended]
    · rw [ih (by simpa using ended), Cursor.tokens_of_token ended]

end

/-- However a lexer is asked for tokens, it gives those of the stream in their order, each
to one call. It gives none only where the iteration goes on that has shown the end of input,
and from the first time that this was given on it stays where it is. What an iteration still
shows is the rest of the tokens up to the end of input, or nothing if it has shown that. -/
theorem trace_ofSource (source : String) (calls : List Call) :
    let trace := (ofSource source).trace calls
    let l := (ofSource source).afterCalls calls
    trace.map Prod.fst = calls ∧
    given trace = (List.range (given trace).length).map (stream source) ∧
    (∀ before call token after, trace = before ++ (call, token) :: after →
      (token = none ↔ call = .next ∧ ShowsEnd before)) ∧
    ((∃ last ∈ given trace, last.kind = .endOfInput) →
      ∀ more, (l.afterCalls more).cursor = l.cursor) ∧
    (ShowsEnd trace → l.drain.1 = []) ∧
    ∃ body last, tokenize source = body ++ [last] ∧ last.kind = .endOfInput ∧
      (∀ t ∈ body, t.kind ≠ .endOfInput) ∧
      (¬ShowsEnd trace → l.drain.1 = body.drop (given trace).length ++ [last]) := by
  intro trace l
  have order : given trace = (List.range (given trace).length).map (stream source) :=
    given_trace (ofSource source) calls
  have cursor : l.cursor = (Cursor.ofSource source).after (given trace).length :=
    cursor_afterCalls (ofSource source) calls
  have ended (calls : List Call) : ((ofSource source).afterCalls calls).ended ↔
      ShowsEnd ((ofSource source).trace calls) := by simp [ended_afterCalls, ofSource]
  obtain ⟨last, whole, final, going⟩ := tokenize_eq_concat source
  refine ⟨trace_calls _ calls, order, ?_, ?_, fun finished => ?_, _, last, whole, final, going, ?_⟩
  · intro before call token after split
    obtain ⟨earlier, rfl, rfl⟩ := exists_split_of_trace split
    rw [answer_eq_none_iff, ended]
  · rintro ⟨last, found, final⟩ more
    rw [order] at found
    obtain ⟨m, inside, rfl⟩ := List.mem_map.1 found
    have inside := List.mem_range.1 inside
    rw [cursor_afterCalls, cursor, ← Cursor.after_add, Cursor.after_of_end final inside,
      Cursor.after_of_end final (Nat.lt_add_right _ inside)]
  · exact drain_of_ended ((ended calls).2 finished)
  · intro goes
    have running : l.ended = false := Bool.eq_false_iff.2 (mt (ended calls).1 goes)
    rw [drain_of_running running, cursor]
    exact Cursor.tokens_after whole going final _

end Lexer

end Scriptlet
