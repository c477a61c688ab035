import Scriptlet.Session

/-!
What a part of a conversation writes. With room for all of it that is written as it
is, and with less room its first bytes are, as many as there is room for, and then the
part fails. Parts that are said one behind the other write what they write, in turn, and
none of them is begun behind one that has failed.
-/

namespace Scriptlet.Session

/-- The part ends with `ending` and writes the bytes `out`, and short of room it fails
with the first of them written. -/
structure Writes {α : Type} (part : Talk α) (ending : Except Halt α) (out : List UInt8) :
    Prop where
  unlimited : ∀ written, part.run.run ⟨none, written⟩ = (ending, ⟨none, written ++ out⟩)
  limited : ∀ room written, part.run.run ⟨some room, written⟩ =
    (if out.length ≤ room then ending else .error (.failed .fullSink),
      ⟨some (room - out.length), written ++ out.take room⟩)

section
variable {α β : Type} {part : Talk α} {out more : List UInt8}

theorem say_writes (text : String) : Writes (say text) (.ok ()) (Text.bytes text) where
  unlimited written := by
    rw [say_run]
    rfl
  limited room written := by
    rw [say_run]
    simp only [Sink.write, decide_eq_true_eq]

theorem writes_nil {ending : Except Halt α}
    (silent : ∀ sink, part.run.run sink = (ending, sink)) : Writes part ending [] where
  unlimited written := by rw [silent, List.append_nil]
  limited room written := by
    rw [silent, List.take_nil, List.append_nil, List.length_nil, if_pos (Nat.zero_le room)]
    rfl

theorem pure_writes (a : α) : Writes (pure a) (.ok a) [] := writes_nil fun _ => rfl

theorem throw_writes (halt : Halt) : Writes (throw halt : Talk α) (.error halt) [] :=
  writes_nil fun _ => rfl

theorem Writes.bind {a : α} {next : α → Talk β} {ending : Except Halt β}
    (h : Writes part (.ok a) out) (k : Writes (next a) ending more) :
    Writes (part >>= next) ending (out ++ more) where
  unlimited written := by
    rw [bind_run, h.unlimited]
    simp only [k.unlimited, List.append_assoc]
  limited room written := by
    rw [bind_run, h.limited, List.length_append, List.take_append]
    by_cases fits : out.length ≤ room
    · simp only [if_pos fits, k.limited, List.append_assoc, Nat.sub_sub]
      have same : more.length ≤ room - out.length ↔ out.length + more.length ≤ room := by omega
      simp only [same]
    · have spent : room - out.length = 0 := by omega
      have beyond : room - (out.length + more.length) = 0 := by omega
      rw [if_neg fits, if_neg (by omega), spent, beyond, List.take_zero, List.append_nil]

theorem Writes.halt {halt : Halt} (h : Writes part (.error halt) out) (next : α → Talk β) :
    Writes (part >>= next) (.error halt) out where
  unlimited written := by
    rw [bind_run, h.unlimited]
  limited room written := by
    rw [bind_run, h.limited]
    by_cases fits : out.length ≤ room
    · simp only [if_pos fits]
    · simp only [if_neg fits]

end

/-- The part says what is printed, and ends as the printing of it does. -/
def Prints (part : Talk Unit) (out : Printout) : Prop :=
  Writes part out.ending (Text.bytes out.text)

theorem say_prints (text : String) : Prints (say text) (.ofText text) :=
  say_writes text

theorem Prints.andThen {part next : Talk Unit} {out more : Printout} (h : Prints part out)
    (k : Prints next more) : Prints (part >>= fun _ => next) (out.andThen more) := by
  rw [Prints] at h k
  cases ends : out.ending with
  | error halt =>
    rw [ends] at h
    rw [Printout.andThen_of_halt ends, Prints, ends]
    exact h.halt _
  | ok =>
    rw [ends] at h
    rw [Printout.andThen_of_ok ends, Prints, Text.bytes_append]
    exact h.bind k

theorem utter_prints (out : Printout) : Prints (utter out) out := by
  obtain ⟨ending, text⟩ := out
  rw [Prints, ← List.append_nil (Text.bytes _)]
  cases ending with
  | error halt => exact (say_writes text).bind (throw_writes halt)
  | ok => exact (say_writes text).bind (pure_writes ())

theorem forM_prints {γ : Type} (items : List γ) {part : γ → Talk Unit} {out : γ → Printout}
    (each : ∀ item, Prints (part item) (out item)) :
    Prints (items.forM part) (.concat (items.map out)) := by
  induction items with
  | nil => exact pure_writes ()
  | cons item items ih => exact (each item).andThen ih

theorem reply_prints (policy : Policy) (line : String) :
    Prints (reply policy line) (answer policy line) := by
  rw [reply, answer]
  generalize parse policy line = result
  obtain ⟨program, p⟩ := result
  dsimp only
  split
  · exact say_prints _
  · have messages := forM_prints p.messages fun message => say_prints ("\t" ++ message ++ "\n")
    have reports := forM_prints p.diagnostics fun d => utter_prints (d.printout line origin)
    exact (say_prints _).andThen (messages.andThen reports)

end Scriptlet.Session
