/-!
What a program reads from and writes to, and what can break it off. The causes that a file
system reports have a number each. Texts that are printed one behind the other come to an end
with the first of them that does not end well.
-/

namespace Scriptlet

inductive Failure
  | missingFile
  | denied
  | notDirectory
  | isDirectory
  | longName
  | invalidText
  | fullSink
deriving DecidableEq

namespace Failure

def message : Failure → String
  | missingFile => "No such file or directory (os error 2)"
  | denied => "Permission denied (os error 13)"
  | notDirectory => "Not a directory (os error 20)"
  | isDirectory => "Is a directory (os error 21)"
  | longName => "File name too long (os error 36)"
  | invalidText => "stream did not contain valid UTF-8"
  | fullSink => "failed to write whole buffer"

-- A number that is not listed counts as a missing file.
def ofNumber : Nat → Failure
  | 13 => denied
  | 20 => notDirectory
  | 21 => isDirectory
  | 36 => longName
  | _ => missingFile

end Failure

/-- Why a program does not go on: it has failed and can tell, or it has crashed. -/
inductive Halt
  | failed (failure : Failure)
  | crashed
deriving DecidableEq

/-- What is printed, and how the printing of it ends. -/
structure Printout where
  ending : Except Halt Unit
  text : String

namespace Printout

def ofText (text : String) : Printout := ⟨.ok (), text⟩

def crash : Printout := ⟨.error .crashed, ""⟩

def andThen (a b : Printout) : Printout :=
  match a.ending with
  | .ok () => ⟨b.ending, a.text ++ b.text⟩
  | .error _ => a

def concat (parts : List Printout) : Printout :=
  parts.foldr andThen (ofText "")

section
variable {a b : Printout} {halt : Halt}

theorem andThen_of_ok (h : a.ending = .ok ()) : a.andThen b = ⟨b.ending, a.text ++ b.text⟩ := by
  rw [andThen, h]

theorem andThen_of_halt (h : a.ending = .error halt) : a.andThen b = a := by
  rw [andThen, h]

theorem ofText_andThen (text : String) (b : Printout) :
    (ofText text).andThen b = ⟨b.ending, text ++ b.text⟩ := rfl

theorem andThen_assoc (a b c : Printout) : (a.andThen b).andThen c = a.andThen (b.andThen c) := by
  cases first : a.ending with
  | error halt =>
    rw [andThen_of_halt first, andThen_of_halt first, andThen_of_halt first]
  | ok =>
    rw [andThen_of_ok first, andThen_of_ok first]
    cases second : b.ending with
    | error halt =>
      rw [andThen_of_halt second, second]
      rfl
    | ok =>
      rw [andThen_of_ok second, ← String.append_assoc]
      rfl

end

section
variable {parts before after : List Printout} {last : Printout} {halt : Halt}

theorem concat_cons (a : Printout) (parts : List Printout) :
    concat (a :: parts) = a.andThen (concat parts) := rfl

theorem concat_append (parts more : List Printout) :
    concat (parts ++ more) = (concat parts).andThen (concat more) := by
  induction parts with
  | nil =>
    have none : concat [] = ofText "" := rfl
    rw [List.nil_append, none, ofText_andThen, String.empty_append]
  | cons a parts ih => rw [List.cons_append, concat_cons, concat_cons, ih, andThen_assoc]

theorem concat_of_ok (h : ∀ part ∈ parts, part.ending = .ok ()) :
    concat parts = ofText (String.join (parts.map (·.text))) := by
  induction parts with
  | nil => rfl
  | cons a parts ih =>
    obtain ⟨first, more⟩ := List.forall_mem_cons.1 h
    rw [concat_cons, andThen_of_ok first, ih more, List.map_cons, String.join_cons]
    rfl

theorem concat_of_halt (h : ∀ part ∈ before, part.ending = .ok ())
    (stops : last.ending = .error halt) : concat (before ++ last :: after) =
      ⟨.error halt, String.join (before.map (·.text)) ++ last.text⟩ := by
  rw [concat_append, concat_of_ok h, concat_cons, andThen_of_halt stops, ofText_andThen, stops]

theorem concat_map_ofText {γ : Type} (items : List γ) (text : γ → String) :
    concat (items.map fun item => ofText (text item)) = ofText (String.join (items.map text)) := by
  rw [concat_of_ok (by simp [ofText]), List.map_map]
  rfl

end

end Printout

/-- A place to write bytes to, with room for so many more of them or for any number. -/
structure Sink where
  room : Option Nat
  written : List UInt8
deriving DecidableEq

namespace Sink

def ofCapacity (capacity : Option Nat) : Sink := ⟨capacity, []⟩

def write (sink : Sink) (bs : List UInt8) : Bool × Sink :=
  match sink.room with
  | none => (true, ⟨none, sink.written ++ bs⟩)
  | some room => (bs.length ≤ room, ⟨some (room - bs.length), sink.written ++ bs.take room⟩)

end Sink

end Scriptlet
