/-!
Lines that keep their terminator. Cutting loses nothing, and complete pieces are cut off
whatever follows them.
-/

namespace Scriptlet.Text

variable {α : Type}

/-- Cuts a list after each element that `ends` accepts. -/
def cutAfter (ends : α → Bool) : List α → List (List α)
  | [] => []
  | a :: rest =>
    if ends a then [a] :: cutAfter ends rest
    else match cutAfter ends rest with
      | [] => [[a]]
      | piece :: pieces => (a :: piece) :: pieces

theorem flatten_cutAfter (ends : α → Bool) (as : List α) :
    (cutAfter ends as).flatten = as := by
  induction as with
  | nil => rfl
  | cons a rest ih =>
    rw [cutAfter]
    split
    · simp [ih]
    · split <;> simp_all

theorem cutAfter_of_end {ends : α → Bool} {a : α} (last : ends a) (rest : List α) :
    cutAfter ends (a :: rest) = [a] :: cutAfter ends rest := by
  rw [cutAfter, if_pos last]

theorem cutAfter_of_inner {ends : α → Bool} {a : α} {rest piece : List α} {pieces : List (List α)}
    (inner : ends a = false) (same : cutAfter ends rest = piece :: pieces) :
    cutAfter ends (a :: rest) = (a :: piece) :: pieces := by
  rw [cutAfter, inner, same]
  rfl

theorem exists_cutAfter {ends : α → Bool} {as : List α} (some : as ≠ []) :
    ∃ piece pieces, cutAfter ends as = piece :: pieces := by
  apply List.exists_cons_of_ne_nil
  intro none
  have whole := flatten_cutAfter ends as
  rw [none] at whole
  exact some whole.symm

theorem cutAfter_append {ends : α → Bool} {as : List α} (complete : ∀ a ∈ as.getLast?, ends a)
    (bs : List α) : cutAfter ends (as ++ bs) = cutAfter ends as ++ cutAfter ends bs := by
  induction as with
  | nil => rfl
  | cons a rest ih =>
    cases rest with
    | nil =>
      have last : ends a := complete a rfl
      rw [List.cons_append, cutAfter_of_end last, cutAfter_of_end last]
      rfl
    | cons b rest =>
      have onward := ih (by rwa [List.getLast?_cons_cons] at complete)
      rw [List.cons_append]
      cases last : ends a with
      | true =>
        rw [cutAfter_of_end last, cutAfter_of_end last, onward]
        rfl
      | false =>
        obtain ⟨piece, pieces, same⟩ := exists_cutAfter (List.cons_ne_nil b rest)
        rw [same] at onward
        rw [cutAfter_of_inner last onward, cutAfter_of_inner last same]
        rfl

theorem cutAfter_eq_singleton {ends : α → Bool} {as : List α} (some : as ≠ [])
    (inner : ∀ a ∈ as.dropLast, ends a = false) : cutAfter ends as = [as] := by
  induction as with
  | nil => exact absurd rfl some
  | cons a rest ih =>
    cases rest with
    | nil => simp [cutAfter]
    | cons b rest =>
      rw [List.dropLast_cons_cons] at inner
      obtain ⟨first, inner⟩ := List.forall_mem_cons.1 inner
      exact cutAfter_of_inner first (ih (List.cons_ne_nil b rest) inner)

theorem length_cutAfter {ends : α → Bool} {as : List α} (complete : ∀ a ∈ as.getLast?, ends a) :
    (cutAfter ends as).length = as.countP ends := by
  induction as with
  | nil => rfl
  | cons a rest ih =>
    cases rest with
    | nil =>
      have last : ends a := complete a rfl
      rw [cutAfter_of_end last, List.countP_cons_of_pos last]
      rfl
    | cons b rest =>
      have onward := ih (by rwa [List.getLast?_cons_cons] at complete)
      cases last : ends a with
      | true => rw [cutAfter_of_end last, List.countP_cons_of_pos last, List.length_cons, onward]
      | false =>
        obtain ⟨piece, pieces, same⟩ := exists_cutAfter (List.cons_ne_nil b rest)
        rw [same, List.length_cons] at onward
        rw [cutAfter_of_inner last same, List.countP_cons_of_neg (by simp [last]),
          List.length_cons, onward]

def afterLast? (ends : α → Bool) : List α → Option (List α)
  | [] => none
  | a :: rest =>
    match afterLast? ends rest with
    | some last => some last
    | none => if ends a then some rest else none

theorem inner_of_afterLast? {ends : α → Bool} {as : List α} (h : afterLast? ends as = none) :
    ∀ a ∈ as, ends a = false := by
  induction as with
  | nil => simp
  | cons a rest ih =>
    rw [afterLast?] at h
    split at h
    · simp at h
    · next none =>
      split at h
      · simp at h
      · next inner => exact List.forall_mem_cons.2 ⟨Bool.eq_false_iff.2 inner, ih none⟩

theorem split_of_afterLast? {ends : α → Bool} {as last : List α}
    (h : afterLast? ends as = some last) : ∃ before a, as = before ++ a :: last ∧ ends a ∧
      ∀ b ∈ last, ends b = false := by
  induction as with
  | nil => simp [afterLast?] at h
  | cons a rest ih =>
    rw [afterLast?] at h
    split at h
    · next found =>
      obtain ⟨before, b, rfl, terminates, inner⟩ := ih (found.trans h)
      exact ⟨a :: before, b, rfl, terminates, inner⟩
    · next none =>
      split at h
      · next terminates =>
        obtain rfl := Option.some.inj h
        exact ⟨[], a, rfl, terminates, inner_of_afterLast? none⟩
      · simp at h

def lines (text : String) : List String :=
  (cutAfter (· == '\n') text.toList).map String.ofList

def isTerminated (line : String) : Bool :=
  line.toList.getLast? == some '\n'

theorem isTerminated_append (text : String) : isTerminated (text ++ "\n") := by
  simp [isTerminated]

theorem lines_append {text : String} (complete : isTerminated text) (more : String) :
    lines (text ++ more) = lines text ++ lines more := by
  rw [lines, String.toList_append, cutAfter_append, List.map_append]
  · rfl
  · intro c last
    rw [isTerminated, Option.mem_def.1 last] at complete
    simpa using complete

theorem lines_eq_singleton {text : String} (inner : '\n' ∉ text.toList) :
    lines (text ++ "\n") = [text ++ "\n"] := by
  have whole : (text ++ "\n").toList = text.toList ++ ['\n'] := by simp
  rw [lines, cutAfter_eq_singleton, List.map_singleton, String.ofList_toList]
  · simp [whole]
  · rw [whole, List.dropLast_concat]
    intro c found
    apply beq_eq_false_iff_ne.2
    rintro rfl
    exact inner found

theorem lines_join {texts : List String} (inner : ∀ text ∈ texts, '\n' ∉ text.toList) :
    lines (String.join (texts.map (· ++ "\n"))) = texts.map (· ++ "\n") := by
  induction texts with
  | nil => rfl
  | cons text texts ih =>
    obtain ⟨first, inner⟩ := List.forall_mem_cons.1 inner
    rw [List.map_cons, String.join_cons, lines_append (isTerminated_append text),
      lines_eq_singleton first, ih inner]
    rfl

end Scriptlet.Text
