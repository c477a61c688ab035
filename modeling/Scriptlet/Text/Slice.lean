import Scriptlet.Text.Characters

/-!
Parts of a text between two offsets. Offsets count bytes and may lie inside a character,
where no part can begin or end. A byte of ASCII is a whole character wherever it stands, so a
run of such bytes is always a part.
-/

namespace Scriptlet.Text

/-- The offset is at an end of the text or between two of its characters. -/
def IsBoundary (text : String) (offset : Nat) : Prop :=
  String.Pos.Raw.IsValid text ⟨offset⟩

instance (text : String) (offset : Nat) : Decidable (IsBoundary text offset) :=
  inferInstanceAs (Decidable (String.Pos.Raw.IsValid text ⟨offset⟩))

def slice? (text : String) (start stop : Nat) : Option String :=
  if h : start ≤ stop ∧ IsBoundary text start ∧ IsBoundary text stop then
    some (text.extract ⟨⟨start⟩, h.2.1⟩ ⟨⟨stop⟩, h.2.2⟩)
  else none

/-- What two offsets must be for the text to have a part between them. -/
structure IsSlice (text : String) (start stop : Nat) : Prop where
  ordered : start ≤ stop
  inside : stop ≤ (bytes text).length
  first : IsBoundary text start
  last : IsBoundary text stop

section
variable {text s t u : String} {start stop offset : Nat}

theorem length_bytes (text : String) : (bytes text).length = text.utf8ByteSize := by
  rw [← String.size_toByteArray, ← toByteArray_bytes, List.size_toByteArray]

theorem IsBoundary.le (h : IsBoundary text offset) : offset ≤ (bytes text).length := by
  rw [length_bytes]
  exact h.le_utf8ByteSize

theorem isBoundary_append (s t : String) : IsBoundary (s ++ t) (bytes s).length := by
  refine String.Pos.Raw.isValid_iff_exists_append.2 ⟨s, t, rfl, ?_⟩
  rw [length_bytes]
  rfl

theorem slice?_isSome_iff : (slice? text start stop).isSome ↔ IsSlice text start stop := by
  rw [slice?]
  split
  · next h => exact iff_of_true rfl ⟨h.1, h.2.2.le, h.2.1, h.2.2⟩
  · next h => exact iff_of_false Bool.false_ne_true fun part => h ⟨part.1, part.3, part.4⟩

example : slice? "aé" 0 1 = some "a" ∧ slice? "aé" 0 2 = none := by decide +kernel

theorem slice?_append (s t u : String) :
    slice? (s ++ (t ++ u)) (bytes s).length ((bytes s).length + (bytes t).length) = some t := by
  have first : IsBoundary (s ++ (t ++ u)) (bytes s).length := isBoundary_append s (t ++ u)
  have last : IsBoundary (s ++ (t ++ u)) ((bytes s).length + (bytes t).length) := by
    have := isBoundary_append (s ++ t) u
    rwa [bytes_append, List.length_append, String.append_assoc] at this
  rw [slice?, dif_pos ⟨Nat.le_add_right _ _, first, last⟩, Option.some.injEq,
    ← String.toByteArray_inj, String.toByteArray_extract]
  simp only [String.toByteArray_append, length_bytes, ← String.size_toByteArray]
  exact (ByteArray.extract_append_size_add (i := 0)).trans (ByteArray.extract_append_eq_left rfl)

end

section
variable {cs : List Char} {front shown back : List UInt8} {b : UInt8}

theorem ofUInt8_toUInt8 {c : Char} (ascii : c.toNat < 128) : Char.ofUInt8 c.toUInt8 = c :=
  Char.toNat_inj.1 (toNat_toUInt8 ascii)

theorem exists_split_of_ascii (whole : encode cs = front ++ b :: back) (ascii : b.toNat < 128) :
    ∃ xs ys, cs = xs ++ Char.ofUInt8 b :: ys ∧ encode xs = front ∧ encode ys = back := by
  induction cs generalizing front with
  | nil => exact absurd whole.symm (by simp [encode])
  | cons c rest ih =>
    have behind {more : List UInt8} (left : encode rest = more ++ b :: back)
        (before : front = String.utf8EncodeChar c ++ more) :
        ∃ xs ys, c :: rest = xs ++ Char.ofUInt8 b :: ys ∧ encode xs = front ∧ encode ys = back := by
      obtain ⟨xs, ys, rfl, rfl, same⟩ := ih left
      exact ⟨c :: xs, ys, rfl, before.symm, same⟩
    rw [encode, List.flatMap_cons] at whole
    -- The byte is behind the first character or in it, and it can only be all of it.
    rcases List.append_eq_append_iff.1 whole with ⟨more, before, left⟩ | ⟨inner, own, left⟩
    · exact behind left before
    · cases inner with
      | nil =>
        rw [List.append_nil] at own
        exact @behind [] left.symm (by rw [own, List.append_nil])
      | cons a inner =>
        obtain ⟨rfl, rfl⟩ := List.cons.inj left
        have small : c.toNat < 128 := by
          refine Nat.lt_of_not_le fun wide => ?_
          have := wide_of_mem_utf8EncodeChar wide b (by simp [own])
          omega
        rw [utf8EncodeChar_of_ascii small, eq_comm, List.append_eq_singleton_iff] at own
        simp only [List.cons_ne_nil, and_false, or_false, List.cons.injEq] at own
        obtain ⟨rfl, rfl, rfl⟩ := own
        exact ⟨[], rest, by rw [ofUInt8_toUInt8 small]; rfl, rfl, rfl⟩

theorem eq_nil_of_encode (h : encode cs = []) : cs = [] := by
  cases cs with
  | nil => rfl
  | cons c rest =>
    have size := congrArg List.length h
    have := c.utf8Size_pos
    rw [length_encode_cons, String.length_utf8EncodeChar, List.length_nil] at size
    omega

theorem exists_splits_of_ascii (whole : encode cs = front ++ (shown ++ back))
    (ascii : ∀ b ∈ shown, b.toNat < 128) (some : shown ≠ []) : ∃ xs ys,
      cs = xs ++ (shown.map Char.ofUInt8 ++ ys) ∧ encode xs = front ∧ encode ys = back := by
  induction shown generalizing cs front with
  | nil => exact absurd rfl some
  | cons b shown ih =>
    obtain ⟨small, ascii⟩ := List.forall_mem_cons.1 ascii
    obtain ⟨xs, ys, rfl, before, behind⟩ := exists_split_of_ascii whole small
    by_cases last : shown = []
    · subst last
      exact ⟨xs, ys, rfl, before, behind⟩
    · obtain ⟨zs, us, rfl, none, after⟩ := @ih ys [] behind ascii last
      obtain rfl := eq_nil_of_encode none
      exact ⟨xs, us, rfl, before, after⟩

end

theorem slice?_of_ascii {text : String} {front shown back : List UInt8}
    (whole : bytes text = front ++ (shown ++ back)) (ascii : ∀ b ∈ shown, b.toNat < 128)
    (some : shown ≠ []) :
    slice? text front.length (front.length + shown.length) = Option.some (ofCodes shown) := by
  obtain ⟨xs, ys, same, before, behind⟩ := exists_splits_of_ascii whole ascii some
  have parts : text = String.ofList xs ++ (ofCodes shown ++ String.ofList ys) := by
    rw [ofCodes, ← String.ofList_append, ← String.ofList_append, ← same, String.ofList_toList]
  have size : (bytes (String.ofList xs)).length = front.length := by
    rw [bytes, String.toList_ofList, ← before]
    rfl
  have own : (bytes (ofCodes shown)).length = shown.length := by
    have small : ∀ c ∈ shown.map Char.ofUInt8, c.toNat < 128 := List.forall_mem_map.2 ascii
    rw [bytes, ofCodes, String.toList_ofList]
    exact (length_encode_of_ascii small).trans (List.length_map ..)
  have part := slice?_append (String.ofList xs) (ofCodes shown) (String.ofList ys)
  rwa [← parts, size, own] at part

end Scriptlet.Text
