import Scriptlet.Text.Bytes

/-!
Characters and the bytes they take. Every byte of a text belongs to one character of it,
and those in front of a part of the text do not matter for the bytes of that part.
-/

namespace Scriptlet.Text

def encode (cs : List Char) : List UInt8 :=
  cs.flatMap String.utf8EncodeChar

/-- The character to which the byte at the offset belongs. -/
def charAt? : List Char → Nat → Option Char
  | [], _ => none
  | c :: rest, offset =>
    let size := (String.utf8EncodeChar c).length
    if offset < size then some c else charAt? rest (offset - size)

section
variable {front shown back xs ys : List Char} {c : Char} {offset : Nat}

@[simp] theorem encode_append (xs ys : List Char) : encode (xs ++ ys) = encode xs ++ encode ys :=
  List.flatMap_append

@[simp] theorem length_encode_cons (c : Char) (rest : List Char) :
    (encode (c :: rest)).length = (String.utf8EncodeChar c).length + (encode rest).length :=
  List.length_append

theorem mem_of_charAt? (h : charAt? xs offset = some c) : c ∈ xs := by
  induction xs generalizing offset with
  | nil => simp [charAt?] at h
  | cons a rest ih =>
    rw [charAt?] at h
    split at h
    · obtain rfl := Option.some.inj h
      exact List.mem_cons_self
    · exact List.mem_cons_of_mem a (ih h)

theorem exists_charAt? (inside : offset < (encode xs).length) :
    ∃ c, charAt? xs offset = some c := by
  induction xs generalizing offset with
  | nil => exact absurd inside (Nat.not_lt_zero offset)
  | cons a rest ih =>
    rw [length_encode_cons] at inside
    rw [charAt?]
    split
    · exact ⟨a, rfl⟩
    · exact ih (by omega)

theorem charAt?_append_left (inside : offset < (encode xs).length) :
    charAt? (xs ++ ys) offset = charAt? xs offset := by
  induction xs generalizing offset with
  | nil => exact absurd inside (Nat.not_lt_zero offset)
  | cons a rest ih =>
    rw [length_encode_cons] at inside
    rw [List.cons_append, charAt?, charAt?]
    split
    · rfl
    · exact ih (by omega)

theorem charAt?_append_right (beyond : (encode xs).length ≤ offset) :
    charAt? (xs ++ ys) offset = charAt? ys (offset - (encode xs).length) := by
  induction xs generalizing offset with
  | nil => rfl
  | cons a rest ih =>
    rw [length_encode_cons] at beyond ⊢
    rw [List.cons_append, charAt?, if_neg (by omega), ih (by omega), Nat.sub_sub]

theorem within_of_charAt? (h : charAt? (front ++ shown ++ back) offset = some c)
    (before : c ∉ front) (behind : c ∉ back) : (encode front).length ≤ offset ∧
      offset < (encode front).length + (encode shown).length := by
  constructor
  · refine Nat.le_of_not_lt fun inside => before ?_
    rw [List.append_assoc, charAt?_append_left inside] at h
    exact mem_of_charAt? h
  · refine Nat.lt_of_not_le fun beyond => behind ?_
    rw [← List.length_append, ← encode_append] at beyond
    rw [charAt?_append_right beyond] at h
    exact mem_of_charAt? h

theorem length_encode_of_ascii (ascii : ∀ c ∈ xs, c.toNat < 128) :
    (encode xs).length = xs.length := by
  induction xs with
  | nil => rfl
  | cons a rest ih =>
    obtain ⟨first, ascii⟩ := List.forall_mem_cons.1 ascii
    rw [length_encode_cons, utf8EncodeChar_of_ascii first, ih ascii]
    exact Nat.add_comm 1 rest.length

end

theorem idxOf_encode {xs ys : List Char} {c : Char} (small : c.toNat < 128)
    (ascii : ∀ a ∈ xs, a.toNat < 128) (before : c ∉ xs) :
    (encode (xs ++ c :: ys)).idxOf c.toUInt8 = xs.length := by
  have free : c.toUInt8 ∉ encode xs := by
    have := @not_mem_bytes (String.ofList xs) c small (by rwa [String.toList_ofList])
    rwa [bytes, String.toList_ofList] at this
  rw [encode_append, List.idxOf_append, if_neg free, length_encode_of_ascii ascii, encode,
    List.flatMap_cons, utf8EncodeChar_of_ascii small, List.singleton_append, List.idxOf_cons_self,
    Nat.zero_add]

end Scriptlet.Text
