/-!
Texts and bytes. A source is read byte by byte, so every offset in this
library counts bytes of the UTF-8 encoding. A byte shown on its own is shown
as the character with that code.
-/

namespace Scriptlet.Text

def bytes (text : String) : List UInt8 :=
  text.toList.flatMap String.utf8EncodeChar

def ofBytes? (bs : List UInt8) : Option String :=
  String.fromUTF8? bs.toByteArray

/-- One character per byte, the one with the byte as its code. -/
def ofCodes (bs : List UInt8) : String :=
  String.ofList (bs.map Char.ofUInt8)

@[simp] theorem bytes_empty : bytes "" = [] := rfl

@[simp] theorem bytes_append (s t : String) : bytes (s ++ t) = bytes s ++ bytes t := by
  simp [bytes, String.toList_append]

theorem toByteArray_bytes (text : String) : (bytes text).toByteArray = text.toByteArray := by
  rw [← String.ofList_toList (s := text), String.toByteArray_ofList]
  simp [bytes, List.utf8Encode]

theorem ofBytes?_bytes (text : String) : ofBytes? (bytes text) = some text := by
  have valid : (bytes text).toByteArray.IsValidUTF8 :=
    toByteArray_bytes text ▸ text.isValidUTF8
  have same : String.fromUTF8 _ valid = text :=
    String.toByteArray_inj.1 (toByteArray_bytes text)
  simp [ofBytes?, String.fromUTF8?, valid, same]

theorem utf8EncodeChar_of_ascii {c : Char} (ascii : c.toNat < 128) :
    String.utf8EncodeChar c = [c.toUInt8] := by
  apply String.utf8EncodeChar_eq_singleton
  rw [Char.utf8Size_eq_one_iff, UInt32.le_iff_toNat_le]
  exact Nat.le_of_lt_succ ascii

theorem toNat_toUInt8 {c : Char} (ascii : c.toNat < 128) : c.toUInt8.toNat = c.toNat := by
  have size : c.toUInt8.toNat = c.toNat % 256 := UInt32.toNat_toUInt8 c.val
  rw [size, Nat.mod_eq_of_lt (by omega)]

theorem wide_of_mem_utf8EncodeChar {c : Char} (wide : 128 ≤ c.toNat) :
    ∀ b ∈ String.utf8EncodeChar c, 128 ≤ b.toNat := by
  have many : ¬c.val.toNat ≤ 127 := Nat.not_le.2 wide
  simp only [String.utf8EncodeChar, if_neg many]
  repeat' split
  all_goals
    simp only [List.forall_mem_cons, List.not_mem_nil, false_imp_iff, implies_true, and_true,
      UInt8.toNat_ofNat']
    omega

theorem not_mem_bytes {text : String} {c : Char} (ascii : c.toNat < 128)
    (free : c ∉ text.toList) : c.toUInt8 ∉ bytes text := by
  intro found
  obtain ⟨d, among, byte⟩ := List.mem_flatMap.1 found
  have code := toNat_toUInt8 ascii
  by_cases small : d.toNat < 128
  · rw [utf8EncodeChar_of_ascii small, List.mem_singleton] at byte
    have same : c.toNat = d.toNat := by rw [← code, byte, toNat_toUInt8 small]
    rw [Char.toNat_inj.1 same] at free
    exact free among
  · have := wide_of_mem_utf8EncodeChar (Nat.not_lt.1 small) _ byte
    omega

theorem count_bytes {c : Char} (ascii : c.toNat < 128) (text : String) :
    (bytes text).count c.toUInt8 = text.toList.count c := by
  have code := toNat_toUInt8 ascii
  rw [bytes]
  induction text.toList with
  | nil => rfl
  | cons d rest ih =>
    rw [List.flatMap_cons, List.count_append, ih, List.count_cons, Nat.add_comm]
    by_cases small : d.toNat < 128
    · have same : d.toUInt8 = c.toUInt8 ↔ d = c := by
        rw [← UInt8.toNat_inj, toNat_toUInt8 small, code, Char.toNat_inj]
      simp [utf8EncodeChar_of_ascii small, List.count_singleton, same]
    · have wide := wide_of_mem_utf8EncodeChar (Nat.not_lt.1 small)
      have other : d ≠ c := fun same => small (same ▸ ascii)
      have none : c.toUInt8 ∉ String.utf8EncodeChar d := by
        intro found
        have := wide _ found
        omega
      simp [List.count_eq_zero.2 none, other]

theorem eq_of_bytes_eq {s t : String} (h : bytes s = bytes t) : s = t := by
  apply Option.some.inj
  rw [← ofBytes?_bytes s, h, ofBytes?_bytes]

end Scriptlet.Text
