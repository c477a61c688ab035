import Scriptlet.Proofs.Coverage
import Scriptlet.Proofs.Place

/-!
Where the tokens of a source are seen. No line feed is part of a token, so each of them stands
on one line, and that line with the column of its first byte places all of its bytes.
-/

namespace Scriptlet

namespace Place

section
variable {place : Place} {first p m : Nat} {bs : List UInt8}

def since (bs : List UInt8) (p : Nat) : List UInt8 :=
  (bs.take p).rtakeWhile (· != lineFeed)

theorem lineFeed_not_mem_since (bs : List UInt8) (p : Nat) : lineFeed ∉ since bs p :=
  fun found => by simpa using List.mem_rtakeWhile_imp found

theorem drop_lineStart (bs : List UInt8) (p : Nat) :
    bs.drop (lineStart bs p) = since bs p ++ bs.drop p := by
  have whole : (bs.take p).rdropWhile (· != lineFeed) ++ (since bs p ++ bs.drop p) = bs := by
    rw [since, ← List.append_assoc, List.rdropWhile_append_rtakeWhile, List.take_append_drop]
  exact (congrArg (List.drop _) whole.symm).trans List.drop_left

theorem lineStart_add_length_since (inside : p ≤ bs.length) :
    lineStart bs p + (since bs p).length = p := by
  rw [lineStart, since, ← List.length_append, List.rdropWhile_append_rtakeWhile,
    List.length_take, Nat.min_eq_left inside]

theorem Locates.column_eq (h : place.Locates first bs p) (inside : p ≤ bs.length) :
    place.column = (since bs p).length :=
  Nat.add_left_cancel (h.column.trans (lineStart_add_length_since inside).symm)

theorem Locates.text_eq (h : place.Locates first bs p) (unbroken : lineFeed ∉ (bs.drop p).take m) :
    Text.bytes place.text =
      since bs p ++ ((bs.drop p).take m ++ firstLine (bs.drop (p + m))) := by
  rw [h.text, drop_lineStart, firstLine_append_of_unbroken (lineFeed_not_mem_since bs p),
    ← List.drop_drop, ← firstLine_append_of_unbroken unbroken, List.take_append_drop]

theorem Locates.extract_eq (h : place.Locates first bs p) (inside : p + m ≤ bs.length)
    (unbroken : lineFeed ∉ (bs.drop p).take m) :
    place.column + m ≤ (Text.bytes place.text).length ∧
      (Text.bytes place.text).extract place.column (place.column + m) =
        bs.extract p (p + m) := by
  have size : ((bs.drop p).take m).length = m := by
    rw [List.length_take, List.length_drop]
    omega
  rw [h.text_eq unbroken, h.column_eq (by omega)]
  constructor
  · rw [List.length_append, List.length_append, size]
    omega
  · simp only [List.extract_eq_take_drop, Nat.add_sub_cancel_left, List.drop_left]
    exact List.take_left' size
end

end Place

namespace Token

/-- A token is seen on the line of a place: its bytes stand there from the column on, and
each of them has its place on this line. -/
structure SeenAt (t : Token) (source : String) (place : Place) : Prop where
  inside : place.column + (t.stop - t.start) ≤ (Text.bytes place.text).length
  shown : (Text.bytes place.text).extract place.column (place.column + (t.stop - t.start)) =
    t.bytesIn (Text.bytes source)
  along : ∀ q, t.start ≤ q → q < t.stop →
    Place.ofOffset source q = ⟨place.line, place.text, place.column + (q - t.start)⟩

variable {t : Token} {source : String} {stop : Nat}

theorem Stands.unbroken {bs : List UInt8} (h : t.Stands bs stop) : lineFeed ∉ t.bytesIn bs :=
  fun found => absurd (h.visible lineFeed found) (by decide)

theorem Stands.seenAt (h : t.Stands (Text.bytes source) stop)
    (inside : stop ≤ (Text.bytes source).length) :
    t.SeenAt source (Place.ofOffset source t.start) := by
  have located (q : Nat) (within : q ≤ t.stop) :
      (Place.ofOffset source q).Locates 1 (Text.bytes source) q := by
    have := Place.ofOffset_locates source q
    rwa [Nat.min_eq_left (within.trans (h.before.trans inside))] at this
  have first := located t.start (Nat.le_of_lt h.nonempty)
  have size : t.start + (t.stop - t.start) = t.stop := Nat.add_sub_cancel' (Nat.le_of_lt h.nonempty)
  have unbroken : lineFeed ∉ ((Text.bytes source).drop t.start).take (t.stop - t.start) := by
    rw [← List.extract_eq_take_drop]
    exact h.unbroken
  obtain ⟨within, shown⟩ := first.extract_eq (by rw [size]; exact h.before.trans inside) unbroken
  rw [size] at shown
  refine ⟨within, shown, fun q behind before => ?_⟩
  obtain ⟨m, rfl⟩ := Nat.exists_eq_add_of_le behind
  have part : lineFeed ∉ ((Text.bytes source).drop t.start).take m := fun found =>
    unbroken (List.take_subset_take_left _ (by omega) found)
  rw [Nat.add_sub_cancel_left]
  exact (located _ (Nat.le_of_lt before)).unique (first.forward part)

end Token

/-- Every token of a source lies on one line, which is found under the offset of any byte
of it. All tokens, and so the end of input, are placed by the line feeds before them. -/
theorem tokenize_seen (source : String) (short : (Text.bytes source).length < UInt32.size) :
    ∀ t ∈ tokenize source,
      let place := Place.ofOffset source t.start
      let before := (Text.bytes source).take t.start
      place.line = 1 + before.count lineFeed ∧
        place.column = (before.rtakeWhile (· != lineFeed)).length ∧
        (t.kind ≠ .endOfInput → t.SeenAt source place) := by
  have layout := Cursor.layout_tokenize source
  have small : 0 + (Text.bytes source).length < UInt32.size := by omega
  have stands := layout.stands small rfl
  have stop : 0 + (Text.bytes source).idxOf 0 ≤ (Text.bytes source).length := by
    rw [Nat.zero_add]
    exact List.idxOf_le_length
  intro t found
  have inside : t.start ≤ (Text.bytes source).length := by
    obtain ⟨body, whole, going⟩ := layout.ends
    rw [whole, List.mem_append, List.mem_singleton] at found
    rcases found with found | rfl
    · have := stands t (whole ▸ List.mem_append_left _ found) (going t found)
      exact (Nat.le_of_lt this.nonempty).trans (this.before.trans stop)
    · rw [(Token.span_ending (by omega)).1]
      exact stop
  have located := Place.ofOffset_locates source t.start
  rw [Nat.min_eq_left inside] at located
  exact ⟨located.line, located.column_eq inside, fun going => (stands t found going).seenAt stop⟩

theorem tokenize_seen_accent : (Text.bytes "a\n\té;\n").length < UInt32.size ∧
    ∃ t ∈ tokenize "a\n\té;\n", t.start = 3 ∧ t.stop = 4 ∧ t.kind ≠ .endOfInput ∧
      t.SeenAt "a\n\té;\n" ⟨2, "\té;\n", 1⟩ := by
  have short : (Text.bytes "a\n\té;\n").length < UInt32.size := by decide
  have found : (tokenize "a\n\té;\n")[1]? = some ⟨.illegal, "Ã", .ofOffsets 3 4⟩ := by
    decide +kernel
  have found := List.mem_of_getElem? found
  have place : Place.ofOffset "a\n\té;\n" 3 = ⟨2, "\té;\n", 1⟩ := by decide +kernel
  have seen := (tokenize_seen _ short _ found).2.2 (by decide)
  exact ⟨short, _, found, rfl, rfl, by decide, place ▸ seen⟩

end Scriptlet
