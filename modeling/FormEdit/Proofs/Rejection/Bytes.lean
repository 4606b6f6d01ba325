import FormEdit.Rejection.Excerpt

/-!
# The bytes of rejected spans

Spans count characters and the text is stored as UTF-8, with one to four bytes for each of them. The
byte after a number of characters is as far into the text as their encoding is long
(`byteAt_eq_size`). The text can be cut there, and between two such bytes it holds the encoding of
the characters between them (`extract_between`).
-/

namespace FormEdit

/-- The bytes at which characters start, if the first one does at `byte`. -/
def startsFrom : Nat → List Char → List Nat
  | _, [] => []
  | byte, c :: chars => byte :: startsFrom (byte + c.utf8Size) chars

theorem size_utf8Encode_cons (c : Char) (chars : List Char) :
    (c :: chars).utf8Encode.size = c.utf8Size + chars.utf8Encode.size := by
  rw [List.utf8Encode_cons, ByteArray.size_append, List.utf8Encode_singleton, List.size_toByteArray,
    String.length_utf8EncodeChar]

theorem size_utf8Encode (chars : List Char) :
    chars.utf8Encode.size = (chars.map Char.utf8Size).foldr (· + ·) 0 := by
  induction chars with
  | nil => simp
  | cons c chars ih => rw [size_utf8Encode_cons, ih, List.map_cons, List.foldr_cons]

theorem byteAt_eq_size (text : String) (count : Nat) :
    byteAt text count = (text.toList.take count).utf8Encode.size :=
  (size_utf8Encode _).symm

/-- Going through the text finds the start of a character, or the end where there are fewer. -/
theorem getD_startsFrom (byte count : Nat) (chars : List Char) :
    (startsFrom byte chars).getD count (byte + chars.utf8Encode.size) =
      byte + (chars.take count).utf8Encode.size := by
  induction chars generalizing byte count with
  | nil => simp [startsFrom]
  | cons c chars ih =>
    cases count with
    | zero => simp [startsFrom]
    | succ count =>
      have later := ih (byte + c.utf8Size) count
      rw [startsFrom, List.getD_cons_succ, List.take_succ_cons, size_utf8Encode_cons,
        size_utf8Encode_cons, ← Nat.add_assoc, ← Nat.add_assoc]
      exact later

theorem byteAt_eq_getD (text : String) (count : Nat) :
    byteAt text count = (startsFrom 0 text.toList).getD count text.utf8ByteSize := by
  have scanned := getD_startsFrom 0 count text.toList
  rw [String.utf8Encode_toList, String.size_toByteArray, Nat.zero_add, Nat.zero_add] at scanned
  rw [byteAt_eq_size, scanned]

theorem isValid_byteAt (text : String) (count : Nat) :
    String.Pos.Raw.IsValid text ⟨byteAt text count⟩ := by
  rw [String.Pos.Raw.isValid_iff_exists_take_toList]
  exact ⟨count, by rw [byteAt_eq_size, ← String.size_toByteArray, String.toByteArray_ofList]⟩

theorem byteAt_le (text : String) (count : Nat) : byteAt text count ≤ text.utf8ByteSize :=
  (isValid_byteAt text count).le_rawEndPos

/-- The characters up to the end of a span are those before it and those in it. -/
theorem encode_upto (chars : List Char) (span : Span) :
    (chars.take span.stop).utf8Encode =
      (chars.take span.start).utf8Encode ++
        ((chars.take span.stop).drop span.start).utf8Encode := by
  have before : (chars.take span.stop).take span.start = chars.take span.start := by
    rw [List.take_take, Nat.min_eq_left span.start_le_stop]
  rw [← List.utf8Encode_append, ← before, List.take_append_drop]

theorem extract_between (text : String) (span : Span) :
    text.toByteArray.extract (byteAt text span.start) (byteAt text span.stop) =
      ((text.toList.take span.stop).drop span.start).utf8Encode := by
  have whole : text.toByteArray =
      (text.toList.take span.stop).utf8Encode ++ (text.toList.drop span.stop).utf8Encode := by
    rw [← List.utf8Encode_append, List.take_append_drop, String.utf8Encode_toList]
  rw [whole, byteAt_eq_size, byteAt_eq_size, ByteArray.extract_append_size_left, encode_upto]
  exact ByteArray.extract_append_eq_right rfl ByteArray.size_append

/-- The bytes of a span lie in order in the text, and characters start or the text ends at both, so
the text can be cut there. Between them are the bytes of the characters of the span, as far as the
text has them. Both bytes are the ones that are found by going through the text up to the character,
or up to the end where there are fewer. -/
theorem spans_enclose_whole_characters (text : String) (span : Span) :
    ∃ first last, bytesOf text span = (first, last) ∧
      first ≤ last ∧ last ≤ text.utf8ByteSize ∧
      String.Pos.Raw.IsValid text ⟨first⟩ ∧ String.Pos.Raw.IsValid text ⟨last⟩ ∧
      text.toByteArray.extract first last =
        ((text.toList.take (min span.stop text.length)).drop
          (min span.start text.length)).utf8Encode ∧
      first = (startsFrom 0 text.toList).getD span.start text.utf8ByteSize ∧
      last = (startsFrom 0 text.toList).getD span.stop text.utf8ByteSize := by
  refine ⟨byteAt text span.start, byteAt text span.stop, rfl, ?_, byteAt_le text span.stop,
    isValid_byteAt text span.start, isValid_byteAt text span.stop, ?_,
    byteAt_eq_getD text span.start, byteAt_eq_getD text span.stop⟩
  · rw [byteAt_eq_size, byteAt_eq_size, encode_upto, ByteArray.size_append]
    exact Nat.le_add_right ..
  · have clamped := extract_between text
      ⟨min span.start text.length, min span.stop text.length, by have := span.start_le_stop; omega⟩
    have same (count : Nat) : byteAt text (min count text.length) = byteAt text count := by
      rw [byteAt, byteAt, ← String.length_toList, ← List.take_eq_take_min]
    rwa [same, same] at clamped

/-- The `x` behind a letter of two bytes. -/
example : bytesOf "(λ x)" ⟨3, 4, by decide⟩ = (4, 5) := by decide

end FormEdit
