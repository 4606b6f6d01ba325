import FormEdit.Proofs.Buffer.BothTexts
import FormEdit.Proofs.Buffer.Exchanging
import FormEdit.Proofs.Buffer.Keystrokes

/-!
# Slices of the two views

A span covers a stretch of storage, with the deleted cells at both of its ends (`Covers`). Both
views of the span number this one stretch by the current characters in it, so a character that is in
both texts is at the same position in both: `Spot.placed`.
-/

namespace FormEdit

namespace Buffer

variable {b : Buffer} {span : Span} {ahead inside behind cells : List Cell} {j t : Nat} {c : Cell}

/-! ## What a span covers -/

/-- The stretch of storage that a span covers. Deleted cells at its ends are part of it; a span that
starts past the end of the text covers nothing, not even what is deleted there. -/
structure Covers (b : Buffer) (span : Span) (ahead inside behind : List Cell) : Prop where
  cells : b.cells = ahead ++ (inside ++ behind)
  start : shown ahead = b.current.take span.start
  stop : shown behind = b.current.drop span.stop
  ends : span.start ≤ b.currentLength → EndsCurrent ahead
  starts : StartsCurrent behind
  past : b.currentLength < span.start → inside = []

/-- A text is what stands ahead of a span, in it and behind it. -/
theorem take_pieceOf_drop (text : List Char) (span : Span) :
    text.take span.start ++ (pieceOf text span ++ text.drop span.stop) = text := by
  have order := span.start_le_stop
  have rest : text.drop span.stop = (text.drop span.start).drop span.length := by
    rw [List.drop_drop, Span.length, Nat.add_sub_cancel' order]
  rw [pieceOf, rest, List.take_append_drop, List.take_append_drop]

/-- The cells that a span covers show its characters. -/
theorem Covers.shown_inside (covers : Covers b span ahead inside behind) :
    shown inside = pieceOf b.current span := by
  have whole : b.current = shown ahead ++ (shown inside ++ shown behind) := by
    rw [current_eq, covers.cells, shown_append, shown_append]
  have parts := (take_pieceOf_drop b.current span).trans whole
  rw [covers.start, covers.stop] at parts
  exact (List.append_cancel_right (List.append_cancel_left parts)).symm

theorem Covers.of_block (ahead_length : (b.block span).start = ahead.length)
    (inside_length : (b.block span).stop = ahead.length + inside.length)
    (covers : Covers b span ahead inside behind) :
    Covers b span (b.cellsAhead span) (b.cellsOf span) (b.cellsBehind span) := by
  have ahead_eq : b.cellsAhead span = ahead := by
    rw [cellsAhead, ahead_length, covers.cells, List.take_left]
  have inside_eq : b.cellsOf span = inside := by
    simp only [cellsOf, Span.length, ahead_length, inside_length, Nat.add_sub_cancel_left]
    rw [covers.cells, List.drop_left, List.take_left]
  have behind_eq : b.cellsBehind span = behind := by
    rw [cellsBehind, inside_length, covers.cells, ← List.append_assoc, ← List.length_append,
      List.drop_left]
  rwa [ahead_eq, inside_eq, behind_eq]

/-- The block of a span is what it covers. -/
theorem covers_cellsOf (b : Buffer) (span : Span) :
    Covers b span (b.cellsAhead span) (b.cellsOf span) (b.cellsBehind span) := by
  obtain ⟨cells⟩ := b
  have order := span.start_le_stop
  by_cases start : span.start ≤ currentCount cells
  · obtain ⟨ahead, rest, rfl, count, ends⟩ := exists_firstSplit cells start
    have within : ¬currentLength ⟨ahead ++ rest⟩ < span.start := Nat.not_lt.mpr start
    by_cases stop : span.length ≤ currentCount rest
    · obtain ⟨inside, behind, rfl, count', starts⟩ := exists_lastSplit rest stop
      have reach : currentCount (ahead ++ inside) = span.stop := by
        rw [currentCount_append, count, count', Span.length]
        omega
      obtain ⟨first, last⟩ := block_append count reach ends starts
      rw [List.append_assoc] at first last
      refine Covers.of_block first last ⟨rfl, (take_shown count).symm, ?_, fun _ => ends, starts,
        fun past => absurd past within⟩
      rw [current_eq, ← List.append_assoc, drop_shown reach]
    · have past : currentCount (ahead ++ rest) < span.stop := by
        rw [currentCount_append, count]
        rw [Span.length] at stop
        omega
      have first := firstIndex_append rest ends
      rw [count] at first
      have last := length_le_lastIndex past
      refine @Covers.of_block _ _ ahead rest [] ?_ ?_
        ⟨by simp, (take_shown count).symm, ?_, fun _ => ends, startsCurrent_nil,
          fun past => absurd past within⟩
      · simp only [block, first]
        exact Nat.min_eq_left (by simp)
      · rw [List.length_append] at last
        simp only [block, first, List.length_append]
        omega
      · exact (List.drop_eq_nil_of_le
          (by rw [current_eq, length_shown]; exact Nat.le_of_lt past)).symm
  · have past : currentCount cells < span.start := Nat.lt_of_not_le start
    have beyond := length_lt_firstIndex past
    have all : (shown cells).length ≤ span.start := by
      rw [length_shown]
      omega
    refine @Covers.of_block _ _ cells [] [] ?_ ?_
      ⟨by simp, (List.take_of_length_le all).symm, ?_, fun inside => absurd inside start,
        startsCurrent_nil, fun _ => rfl⟩
    · simp only [block]
      omega
    · simp only [block, List.length_nil]
      omega
    · exact (List.drop_eq_nil_of_le (Nat.le_trans all order)).symm

/-! ## The two views of a span -/

/-- A span reads as the characters at its positions, of which there are none past the end of the
text. -/
theorem slice_current_clamped (b : Buffer) (span : Span) :
    b.slice .current span = Placed.run span.start (pieceOf b.current span) := by
  rw [slice, placeCurrent_eq, (covers_cellsOf b span).shown_inside]

/-- What the current view of a span shows depends on the current text alone. -/
theorem slice_of_current {b c : Buffer} (same : b.current = c.current) (span : Span) :
    b.slice .current span = c.slice .current span := by
  rw [slice_current_clamped, slice_current_clamped, same]

theorem placeCurrent_append (position : Nat) (xs ys : List Cell) :
    placeCurrent position (xs ++ ys) =
      placeCurrent position xs ++ placeCurrent (position + currentCount xs) ys := by
  induction xs generalizing position with
  | nil => rfl
  | cons c xs ih =>
    rw [List.cons_append, placeCurrent, placeCurrent, currentCount_cons]
    split
    · rw [ih, List.cons_append, Nat.add_assoc]
    · rw [ih, Nat.zero_add]

theorem placeCommitted_append (position : Nat) (xs ys : List Cell) :
    placeCommitted position (xs ++ ys) =
      placeCommitted position xs ++ placeCommitted (position + currentCount xs) ys := by
  induction xs generalizing position with
  | nil => rfl
  | cons c xs ih =>
    obtain ⟨char, status⟩ := c
    rw [List.cons_append, placeCommitted, placeCommitted, currentCount_cons]
    cases status with
    | kept => simp only [ih, List.cons_append, Cell.isCurrent, Nat.add_assoc]; rfl
    | inserted => simp only [ih, Cell.isCurrent, Nat.add_assoc]; rfl
    | deleted => simp only [ih, List.cons_append, Cell.isCurrent]; simp

/-- Both views place a cell by the number of current cells ahead of it. -/
theorem Spot.placed (spot : Spot cells j t c) (position : Nat) :
    (c.isCurrent = true → (placeCurrent position cells)[j]? = some ⟨position + j, c.char⟩) ∧
      (c.isCommitted = true → (placeCommitted position cells)[t]? =
        some ⟨position + j, c.char⟩) := by
  obtain ⟨pre, post, rfl, rfl, rfl⟩ := spot
  constructor
  · intro current
    have length : (placeCurrent position pre).length = currentCount pre := by
      rw [placeCurrent_eq, Placed.length_run, length_shown]
    rw [placeCurrent_append, ← length, List.getElem?_append_right (Nat.le_refl _), Nat.sub_self,
      length, placeCurrent, if_pos current]
    rfl
  · intro committed
    have length : (placeCommitted position pre).length = (original pre).length := by
      rw [← List.length_map (f := Placed.char), map_char_placeCommitted]
    rw [placeCommitted_append, ← length, List.getElem?_append_right (Nat.le_refl _), Nat.sub_self]
    obtain ⟨char, status⟩ := c
    cases status with
    | kept => rfl
    | inserted => cases committed
    | deleted => rfl

/-- The committed characters stand in order, from the start of the span on. -/
theorem ascending_placeCommitted (position : Nat) (cells : List Cell) :
    (∀ p ∈ placeCommitted position cells, position ≤ p.position) ∧
      (placeCommitted position cells).Pairwise fun p q => p.position ≤ q.position := by
  induction cells generalizing position with
  | nil => exact ⟨nofun, .nil⟩
  | cons c cells ih =>
    obtain ⟨char, status⟩ := c
    obtain ⟨after, order⟩ := ih position
    obtain ⟨after', order'⟩ := ih (position + 1)
    have later (p : Placed) (mem : p ∈ placeCommitted (position + 1) cells) :
        position ≤ p.position :=
      Nat.le_of_succ_le (after' p mem)
    rw [placeCommitted]
    cases status with
    | kept => exact ⟨List.forall_mem_cons.mpr ⟨Nat.le_refl _, later⟩, .cons later order'⟩
    | inserted => exact ⟨later, order'⟩
    | deleted => exact ⟨List.forall_mem_cons.mpr ⟨Nat.le_refl _, after⟩, .cons after order⟩

/-- The span of the whole text covers all of storage. -/
theorem cellsOf_all (b : Buffer) : b.cellsOf (Span.sized 0 b.currentLength) = b.cells := by
  have last := lastIndex_currentCount b.cells
  simp only [cellsOf, block, Span.sized, Nat.zero_add, currentLength_eq, last, Span.length,
    firstIndex, Nat.zero_min, Nat.min_self, Nat.max_zero, List.drop_zero, Nat.sub_zero,
    List.take_length]

end Buffer

/-! ## Slices of logs -/

namespace Log

open Buffer

theorem cellsOf_log (b : Buffer) (span : Span) : b.log.cellsOf span = b.cellsOf span := by
  obtain ⟨-, inside⟩ := block_bounds b span
  have chars : (b.log.chars.drop (b.block span).start).take (b.block span).length =
      (b.cellsOf span).map Cell.char := by
    simp [Buffer.log, Buffer.cellsOf]
  have markers : (b.log.markers.drop (b.log.slot (b.block span).start)).take
      (b.log.slot (b.block span).stop - b.log.slot (b.block span).start) =
        markersFrom (b.block span).start (b.cellsOf span) :=
    between_slots b (b.block span).start_le_stop inside
  simp only [Log.cellsOf, block_eq, chars, markers, walk_eq]
  simp [ofChange_change?]

theorem slice_log (b : Buffer) (view : View) (span : Span) :
    b.log.slice view span = b.slice view span := by
  cases view with
  | committed => rw [Log.slice, cellsOf_log, Buffer.slice]
  | current => rw [Log.slice, cellsOf_log, Buffer.slice]

end Log

namespace Buffer

/-- Both views of a span are read off the stretch of storage that it covers, and in line with each
other: the current one shows the characters at the positions of the span, numbered without gaps, and
the committed one a block of the committed text. A character stands as far behind the start of the
span as there are current characters ahead of it there, so one that is in both texts is in both
slices at the same position. A log shows the same slices. -/
theorem slices_of_a_span_line_up (b : Buffer) (span : Span) :
    Covers b span (b.cellsAhead span) (b.cellsOf span) (b.cellsBehind span) ∧
    b.slice .current span = Placed.run span.start (pieceOf b.current span) ∧
    (b.slice .committed span).map Placed.char = original (b.cellsOf span) ∧
    b.committed = original (b.cellsAhead span) ++ original (b.cellsOf span) ++
      original (b.cellsBehind span) ∧
    ((b.slice .committed span).Pairwise fun p q => p.position ≤ q.position) ∧
    (∀ j t c, Spot (b.cellsOf span) j t c →
      (c.isCurrent = true → (b.slice .current span)[j]? = some ⟨span.start + j, c.char⟩) ∧
      (c.isCommitted = true → (b.slice .committed span)[t]? = some ⟨span.start + j, c.char⟩)) ∧
    (b.slice .committed (Span.sized 0 b.currentLength)).map Placed.char = b.committed ∧
    ∀ view, b.log.slice view span = b.slice view span := by
  have covers := covers_cellsOf b span
  refine ⟨covers, slice_current_clamped b span, map_char_placeCommitted _ _, ?_,
    (ascending_placeCommitted _ _).2, fun j t c spot => spot.placed span.start, ?_,
    fun view => Log.slice_log b view span⟩
  · rw [committed_eq, covers.cells, original_append, original_append, List.append_assoc]
  · rw [slice, map_char_placeCommitted, cellsOf_all, committed_eq]

/-- The kept `c` stands at position 3 in both slices of `b cxd`, two current and three committed
characters behind their start. The deleted `a` shares the position of the `b`, and the typed `x`
leaves a gap. -/
theorem twoWords_line_up : Spot (twoWords.cellsOf ⟨1, 6, by decide⟩) 2 3 ⟨'c', .kept⟩ ∧
    (twoWords.slice .current ⟨1, 6, by decide⟩)[2]? = some ⟨3, 'c'⟩ ∧
    (twoWords.slice .committed ⟨1, 6, by decide⟩)[3]? = some ⟨3, 'c'⟩ ∧
    twoWords.slice .current ⟨1, 6, by decide⟩ = Placed.run 1 "b cxd".toList ∧
    twoWords.log.slice .committed ⟨1, 6, by decide⟩ =
      [⟨1, 'a'⟩, ⟨1, 'b'⟩, ⟨2, ' '⟩, ⟨3, 'c'⟩, ⟨5, 'd'⟩] := by
  obtain ⟨-, current, -, -, -, places, -, logs⟩ :=
    slices_of_a_span_line_up twoWords ⟨1, 6, by decide⟩
  have spot : Spot (twoWords.cellsOf ⟨1, 6, by decide⟩) 2 3 ⟨'c', .kept⟩ :=
    ⟨[⟨'a', .deleted⟩, ⟨'b', .kept⟩, ⟨' ', .kept⟩],
      [⟨'x', .inserted⟩, ⟨'d', .kept⟩], by decide, by decide, by decide⟩
  obtain ⟨in_current, in_committed⟩ := places 2 3 _ spot
  refine ⟨spot, in_current (by decide), in_committed (by decide), current.trans ?_,
    (logs .committed).trans ?_⟩
  · decide
  · decide

end Buffer

end FormEdit
