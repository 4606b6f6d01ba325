import FormEdit.Proofs.Buffer.Slicing

/-!
# Cutting and pasting

What is cut out of a buffer goes back to where it was, to the last mark (`paste_cut_copy`): the
deleted cells at the ends of a span are cut out with it, so the place ahead of those at a position
is the seam that the cut has left. In between, all that happens to both texts is that a block of
each leaves or comes in.
-/

namespace FormEdit

namespace Buffer

variable {span : Span}

theorem cut_eq (b : Buffer) (span : Span) :
    b.cut span = ⟨b.cellsAhead span ++ b.cellsBehind span⟩ := rfl

theorem cut_current (b : Buffer) (span : Span) :
    (b.cut span).current = b.current.take span.start ++ b.current.drop span.stop := by
  have covers := covers_cellsOf b span
  rw [cut_eq, current_eq, shown_append, covers.start, covers.stop]

/-- What is pasted goes in between the cells ahead of the position and the others. -/
theorem exists_pasted (b slice : Buffer) (position : Nat) :
    ∃ ahead behind, b.cells = ahead ++ behind ∧ shown ahead = b.current.take position ∧
      shown behind = b.current.drop position ∧
      (b.paste position slice).cells = ahead ++ slice.cells ++ behind := by
  let place := (b.block (Span.empty position)).start
  have split : b.cells = b.cells.take place ++ b.cells.drop place :=
    (List.take_append_drop _ _).symm
  have ahead : shown (b.cells.take place) = b.current.take position :=
    (covers_cellsOf b (Span.empty position)).start
  have whole : b.current = shown (b.cells.take place) ++ shown (b.cells.drop place) := by
    rw [← shown_append, ← split, current_eq]
  have behind : shown (b.cells.drop place) = b.current.drop position := by
    rw [ahead] at whole
    exact List.append_cancel_left (whole.symm.trans (List.take_append_drop position b.current).symm)
  exact ⟨_, _, split, ahead, behind, rfl⟩

theorem paste_current (b slice : Buffer) (position : Nat) :
    (b.paste position slice).current = insertedText b.current position slice.current := by
  obtain ⟨ahead, behind, -, shown_ahead, shown_behind, pasted⟩ := exists_pasted b slice position
  rw [current_eq (b.paste _ _), pasted, shown_append, shown_append, shown_ahead, shown_behind,
    insertedText, current_eq slice]

/-- Pasting what has been cut out gives back the buffer. -/
theorem paste_cut_copy (b : Buffer) (span : Span) :
    (b.cut span).paste span.start (b.copy span) = b := by
  have covers := covers_cellsOf b span
  obtain ⟨cells⟩ := b
  by_cases start : span.start ≤ currentLength ⟨cells⟩
  · have count : currentCount (cellsAhead ⟨cells⟩ span) = span.start := by
      rw [← length_shown, covers.start, List.length_take, length_current, Nat.min_eq_left start]
    rw [cut_eq, copy, paste_append _ _ count (covers.ends start), List.append_assoc]
    exact congrArg Buffer.mk covers.cells.symm
  · have nothing := covers.past (Nat.lt_of_not_le start)
    rw [cut_eq, copy, paste, insertCells, nothing, List.append_nil, List.take_append_drop]
    exact congrArg Buffer.mk (by simpa [nothing] using covers.cells.symm)

/-- A span that is copied, cut out and pasted back. The copy shows the characters of the span and
the cut leaves the others; the copy's committed text is the block that the cut takes out of the
committed text; and pasting it back gives back every cell. Wherever a slice is pasted, its current
text goes in at that position and its committed text as one block. Spans and positions past the end
of the text stand for its end. A log is copied, cut and pasted into like its buffer, down to the
markers. -/
theorem spans_are_cut_and_pasted (b : Buffer) :
    (∀ span : Span,
      (b.copy span).current = pieceOf b.current span ∧
      (b.cut span).current = b.current.take span.start ++ b.current.drop span.stop ∧
      (∃ ahead behind, (b.cut span).committed = ahead ++ behind ∧
        b.committed = ahead ++ (b.copy span).committed ++ behind) ∧
      (b.cut span).paste span.start (b.copy span) = b ∧
      (b.cells.length ≤ positionLimit →
        b.log.copy span = (b.copy span).log ∧ b.log.cut span = (b.cut span).log ∧
        (b.log.cut span).paste span.start (b.log.copy span) = b.log)) ∧
    ∀ (position : Nat) (slice : Buffer),
      (b.paste position slice).current =
        b.current.take position ++ slice.current ++ b.current.drop position ∧
      (∃ ahead behind, b.committed = ahead ++ behind ∧
        (b.paste position slice).committed = ahead ++ slice.committed ++ behind) ∧
      (b.cells.length + slice.cells.length ≤ positionLimit →
        b.log.paste position slice.log = (b.paste position slice).log) := by
  refine ⟨fun span => ⟨?_, cut_current b span, ?_, paste_cut_copy b span, ?_⟩,
    fun position slice => ⟨paste_current b slice position, ?_, Log.paste_log b slice position⟩⟩
  · exact (covers_cellsOf b span).shown_inside
  · refine ⟨original (b.cellsAhead span), original (b.cellsBehind span), ?_, ?_⟩
    · rw [cut_eq, committed_eq, original_append]
    · rw [committed_eq, (covers_cellsOf b span).cells, original_append, original_append,
        ← List.append_assoc]
      rfl
  · intro fits
    have lengths := length_cut b span
    have copied := Log.copy_log b span fits
    have cut := Log.cut_log b span fits
    refine ⟨copied, cut, ?_⟩
    rw [cut, copied, Log.paste_log _ _ _ (by omega), paste_cut_copy]
  · obtain ⟨ahead, behind, cells_eq, -, -, pasted⟩ := exists_pasted b slice position
    refine ⟨original ahead, original behind, ?_, ?_⟩
    · rw [committed_eq, cells_eq, original_append]
    · rw [committed_eq (b.paste _ _), pasted, original_append, original_append, committed_eq slice]

/-- The span ahead of the `b` holds nothing but the deleted `a`, which is cut out and comes back. -/
theorem twoWords_deleted_cell_comes_back : twoWords.cells.length ≤ positionLimit ∧
    (twoWords.log.copy ⟨1, 1, by decide⟩).marked = "Da".toList ∧
    (twoWords.cut ⟨1, 1, by decide⟩).current = twoWords.current ∧
    (twoWords.cut ⟨1, 1, by decide⟩).paste 1 (twoWords.copy ⟨1, 1, by decide⟩) = twoWords ∧
    (twoWords.log.cut ⟨1, 1, by decide⟩).paste 1 (twoWords.log.copy ⟨1, 1, by decide⟩) =
      twoWords.log := by
  have short : twoWords.cells.length ≤ positionLimit := by decide
  obtain ⟨-, current, -, back, logs⟩ := (spans_are_cut_and_pasted twoWords).1 ⟨1, 1, by decide⟩
  obtain ⟨copied, -, log_back⟩ := logs short
  refine ⟨short, ?_, current.trans (by decide), back, log_back⟩
  rw [copied]
  decide

end Buffer

end FormEdit
