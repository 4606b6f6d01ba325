import FormEdit.Proofs.Buffer.Committed
import FormEdit.Proofs.Buffer.Operations
import FormEdit.Proofs.Buffer.Undoing

/-!
# Exchanged spans in storage

An exchange is made of four steps in storage and undone by four others that look alike but do not
take them back one by one. All of them are done to the cells of a buffer and to its log alike
(`exchange_log`, `undo_log`), so undoing an exchange gives back every character and every marker.

The cells of the two spans trade places as wholes, unless the spans touch and the later one ends
with deleted characters: the earlier one is then put in ahead of these.
-/

namespace FormEdit

namespace Buffer

variable {b b' : Buffer} {earlier later span : Span} {x : Exchange}

theorem length_cut (b : Buffer) (span : Span) :
    (b.cut span).cells.length + (b.copy span).cells.length = b.cells.length := by
  obtain ⟨length, inside⟩ := Log.block_bounds b span
  simp only [cut, copy, cellsOf, List.length_append, List.length_take, List.length_drop]
  omega

theorem length_paste (b slice : Buffer) (position : Nat) :
    (b.paste position slice).cells.length = b.cells.length + slice.cells.length :=
  Log.length_insertCells b _ _

/-- The log of a buffer is exchanged as the buffer is. -/
theorem exchange_log (fits : b.cells.length ≤ positionLimit)
    (exchanged : b.exchange earlier later = .ok (x, b')) :
    b.log.exchange earlier later = .ok (x.log, b'.log) := by
  by_cases order : earlier.stop ≤ later.start
  · simp only [exchange, order, if_true, Except.ok.injEq, Prod.mk.injEq] at exchanged
    obtain ⟨rfl, rfl⟩ := exchanged
    have lengths := length_cut b later
    have lengths' := length_cut (b.cut later) earlier
    have pasted := length_paste ((b.cut later).cut earlier) (b.copy later) earlier.start
    simp only [Log.exchange, order, if_true, Log.copy_log b later fits, Log.cut_log b later fits]
    rw [Log.copy_log (b.cut later) earlier (by omega), Log.cut_log (b.cut later) earlier (by omega),
      Log.paste_log _ _ _ (by omega), Log.paste_log _ _ _ (by omega)]
    rfl
  · simp [exchange, order] at exchanged

/-- The log of an exchanged buffer is put back as the buffer is. -/
theorem undo_log (fits : b.cells.length ≤ positionLimit) (inside : later.stop ≤ b.currentLength)
    (exchanged : b.exchange earlier later = .ok (x, b')) : x.log.undo b'.log = (x.undo b').log := by
  by_cases order : earlier.stop ≤ later.start
  · obtain ⟨before, first, gap, second, behind, cells_eq, division⟩ :=
      exists_division b order inside
    obtain ⟨cells⟩ := b
    subst cells_eq
    rw [division.exchange_eq order] at exchanged
    obtain ⟨rfl, rfl⟩ := by simpa only [Except.ok.injEq, Prod.mk.injEq] using exchanged
    have cuts := division.cuts_eq
    have lengths := length_paste ⟨before ++ second ++ (gap ++ behind)⟩ ⟨first⟩
      (later.start - earlier.length + later.length)
    simp only [List.length_append] at fits lengths
    generalize paste ⟨before ++ second ++ (gap ++ behind)⟩
      (later.start - earlier.length + later.length) ⟨first⟩ = b' at cuts lengths
    have shorter := length_cut b' (Span.sized earlier.start later.length)
    have pasted := length_paste ⟨before ++ gap ++ behind⟩ ⟨first⟩ earlier.start
    simp only [List.length_append] at pasted
    simp only [Log.Exchange.undo, Exchange.undo, Exchange.log]
    rw [Log.cut_log b' _ (by omega), Log.cut_log (b'.cut _) _ (by omega), cuts,
      Log.paste_log _ _ _ (by simp only [List.length_append]; omega), Log.paste_log _ _ _ ?_]
    rw [pasted]
    simp only
    omega
  · simp [exchange, order] at exchanged

/-- Undoing an exchange of two spans gives back every cell, whatever is deleted or inserted in them,
between them and at their ends; they may touch, and they may be empty. The log of the buffer is
exchanged along with it, and gets back every character and every marker. -/
theorem undone_exchange_restores_every_mark (b : Buffer) (earlier later : Span)
    (order : earlier.stop ≤ later.start) (inside : later.stop ≤ b.currentLength) :
    ∃ x b', b.exchange earlier later = .ok (x, b') ∧ x.undo b' = b ∧
      (b.cells.length ≤ positionLimit →
        b.log.exchange earlier later = .ok (x.log, b'.log) ∧ x.log.undo b'.log = b.log) := by
  obtain ⟨before, first, gap, second, behind, cells_eq, division⟩ := exists_division b order inside
  have exchanged := division.exchange_eq order
  rw [← cells_eq] at exchanged
  refine ⟨_, _, exchanged, undo_exchange inside exchanged,
    fun fits => ⟨exchange_log fits exchanged, ?_⟩⟩
  rw [undo_log fits inside exchanged, undo_exchange inside exchanged]

/-- A text of two touching words, in which something is deleted or inserted at every end. -/
def frayed : Buffer :=
  ⟨[⟨'p', .deleted⟩, ⟨'a', .kept⟩, ⟨'x', .deleted⟩, ⟨'b', .inserted⟩, ⟨'c', .kept⟩,
    ⟨'z', .deleted⟩]⟩

theorem frayed_restored : 1 ≤ 1 ∧ 3 ≤ frayed.currentLength ∧
    ∃ x b', frayed.exchange ⟨0, 1, by decide⟩ ⟨1, 3, by decide⟩ = .ok (x, b') ∧
      b'.marked = "DxAb_cDp_aDz".toList ∧ x.undo b' = frayed ∧ x.log.undo b'.log = frayed.log := by
  obtain ⟨x, b', exchanged, undone, logs⟩ := undone_exchange_restores_every_mark frayed
    ⟨0, 1, by decide⟩ ⟨1, 3, by decide⟩ (by decide) (by decide)
  have marked : (frayed.exchange ⟨0, 1, by decide⟩ ⟨1, 3, by decide⟩).map (·.2.marked) =
      .ok "DxAb_cDp_aDz".toList := by decide
  rw [exchanged] at marked
  exact ⟨by decide, by decide, x, b', exchanged, Except.ok.inj marked, undone, (logs (by decide)).2⟩

/-! ## Where the slices go -/

/-- The cells ahead of a span. -/
def cellsAhead (b : Buffer) (span : Span) : List Cell := b.cells.take (b.block span).start

/-- The cells behind a span. -/
def cellsBehind (b : Buffer) (span : Span) : List Cell := b.cells.drop (b.block span).stop

/-- The cells of a span from which a later one is taken away. Where the two touch, what is deleted
between them goes with the later one. -/
def cellsBefore (b : Buffer) (earlier later : Span) : List Cell :=
  ((b.cut later).copy earlier).cells

/-- The cells that neither of two spans takes along. -/
def cellsBetween (b : Buffer) (earlier later : Span) : List Cell :=
  (b.cells.take (b.block later).start).drop ((b.cut later).block earlier).stop

namespace Division

variable {before first gap second behind : List Cell}

/-- The pieces of a text around two spans, read off the text. -/
theorem pieces_eq (h : Division earlier later before first gap second behind)
    (cells_eq : b.cells = before ++ first ++ gap ++ second ++ behind) :
    b.cellsAhead earlier = before ∧ b.cellsBefore earlier later = first ∧
      b.cellsBetween earlier later = gap ∧ b.cellsOf later = second ∧
      b.cellsBehind later = behind := by
  obtain ⟨cells⟩ := b
  subst cells_eq
  have starts : StartsCurrent (gap ++ behind) := h.starts_gap.append h.starts_behind
  have ahead := firstIndex_append (first ++ gap ++ second ++ behind) h.ends_before
  obtain ⟨start, stop⟩ := block_append h.start_second h.stop_second h.ends_gap h.starts_behind
  have cut_later := cut_append h.start_second h.stop_second h.ends_gap h.starts_behind
  rw [List.append_assoc _ gap behind] at cut_later
  have stop_first := (block_append h.start_first h.stop_first h.ends_before starts).2
  refine ⟨?_, ?_, ?_, cellsOf_append h.start_second h.stop_second h.ends_gap h.starts_behind, ?_⟩
  · have enough : before.length ≤ (before ++ (first ++ gap ++ second ++ behind)).length := by simp
    have regroup : before ++ first ++ gap ++ second ++ behind =
        before ++ (first ++ gap ++ second ++ behind) := by simp
    rw [h.start_first] at ahead
    rw [regroup, cellsAhead, block]
    simp only [ahead, Nat.min_eq_left enough, List.take_left]
  · rw [cellsBefore, cut_later]
    exact cellsOf_append h.start_first h.stop_first h.ends_before starts
  · rw [cellsBetween, cut_later, start, stop_first, ← List.length_append]
    simp only [List.append_assoc _ second behind, List.take_left, List.drop_left]
  · rw [cellsBehind, stop, ← List.length_append]
    exact List.drop_left

/-- A gap of characters is one of cells. -/
theorem gap_ne_nil (h : Division earlier later before first gap second behind)
    (apart : earlier.stop < later.start) : gap ≠ [] := by
  rintro rfl
  have start := h.start_second
  rw [List.append_nil, h.stop_first] at start
  omega

end Division

/-- The cells of two spans trade places as wholes, with all that is deleted and inserted in them,
and what lies before, between and behind them stays: in storage, and so in both texts. This holds if
the spans do not touch, or if the later one does not end with a deleted character. -/
theorem exchange_trades_whole_slices (b : Buffer) (earlier later : Span)
    (order : earlier.stop ≤ later.start) (inside : later.stop ≤ b.currentLength)
    (whole : earlier.stop < later.start ∨ EndsCurrent (b.cellsOf later)) :
    b.cells = b.cellsAhead earlier ++ b.cellsBefore earlier later ++ b.cellsBetween earlier later ++
      b.cellsOf later ++ b.cellsBehind later ∧
    ∃ x b', b.exchange earlier later = .ok (x, b') ∧
      b'.cells = b.cellsAhead earlier ++ b.cellsOf later ++ b.cellsBetween earlier later ++
        b.cellsBefore earlier later ++ b.cellsBehind later ∧
      b'.current = shown (b.cellsAhead earlier) ++ shown (b.cellsOf later) ++
        shown (b.cellsBetween earlier later) ++ shown (b.cellsBefore earlier later) ++
        shown (b.cellsBehind later) ∧
      b'.committed = original (b.cellsAhead earlier) ++ original (b.cellsOf later) ++
        original (b.cellsBetween earlier later) ++ original (b.cellsBefore earlier later) ++
        original (b.cellsBehind later) := by
  obtain ⟨before, first, gap, second, behind, cells_eq, division⟩ := exists_division b order inside
  obtain ⟨ahead, earlier_eq, between, later_eq, rest⟩ := division.pieces_eq cells_eq
  have ends : EndsCurrent (before ++ second ++ gap) := by
    by_cases apart : gap = []
    · rw [later_eq] at whole
      have ends_second := whole.resolve_left fun less => division.gap_ne_nil less apart
      rw [apart, List.append_nil]
      exact division.ends_before.append_left ends_second
    · exact division.ends_of_gap apart
  have exchanged := division.exchange_eq order
  rw [division.exchanged ends, ← cells_eq] at exchanged
  rw [ahead, earlier_eq, between, later_eq, rest]
  refine ⟨cells_eq, _, _, exchanged, rfl, ?_, ?_⟩
  · simp only [current_eq, shown_append]
  · simp only [committed_eq, original_append]

/-- The text `(ab cd)` in which `a` is deleted and an `x` is typed into the second word. -/
def twoWords : Buffer :=
  ⟨[⟨'(', .kept⟩, ⟨'a', .deleted⟩, ⟨'b', .kept⟩, ⟨' ', .kept⟩, ⟨'c', .kept⟩, ⟨'x', .inserted⟩,
    ⟨'d', .kept⟩, ⟨')', .kept⟩]⟩

theorem twoWords_trade_places : 2 ≤ 3 ∧ 6 ≤ twoWords.currentLength ∧ 2 < 3 ∧
    ∃ x b', twoWords.exchange ⟨1, 2, by decide⟩ ⟨3, 6, by decide⟩ = .ok (x, b') ∧
      b'.current = "(cxd b)".toList ∧ b'.committed = "(cd ab)".toList := by
  obtain ⟨-, x, b', exchanged, -, current, committed⟩ := exchange_trades_whole_slices twoWords
    ⟨1, 2, by decide⟩ ⟨3, 6, by decide⟩ (by decide) (by decide) (.inl (by decide))
  refine ⟨by decide, by decide, by decide, x, b', exchanged, current.trans ?_, committed.trans ?_⟩
  · decide
  · decide

/-- The text `('a'bc)` without the `c`. Its two quotes touch. -/
def touchingQuotes : Buffer :=
  ⟨[⟨'(', .kept⟩, ⟨'\x27', .kept⟩, ⟨'a', .kept⟩, ⟨'\x27', .kept⟩, ⟨'b', .kept⟩, ⟨'c', .deleted⟩,
    ⟨')', .kept⟩]⟩

/-- Two quotes that touch trade places, but the character that is deleted behind the second one
stays where it is, behind the first one then: in the committed text it has gone over to that one. -/
theorem touchingQuotes_come_apart : (ofText "('a'bc)").delete 5 = .ok touchingQuotes ∧
    3 ≤ 3 ∧ 5 ≤ touchingQuotes.currentLength ∧
    original (touchingQuotes.cellsOf ⟨3, 5, by decide⟩) = "'bc".toList ∧
    original (touchingQuotes.cellsBefore ⟨1, 3, by decide⟩ ⟨3, 5, by decide⟩) = "'a".toList ∧
    ∃ x b', touchingQuotes.exchange ⟨1, 3, by decide⟩ ⟨3, 5, by decide⟩ = .ok (x, b') ∧
      b'.committed = "('b'ac)".toList ∧
      b'.cells ≠ touchingQuotes.cellsAhead ⟨1, 3, by decide⟩ ++
        touchingQuotes.cellsOf ⟨3, 5, by decide⟩ ++
        touchingQuotes.cellsBetween ⟨1, 3, by decide⟩ ⟨3, 5, by decide⟩ ++
        touchingQuotes.cellsBefore ⟨1, 3, by decide⟩ ⟨3, 5, by decide⟩ ++
        touchingQuotes.cellsBehind ⟨3, 5, by decide⟩ := by
  refine ⟨by decide, by decide, by decide, by decide, by decide, _, _, rfl, ?_, ?_⟩
  · decide
  · decide

end Buffer

end FormEdit
