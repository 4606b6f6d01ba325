import FormEdit.Buffer.Patch
import FormEdit.Proofs.Buffer.Current
import FormEdit.Proofs.Buffer.Undoing

/-!
# Moving and copying text

Whatever is deleted or inserted in a buffer, its current text is cut, pasted and copied as a plain
list of characters would be: the lost cells go along with one of the pieces and show in none.
-/

namespace FormEdit.Buffer

variable {b b' : Buffer} {span earlier later : Span} {position : Nat}

/-- The characters of a span. -/
def pieceOf (text : List Char) (span : Span) : List Char := (text.drop span.start).take span.length

/-- Two stretches of a text trade places. -/
def exchangedText (text : List Char) (earlier later : Span) : List Char :=
  text.take earlier.start ++ pieceOf text later ++
    (text.drop earlier.stop).take (later.start - earlier.stop) ++ pieceOf text earlier ++
    text.drop later.stop

/-- The text with another one put in. -/
def insertedText (text : List Char) (position : Nat) (more : List Char) : List Char :=
  text.take position ++ more ++ text.drop position

theorem pieceOf_append {ahead piece behind : List Char} (start : ahead.length = span.start)
    (stop : (ahead ++ piece).length = span.stop) :
    pieceOf (ahead ++ (piece ++ behind)) span = piece := by
  have length : span.length = piece.length := by
    rw [List.length_append] at stop
    rw [Span.length]
    omega
  rw [pieceOf, ← start, List.drop_left, length, List.take_left]

theorem length_pieceOf {text : List Char} (inside : span.stop ≤ text.length) :
    (pieceOf text span).length = span.length := by
  rw [pieceOf, List.length_take, List.length_drop, Span.length]
  omega

/-- What trades places, piece by piece. -/
theorem exchangedText_append {ahead first gap second behind : List Char}
    (start_first : ahead.length = earlier.start)
    (stop_first : (ahead ++ first).length = earlier.stop)
    (start_second : (ahead ++ first ++ gap).length = later.start)
    (stop_second : (ahead ++ first ++ gap ++ second).length = later.stop) :
    exchangedText (ahead ++ (first ++ (gap ++ (second ++ behind)))) earlier later =
      ahead ++ (second ++ (gap ++ (first ++ behind))) := by
  have piece_second : pieceOf (ahead ++ (first ++ (gap ++ (second ++ behind)))) later = second := by
    have regroup : ahead ++ (first ++ (gap ++ (second ++ behind))) =
        ahead ++ first ++ gap ++ (second ++ behind) := by
      simp only [List.append_assoc]
    rw [regroup]
    exact pieceOf_append start_second stop_second
  have between : (((ahead ++ (first ++ (gap ++ (second ++ behind)))).drop earlier.stop).take
      (later.start - earlier.stop)) = gap := by
    have length : later.start - earlier.stop = gap.length := by
      simp only [List.length_append] at *
      omega
    rw [← List.append_assoc, ← stop_first, List.drop_left, stop_first, length, List.take_left]
  have rest : (ahead ++ (first ++ (gap ++ (second ++ behind)))).drop later.stop = behind := by
    rw [← stop_second]
    simp only [← List.append_assoc, List.drop_left]
  rw [exchangedText, piece_second, between, rest, pieceOf_append start_first stop_first,
    ← start_first, List.take_left]
  simp only [List.append_assoc]

theorem mem_pieceOf {text : List Char} {c : Char} (mem : c ∈ pieceOf text span) : c ∈ text :=
  List.mem_of_mem_drop (List.mem_of_mem_take mem)

theorem mem_exchangedText {text : List Char} {c : Char}
    (mem : c ∈ exchangedText text earlier later) : c ∈ text := by
  simp only [exchangedText, List.mem_append] at mem
  rcases mem with (((mem | mem) | mem) | mem) | mem
  · exact List.mem_of_mem_take mem
  · exact mem_pieceOf mem
  · exact List.mem_of_mem_drop (List.mem_of_mem_take mem)
  · exact mem_pieceOf mem
  · exact List.mem_of_mem_drop mem

theorem mem_insertedText {text more : List Char} {c : Char}
    (mem : c ∈ insertedText text position more) : c ∈ text ∨ c ∈ more := by
  simp only [insertedText, List.mem_append] at mem
  rcases mem with (mem | mem) | mem
  · exact .inl (List.mem_of_mem_take mem)
  · exact .inr mem
  · exact .inl (List.mem_of_mem_drop mem)

theorem length_insertedText (text more : List Char) (position : Nat) :
    (insertedText text position more).length = text.length + more.length := by
  have parts := congrArg List.length (List.take_append_drop position text)
  simp only [insertedText, List.length_append] at parts ⊢
  omega

theorem copy_current (start : span.start ≤ b.currentLength) :
    (b.copy span).current = pieceOf b.current span := by
  have read := congrArg (List.map Placed.char) (slice_current b start)
  rwa [map_char_run, slice, placeCurrent_eq, map_char_run] at read

/-- Cells put in at a seam show there. -/
theorem shown_between {xs ys : List Cell} (cells : List Cell) (count : currentCount xs = position) :
    shown (xs ++ cells ++ ys) = insertedText (shown (xs ++ ys)) position (shown cells) := by
  rw [insertedText, take_shown count, drop_shown count, shown_append, shown_append]

theorem exists_paste (b slice : Buffer) (inside : position ≤ b.currentLength) :
    ∃ xs ys, b.cells = xs ++ ys ∧ currentCount xs = position ∧
      (b.paste position slice).cells = xs ++ slice.cells ++ ys := by
  obtain ⟨xs, ys, cells_eq, count, ends⟩ := exists_firstSplit b.cells inside
  obtain ⟨cells⟩ := b
  subst cells_eq
  have pasted := paste_append slice.cells ys count ends
  exact ⟨xs, ys, rfl, count, by rw [pasted]⟩

theorem patchIn_append {xs ys : List Cell} (slice : Buffer) (count : currentCount xs = position)
    (starts : StartsCurrent ys) :
    (patchIn ⟨xs ++ ys⟩ position slice).1 = ⟨xs ++ slice.cells ++ ys⟩ := by
  have place := lastIndex_append xs starts
  rw [patchIn, insertCells, ← count, place,
    Nat.min_eq_left (by rw [List.length_append]; exact Nat.le_add_right _ _), List.take_left,
    List.drop_left]

theorem exists_patchIn (b slice : Buffer) (inside : position ≤ b.currentLength) :
    ∃ xs ys, b.cells = xs ++ ys ∧ currentCount xs = position ∧
      (b.patchIn position slice).1.cells = xs ++ slice.cells ++ ys := by
  obtain ⟨xs, ys, cells_eq, count, starts⟩ := exists_lastSplit b.cells inside
  obtain ⟨cells⟩ := b
  subst cells_eq
  exact ⟨xs, ys, rfl, count, by rw [patchIn_append slice count starts]⟩

theorem patchIn_current (b slice : Buffer) (inside : position ≤ b.currentLength) :
    (b.patchIn position slice).1.current = insertedText b.current position slice.current := by
  obtain ⟨xs, ys, cells_eq, count, patched⟩ := exists_patchIn b slice inside
  rw [current_eq, current_eq, current_eq, patched, cells_eq, shown_between _ count]

/-- An exchange moves cells and changes none. -/
theorem exchange_spec (order : earlier.stop ≤ later.start) (inside : later.stop ≤ b.currentLength) :
    ∃ x b', b.exchange earlier later = .ok (x, b') ∧
      b'.current = exchangedText b.current earlier later ∧ b'.cells.Perm b.cells := by
  obtain ⟨before, first, gap, second, behind, cells_eq, division⟩ := exists_division b order inside
  obtain ⟨cells⟩ := b
  subst cells_eq
  refine ⟨_, _, division.exchange_eq order, ?_⟩
  have room : later.start - earlier.length + later.length ≤
      currentLength ⟨before ++ second ++ (gap ++ behind)⟩ := by
    rw [← division.second_place, currentLength_eq]
    simp only [currentCount_append]
    omega
  obtain ⟨xs, ys, split, count, pasted⟩ := exists_paste _ ⟨first⟩ room
  constructor
  · have start_first := division.start_first
    have stop_first := division.stop_first
    have start_second := division.start_second
    have stop_second := division.stop_second
    rw [← length_shown] at start_first stop_first start_second stop_second
    simp only [shown_append] at stop_first start_second stop_second
    have traded : exchangedText (shown before ++ (shown first ++ (shown gap ++ (shown second ++
        shown behind)))) earlier later = _ :=
      exchangedText_append start_first stop_first start_second stop_second
    have regroup : before ++ second ++ (gap ++ behind) = before ++ second ++ gap ++ behind := by
      simp
    rw [current_eq, pasted, shown_between _ count, ← split, regroup, insertedText,
      take_shown division.second_place, drop_shown division.second_place, current_eq]
    simp only [shown_append, List.append_assoc] at traded ⊢
    exact traded.symm
  · rw [pasted]
    refine List.perm_iff_count.mpr fun c => ?_
    have counts := congrArg (List.count c) split
    simp only [List.count_append] at counts ⊢
    omega

end FormEdit.Buffer
