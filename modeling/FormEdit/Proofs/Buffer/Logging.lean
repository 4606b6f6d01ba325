import FormEdit.Proofs.Buffer.Current
import FormEdit.Proofs.Buffer.Log

/-!
# Logs keep up with their buffers

Every operation on a log does to it what the same operation does to the cells of the buffer: the log
of the changed buffer comes out (`Operation.run_log`). What carries the proofs is that a place in
storage divides the markers as it divides the cells.
-/

namespace FormEdit

open Buffer

namespace Log

variable {xs ys cells : List Cell} {i position : Nat}

/-! ## Places -/

section Passing

variable {edge : Edge} {place index : Nat} {markers : List Marker}

theorem passing_inserted (reached : index ≤ place) :
    passing edge place (⟨index, .inserted⟩ :: markers) = passing edge place markers := by
  unfold passing
  rw [if_neg (Nat.not_lt.mpr reached), if_neg (by simp [Marker.isDeleted]), ← passing.eq_def]

theorem passing_deleted (reached : edge = .last ∧ index ≤ place ∨ index < place) :
    passing edge place (⟨index, .deleted⟩ :: markers) = passing edge (place + 1) markers := by
  have order : index ≤ place := by omega
  have goes_on : (edge == .last || decide (index < place)) = true := by
    rcases reached with ⟨rfl, -⟩ | before
    · rfl
    · simp [before]
  unfold passing
  rw [if_neg (Nat.not_lt.mpr order), if_pos (by simpa [Marker.isDeleted] using goes_on),
    ← passing.eq_def]

theorem passing_here (behind : ∀ m ∈ markers, place < m.index) :
    passing edge place markers = place := by
  cases markers with
  | nil => rfl
  | cons m markers =>
    unfold passing
    exact if_pos (behind m (List.mem_cons_self ..))

/-- A first place stays ahead of what is deleted there. -/
theorem passing_first_deleted (behind : ∀ m ∈ markers, place < m.index) :
    passing .first place (⟨place, .deleted⟩ :: markers) = place := by
  unfold passing
  rw [if_neg (Nat.lt_irrefl place), if_neg (by simp [Marker.isDeleted])]
  exact passing_here behind

end Passing

theorem behind_markersFrom : ∀ m ∈ markersFrom (i + 1) cells, i < m.index :=
  fun _ mem => (mem_markersFrom mem).1

theorem passing_first (i position : Nat) (cells : List Cell) :
    passing .first (position + i) (markersFrom i cells) = firstIndex position cells + i := by
  induction cells generalizing i position with
  | nil => cases position <;> rfl
  | cons c cells ih =>
    obtain ⟨char, status⟩ := c
    have shift (p : Nat) : p + 1 + i = p + (i + 1) := by omega
    cases position with
    | zero =>
      rw [firstIndex, Nat.zero_add]
      cases status with
      | kept => exact passing_here behind_markersFrom
      | inserted =>
        rw [markersFrom_inserted, passing_inserted (Nat.le_refl i)]
        exact passing_here behind_markersFrom
      | deleted => exact passing_first_deleted behind_markersFrom
    | succ position =>
      cases status with
      | kept =>
        rw [markersFrom_kept, shift, ih, firstIndex, shift]
        rfl
      | inserted =>
        rw [markersFrom_inserted, passing_inserted (by omega), shift, ih, firstIndex, shift]
        rfl
      | deleted =>
        rw [markersFrom_deleted, passing_deleted (.inr (by omega)), Nat.add_assoc _ i, ih,
          firstIndex, shift]
        rfl

theorem passing_last (i position : Nat) (cells : List Cell) :
    passing .last (position + i) (markersFrom i cells) = lastIndex position cells + i := by
  induction cells generalizing i position with
  | nil => cases position <;> rfl
  | cons c cells ih =>
    obtain ⟨char, status⟩ := c
    have shift (p : Nat) : p + 1 + i = p + (i + 1) := by omega
    cases status with
    | kept =>
      cases position with
      | zero =>
        rw [markersFrom_kept, Nat.zero_add, passing_here behind_markersFrom]
        simp [lastIndex, Cell.isCurrent]
      | succ position =>
        rw [markersFrom_kept, shift, ih, lastIndex, shift]
        rfl
    | inserted =>
      rw [markersFrom_inserted, passing_inserted (by omega)]
      cases position with
      | zero =>
        rw [Nat.zero_add, passing_here behind_markersFrom]
        simp [lastIndex, Cell.isCurrent]
      | succ position =>
        rw [shift, ih, lastIndex, shift]
        rfl
    | deleted =>
      rw [markersFrom_deleted, passing_deleted (.inl ⟨rfl, by omega⟩), Nat.add_assoc, ih]
      cases position with
      | zero =>
        simp [lastIndex, Cell.isCurrent]
        omega
      | succ position =>
        rw [lastIndex, shift]
        rfl

theorem place_first (b : Buffer) (position : Nat) :
    b.log.place .first position = firstIndex position b.cells :=
  passing_first 0 position b.cells

theorem place_last (b : Buffer) (position : Nat) :
    b.log.place .last position = lastIndex position b.cells :=
  passing_last 0 position b.cells

@[simp] theorem length_chars_log (b : Buffer) : b.log.chars.length = b.cells.length :=
  List.length_map ..

theorem block_eq (b : Buffer) (span : Span) : b.log.block span = b.block span := by
  simp only [Log.block, Buffer.block, place_first, place_last, length_chars_log]

/-! ## Bisection -/

section Bisection

variable {before behind : List Marker} {index low high : Nat}

theorem any_below (below : ∀ m ∈ before, m.index < index) (above : ∀ m ∈ behind, index ≤ m.index)
    (middle : Nat) : ((before ++ behind)[middle]?.any fun m => decide (m.index < index)) =
      decide (middle < before.length) := by
  by_cases inside : middle < before.length
  · have less := below before[middle] (List.getElem_mem inside)
    rw [List.getElem?_append_left inside, List.getElem?_eq_getElem inside]
    simp [less, inside]
  · rw [List.getElem?_append_right (Nat.not_lt.mp inside), decide_eq_false inside]
    cases found : behind[middle - before.length]? with
    | none => rfl
    | some m =>
      have more := above m (List.mem_of_getElem? found)
      simpa using more

/-- Bisection finds where the markers divide, if they do. -/
theorem bisect_eq (below : ∀ m ∈ before, m.index < index) (above : ∀ m ∈ behind, index ≤ m.index)
    (reached : low ≤ before.length) (passed : before.length ≤ high) :
    bisect (before ++ behind) index low high = before.length := by
  induction low, high using bisect.induct (before ++ behind) index with
  | case1 low high apart middle less ih =>
    rw [bisect, if_pos apart, if_pos less]
    rw [any_below below above, decide_eq_true_iff] at less
    exact ih less passed
  | case2 low high apart middle more ih =>
    rw [bisect, if_pos apart, if_neg more]
    rw [any_below below above, decide_eq_true_iff] at more
    exact ih reached (Nat.not_lt.mp more)
  | case3 low high closed =>
    rw [bisect, if_neg closed]
    omega

end Bisection

variable {b : Buffer} {index : Nat}

/-- A place in storage divides the markers as it divides the cells. -/
theorem markers_divide (b : Buffer) {index : Nat} (inside : index ≤ b.cells.length) :
    b.log.markers = markersFrom 0 (b.cells.take index) ++
      markersFrom index (b.cells.drop index) := by
  have divided := markersFrom_append 0 (b.cells.take index) (b.cells.drop index)
  rw [List.take_append_drop, List.length_take, Nat.min_eq_left inside, Nat.zero_add] at divided
  exact divided

theorem slot_eq (b : Buffer) {index : Nat} (inside : index ≤ b.cells.length) :
    b.log.slot index = (markersFrom 0 (b.cells.take index)).length := by
  rw [slot, markers_divide b inside]
  refine bisect_eq ?_ ?_ (Nat.zero_le _) (by simp)
  · intro m mem
    have bounds := (mem_markersFrom mem).2
    rw [List.length_take] at bounds
    omega
  · exact fun m mem => (mem_markersFrom mem).1

theorem take_slot (b : Buffer) {index : Nat} (inside : index ≤ b.cells.length) :
    b.log.markers.take (b.log.slot index) = markersFrom 0 (b.cells.take index) := by
  rw [slot_eq b inside, markers_divide b inside, List.take_left]

theorem drop_slot (b : Buffer) {index : Nat} (inside : index ≤ b.cells.length) :
    b.log.markers.drop (b.log.slot index) = markersFrom index (b.cells.drop index) := by
  rw [slot_eq b inside, markers_divide b inside, List.drop_left]

/-- The markers between two places are those of the cells between them. -/
theorem between_slots (b : Buffer) {first last : Nat} (order : first ≤ last)
    (inside : last ≤ b.cells.length) :
    (b.log.markers.drop (b.log.slot first)).take (b.log.slot last - b.log.slot first) =
      markersFrom first ((b.cells.drop first).take (last - first)) := by
  have start : first ≤ b.cells.length := Nat.le_trans order inside
  have ahead := List.take_add (l := b.cells) (i := first) (j := last - first)
  have behind := List.take_append_drop (last - first) (b.cells.drop first)
  rw [drop_slot b start, slot_eq b start, slot_eq b inside, ← behind, markersFrom_append,
    ← Nat.add_sub_cancel' order, ahead, Nat.add_sub_cancel_left, markersFrom_append,
    List.length_append,
    List.length_take, Nat.min_eq_left start, Nat.zero_add, Nat.add_sub_cancel_left, behind,
    List.take_left]

/-! ## Taking in and taking out -/

/-- A log that is put in becomes part of the log of the cells. -/
theorem put_log (b slice : Buffer) {index : Nat} (inside : index ≤ b.cells.length)
    (fits : b.cells.length + slice.cells.length ≤ positionLimit) :
    b.log.put index slice.log = (b.insertCells index slice.cells).log := by
  have behind := List.length_drop (l := b.cells) (i := index)
  rw [put, take_slot b inside, drop_slot b inside, length_chars_log]
  have slice_markers : slice.log.markers.map (·.moved index) = markersFrom index slice.cells :=
    map_moved (by omega) (by omega)
  rw [slice_markers, map_moved (j := index + slice.cells.length) (by omega) (by omega)]
  simp [Buffer.log, insertCells, markersFrom_append, inside]

theorem insertAt_log (b : Buffer) (c : Char) (index position : Nat)
    (fits : b.cells.length + 1 ≤ positionLimit) :
    b.log.insertAt c index position = (b.insertAt c index position).map log := by
  unfold Log.insertAt Buffer.insertAt
  by_cases inside : index ≤ b.cells.length
  · have put := put_log b ⟨[⟨c, .inserted⟩]⟩ inside fits
    have mark : Marker.moved ⟨0, .inserted⟩ index = ⟨index % positionLimit, .inserted⟩ := by
      unfold Marker.moved
      rw [Int.natCast_zero, Int.zero_add, ← Int.natCast_emod, Int.toNat_natCast]
    rw [length_chars_log, if_pos inside, if_pos inside, Except.map, ← put]
    have markers : (Buffer.mk [⟨c, .inserted⟩]).log.markers = [⟨0, .inserted⟩] := rfl
    have chars : (Buffer.mk [⟨c, .inserted⟩]).log.chars = [c] := rfl
    rw [Log.put, markers, chars, List.map_singleton, mark, List.append_assoc, List.append_assoc]
    rfl
  · rw [length_chars_log, if_neg inside, if_neg inside]
    rfl

theorem insert_log (b : Buffer) (c : Char) (position : Nat)
    (fits : b.cells.length + 1 ≤ positionLimit) :
    b.log.insert c position = (b.insert c position).map log := by
  rw [Log.insert, place_first, insertAt_log b c _ _ fits, Buffer.insert]

theorem insertPastDeleted_log (b : Buffer) (c : Char) (position : Nat)
    (fits : b.cells.length + 1 ≤ positionLimit) :
    b.log.insertPastDeleted c position = (b.insertPastDeleted c position).map log := by
  rw [Log.insertPastDeleted, place_last, insertAt_log b c _ _ fits, Buffer.insertPastDeleted]

/-- Cells that leave storage take their markers along. -/
theorem remove_log (b : Buffer) {index length : Nat} (inside : index + length ≤ b.cells.length)
    (fits : b.cells.length ≤ positionLimit) :
    b.log.remove index length =
      (Buffer.mk (b.cells.take index ++ b.cells.drop (index + length))).log := by
  have behind := List.length_drop (l := b.cells) (i := index + length)
  have start : index ≤ b.cells.length := by omega
  rw [remove, take_slot b start, drop_slot b inside, map_moved (j := index) (by omega) (by omega)]
  simp [Buffer.log, markersFrom_append, start]

theorem block_bounds (b : Buffer) (span : Span) :
    (b.block span).start + (b.block span).length = (b.block span).stop ∧
      (b.block span).stop ≤ b.cells.length := by
  have order := (b.block span).start_le_stop
  refine ⟨Nat.add_sub_cancel' order, ?_⟩
  simp only [Buffer.block]
  omega

theorem copy_log (b : Buffer) (span : Span) (fits : b.cells.length ≤ positionLimit) :
    b.log.copy span = (b.copy span).log := by
  obtain ⟨length, inside⟩ := block_bounds b span
  have order := (b.block span).start_le_stop
  rw [Log.copy, block_eq, between_slots b order inside]
  have markers : (markersFrom (b.block span).start ((b.cells.drop (b.block span).start).take
      ((b.block span).stop - (b.block span).start))).map (·.moved (-(b.block span).start)) =
      markersFrom 0 (b.cellsOf span) := by
    refine map_moved (by omega) ?_
    rw [List.length_take, List.length_drop]
    omega
  rw [markers]
  simp [Buffer.log, Buffer.copy, Buffer.cellsOf]

theorem cut_log (b : Buffer) (span : Span) (fits : b.cells.length ≤ positionLimit) :
    b.log.cut span = (b.cut span).log := by
  obtain ⟨length, inside⟩ := block_bounds b span
  rw [Log.cut, block_eq, remove_log b (by omega) fits, length]
  rfl

theorem paste_log (b slice : Buffer) (position : Nat)
    (fits : b.cells.length + slice.cells.length ≤ positionLimit) :
    b.log.paste position slice.log = (b.paste position slice).log := by
  rw [Log.paste, place_first, length_chars_log, put_log b slice (Nat.min_le_right ..) fits]
  rfl

theorem patchIn_log (b slice : Buffer) (position : Nat)
    (fits : b.cells.length + slice.cells.length ≤ positionLimit) :
    b.log.patchIn position slice.log =
      ((b.patchIn position slice).1.log, (b.patchIn position slice).2) := by
  have inside : min (lastIndex position b.cells) b.cells.length ≤ b.cells.length :=
    Nat.min_le_right ..
  rw [patchIn, place_last, length_chars_log, length_chars_log, put_log b slice inside fits]
  rfl

theorem patchOut_log (b : Buffer) (patch : Patch) (fits : b.cells.length ≤ positionLimit) :
    b.log.patchOut patch = (b.patchOut patch).map log := by
  unfold Log.patchOut Buffer.patchOut
  rw [length_chars_log]
  by_cases inside : patch.index + patch.length ≤ b.cells.length
  · rw [if_pos inside, if_pos inside, remove_log b inside fits]
    rfl
  · rw [if_neg inside, if_neg inside]
    rfl

section Deleting

variable {before rest : List Cell} {c : Char} {status : Status}

theorem slot_between (before : List Cell) (cell : Cell) (rest : List Cell) :
    (Buffer.mk (before ++ cell :: rest)).log.markers.take
        ((Buffer.mk (before ++ cell :: rest)).log.slot before.length) = markersFrom 0 before ∧
      (Buffer.mk (before ++ cell :: rest)).log.markers.drop
        ((Buffer.mk (before ++ cell :: rest)).log.slot before.length) =
          markersFrom before.length (cell :: rest) := by
  have inside : before.length ≤ (Buffer.mk (before ++ cell :: rest)).cells.length := by simp
  have ahead := take_slot _ inside
  have behind := drop_slot _ inside
  rw [List.take_left] at ahead
  rw [List.drop_left] at behind
  exact ⟨ahead, behind⟩

theorem deleteAt_kept (fits : (before ++ ⟨c, .kept⟩ :: rest).length ≤ positionLimit) :
    (Buffer.mk (before ++ ⟨c, .kept⟩ :: rest)).log.deleteAt before.length =
      .ok (Buffer.mk (before ++ ⟨c, .deleted⟩ :: rest)).log := by
  obtain ⟨ahead, behind⟩ := slot_between before ⟨c, .kept⟩ rest
  have unmarked : ((markersFrom (before.length + 1) rest).head?.filter
      (·.index == before.length)) = none := by
    rw [Option.filter_eq_none_iff]
    intro m first same
    have later := (mem_markersFrom (List.mem_of_mem_head? first)).1
    rw [beq_iff_eq] at same
    omega
  have below : before.length % positionLimit = before.length :=
    Nat.mod_eq_of_lt (by simp at fits; omega)
  rw [deleteAt]
  simp only [ahead, behind, markersFrom_kept, unmarked, below]
  simp [Buffer.log, markersFrom_append]

theorem deleteAt_inserted (fits : (before ++ ⟨c, .inserted⟩ :: rest).length ≤ positionLimit) :
    (Buffer.mk (before ++ ⟨c, .inserted⟩ :: rest)).log.deleteAt before.length =
      .ok (Buffer.mk (before ++ rest)).log := by
  obtain ⟨ahead, behind⟩ := slot_between before ⟨c, .inserted⟩ rest
  have back : (markersFrom (before.length + 1) rest).map (·.moved (-1)) =
      markersFrom before.length rest := map_moved (by omega) (by simp at fits; omega)
  rw [deleteAt]
  simp only [ahead, behind, markersFrom_inserted, List.head?_cons, Option.filter_some,
    beq_self_eq_true, if_true, Marker.isDeleted, List.tail_cons, back]
  simp [Buffer.log, markersFrom_append, List.eraseIdx_append]

theorem deleteAt_deleted :
    (Buffer.mk (before ++ ⟨c, .deleted⟩ :: rest)).log.deleteAt before.length =
      .error .deletedTwice := by
  obtain ⟨-, behind⟩ := slot_between before ⟨c, .deleted⟩ rest
  rw [deleteAt]
  simp only [behind, markersFrom_deleted, List.head?_cons, Option.filter_some, beq_self_eq_true,
    if_true, Marker.isDeleted]

end Deleting

theorem delete_log (b : Buffer) (position : Nat) (fits : b.cells.length ≤ positionLimit) :
    b.log.delete position = (b.delete position).map log := by
  rw [Log.delete, Buffer.delete, place_last, length_chars_log]
  generalize lastIndex position b.cells = index
  by_cases inside : index < b.cells.length
  · obtain ⟨cells⟩ := b
    obtain ⟨before, ⟨c, status⟩, rest, rfl, rfl⟩ : ∃ before cell rest,
        cells = before ++ cell :: rest ∧ before.length = index := by
      refine ⟨cells.take index, cells[index], cells.drop (index + 1), ?_, ?_⟩
      · rw [← List.drop_eq_getElem_cons inside, List.take_append_drop]
      · rw [List.length_take, Nat.min_eq_left (Nat.le_of_lt inside)]
    simp only [if_pos inside, List.drop_left, List.take_left]
    cases status with
    | kept => exact deleteAt_kept fits
    | inserted => exact deleteAt_inserted fits
    | deleted => exact deleteAt_deleted
  · rw [if_neg inside]
    simp only [List.drop_eq_nil_of_le (Nat.not_lt.mp inside)]
    rfl

/-! ## Committing -/

/-- The deleted characters among some cells leave storage from the last one to the first. -/
theorem erase_deleted (ahead behind : List Char) (cells : List Cell) :
    ((markersFrom ahead.length cells).filter Marker.isDeleted).reverse.foldl
        (fun chars m => chars.eraseIdx m.index) (ahead ++ cells.map Cell.char ++ behind) =
      ahead ++ (cells.filter Cell.isCurrent).map Cell.char ++ behind := by
  induction cells generalizing ahead with
  | nil => simp
  | cons c cells ih =>
    obtain ⟨char, status⟩ := c
    have later := ih (ahead ++ [char])
    simp only [List.length_append, List.length_singleton, List.append_assoc, List.cons_append,
      List.nil_append] at later
    cases status with
    | kept => simpa [List.filter_cons, Cell.isCurrent] using later
    | inserted => simpa [List.filter_cons, Cell.isCurrent, Marker.isDeleted] using later
    | deleted =>
      simp only [markersFrom_deleted, List.map_cons, List.append_assoc, List.cons_append]
      rw [List.filter_cons_of_pos rfl, List.reverse_cons, List.foldl_append, later]
      simp [Cell.isCurrent, List.eraseIdx_append]

theorem count_deleted (i : Nat) (cells : List Cell) :
    ((markersFrom i cells).filter Marker.isDeleted).length + (settle cells).length =
      cells.length := by
  induction cells generalizing i with
  | nil => rfl
  | cons c cells ih =>
    obtain ⟨char, status⟩ := c
    have later := ih (i + 1)
    simp only [settle, List.length_map] at later
    cases status with
    | kept | inserted =>
      simp [settle, List.filter_cons, Cell.isCurrent, Marker.isDeleted, ← later, Nat.add_assoc]
    | deleted =>
      simp [settle, Cell.isCurrent, Marker.isDeleted, ← later, Nat.add_right_comm]

theorem markersFrom_settle (i : Nat) (cells : List Cell) : markersFrom i (settle cells) = [] := by
  induction cells generalizing i with
  | nil => rfl
  | cons c cells ih =>
    rw [settle, List.filter_cons]
    split
    · exact ih (i + 1)
    · exact ih i

theorem map_char_settle (cells : List Cell) :
    (settle cells).map Cell.char = (cells.filter Cell.isCurrent).map Cell.char := by
  simp [settle]

theorem commitBetween_log (b : Buffer) {first last : Nat} (order : first ≤ last)
    (inside : last ≤ b.cells.length) (fits : b.cells.length ≤ positionLimit) :
    b.log.commitBetween first last = (Buffer.mk (b.cells.take first ++
      settle ((b.cells.drop first).take (last - first)) ++ b.cells.drop last)).log := by
  have start : first ≤ b.cells.length := Nat.le_trans order inside
  rw [commitBetween, between_slots b order inside, take_slot b start, drop_slot b inside]
  have cells_eq : b.cells = b.cells.take first ++ (b.cells.drop first).take (last - first) ++
      b.cells.drop last := by
    rw [← List.take_add, Nat.add_sub_cancel' order, List.take_append_drop]
  have ahead : (b.cells.take first).length = first := by
    rw [List.length_take, Nat.min_eq_left start]
  generalize (b.cells.drop first).take (last - first) = middle at cells_eq ⊢
  have total := congrArg List.length cells_eq
  have behind := List.length_drop (l := b.cells) (i := last)
  have count := count_deleted first middle
  rw [List.length_append, List.length_append, ahead, behind] at total
  have moved : (markersFrom last (b.cells.drop last)).map
      (·.moved (-(((markersFrom first middle).filter Marker.isDeleted).length : Int))) =
      markersFrom (first + (settle middle).length) (b.cells.drop last) :=
    map_moved (by omega) (by omega)
  have erased :=
    erase_deleted ((b.cells.take first).map Cell.char) ((b.cells.drop last).map Cell.char) middle
  rw [List.length_map, ahead, ← List.map_append, ← List.map_append, ← cells_eq] at erased
  rw [moved, show b.log.chars = b.cells.map Cell.char from rfl, erased, ← map_char_settle]
  simp [Buffer.log, markersFrom_append, markersFrom_settle, ahead]

/-- The first and the last current character of a span stand in order. -/
theorem commit_order (b : Buffer) {span : Span} (filled : ¬span.isEmpty = true) :
    min (lastIndex span.start b.cells) b.cells.length ≤
      min (lastIndex (span.stop - 1) b.cells + 1) b.cells.length := by
  have order := span.start_le_stop
  simp only [Span.isEmpty, beq_iff_eq] at filled
  have places : lastIndex span.start b.cells ≤ lastIndex (span.stop - 1) b.cells :=
    lastIndex_mono (by omega)
  omega

theorem commit_log (b : Buffer) (span : Span) (fits : b.cells.length ≤ positionLimit) :
    b.log.commit span = (b.commit span).log := by
  rw [Log.commit, Buffer.commit, place_last, place_last, length_chars_log]
  by_cases empty : span.isEmpty
  · have none := commitBetween_log b (Nat.le_refl _)
      (Nat.min_le_right (lastIndex span.start b.cells) b.cells.length) fits
    rw [if_pos empty, if_pos empty, none]
    simp [settle]
  · rw [if_neg empty, if_neg empty]
    exact commitBetween_log b (commit_order b empty) (Nat.min_le_right ..) fits

/-! ## Looking at a log -/

section Walking

variable {α : Type} (f : Char → Option Change → List α)

theorem walk_unmarked {markers : List Marker} (c : Char) (chars : List Char)
    (behind : ∀ m ∈ markers, i < m.index) :
    walk f i (c :: chars) markers = f c none ++ walk f (i + 1) chars markers := by
  cases markers with
  | nil => rw [walk]
  | cons m markers =>
    have later := behind m (List.mem_cons_self ..)
    rw [walk, if_neg (by omega)]

/-- Going through a log is going through the cells. -/
theorem walk_eq (i : Nat) (cells : List Cell) :
    walk f i (cells.map Cell.char) (markersFrom i cells) =
      cells.flatMap fun c => f c.char c.change? := by
  induction cells generalizing i with
  | nil => rfl
  | cons c cells ih =>
    obtain ⟨char, status⟩ := c
    rw [List.map_cons, List.flatMap_cons, ← ih (i + 1)]
    cases status with
    | kept => exact walk_unmarked f char _ behind_markersFrom
    | inserted => rw [markersFrom_inserted, walk, if_pos rfl]; rfl
    | deleted => rw [markersFrom_deleted, walk, if_pos rfl]; rfl

theorem walk_log (b : Buffer) :
    walk f 0 b.log.chars b.log.markers = b.cells.flatMap fun c => f c.char c.change? :=
  walk_eq f 0 b.cells

end Walking

theorem marked_eq (b : Buffer) : b.log.marked = b.marked := by
  rw [Log.marked, walk_log, Buffer.marked]
  congr
  funext c
  obtain ⟨char, status⟩ := c
  cases status <;> rfl

/-- A view hides the cells with one of the changes. -/
theorem without_eq (hidden : Change) (b : Buffer) :
    b.log.without hidden = (b.cells.filter (·.change? ≠ some hidden)).map Cell.char := by
  rw [without, walk_log]
  induction b.cells with
  | nil => rfl
  | cons c cells ih =>
    rw [List.flatMap_cons, ih, List.filter_cons]
    by_cases same : c.change? = some hidden <;> simp [same]

theorem current_eq (b : Buffer) : b.log.current = b.current := by
  rw [Log.current, without_eq, Buffer.current]
  congr
  funext c
  obtain ⟨char, status⟩ := c
  cases status <;> rfl

theorem original_eq (b : Buffer) : b.log.original = b.committed := by
  rw [Log.original, without_eq, Buffer.committed]
  congr
  funext c
  obtain ⟨char, status⟩ := c
  cases status <;> rfl

theorem count_eq (change : Change) (b : Buffer) :
    b.log.count change = b.cells.countP (·.change? == some change) := by
  rw [count, Buffer.log]
  generalize 0 = i
  induction b.cells generalizing i with
  | nil => rfl
  | cons c cells ih =>
    obtain ⟨char, status⟩ := c
    have later := ih (i + 1)
    cases status <;> simpa [List.countP_cons, Cell.change?] using later

/-- Taking only the deleted markers is looking at cells without insertions. -/
theorem filter_deleted (i : Nat) (cells : List Cell) :
    (markersFrom i cells).filter Marker.isDeleted =
      markersFrom i (cells.map fun c => if c.isCurrent then ⟨c.char, .kept⟩ else c) := by
  induction cells generalizing i with
  | nil => rfl
  | cons c cells ih =>
    obtain ⟨char, status⟩ := c
    have later := ih (i + 1)
    cases status <;> simpa [Cell.isCurrent, Marker.isDeleted] using later

theorem commitAll_log (b : Buffer) : b.log.commitAll = b.commitAll.log := by
  have chars : b.log.chars =
      (b.cells.map fun c => if c.isCurrent then ⟨c.char, .kept⟩ else c).map Cell.char := by
    rw [List.map_map, Buffer.log]
    refine List.map_congr_left fun c _ => ?_
    by_cases current : c.isCurrent <;> simp [current]
  have markers : b.log.markers.filter Marker.isDeleted = _ := filter_deleted 0 b.cells
  rw [Log.commitAll, chars, markers, walk_eq, Buffer.commitAll, Buffer.log, markersFrom_settle]
  congr
  induction b.cells with
  | nil => rfl
  | cons c cells ih =>
    obtain ⟨char, status⟩ := c
    cases status <;> simpa [settle, List.filter_cons, Cell.isCurrent, Cell.change?] using ih

theorem ofChange_change? (c : Cell) : Status.ofChange c.change? = c.status := by
  obtain ⟨char, status⟩ := c
  cases status <;> rfl

theorem buffer_log (b : Buffer) : b.log.buffer = b := by
  rw [Log.buffer, walk_log]
  simp [ofChange_change?]

/-- What a well-formed log says of its characters is the log itself. -/
theorem markersFrom_walk {chars : List Char} {markers : List Marker}
    (ascending : markers.Pairwise fun m n => m.index < n.index)
    (inside : ∀ m ∈ markers, i ≤ m.index ∧ m.index < i + chars.length) :
    markersFrom i (walk (fun c change => [⟨c, Status.ofChange change⟩]) i chars markers) = markers ∧
      (walk (fun c change => [⟨c, Status.ofChange change⟩]) i chars markers).map Cell.char =
        chars := by
  induction chars generalizing i markers with
  | nil =>
    have none : markers = [] := by
      rw [List.eq_nil_iff_forall_not_mem]
      intro m mem
      have bounds := inside m mem
      simp only [List.length_nil] at bounds
      omega
    simp [none, walk]
  | cons c chars ih =>
    simp only [List.length_cons] at inside
    have rest {later : List Marker} (ascending : later.Pairwise fun m n => m.index < n.index)
        (bounds : ∀ m ∈ later, m.index < i + (chars.length + 1)) (behind : ∀ m ∈ later,
          i < m.index) :=
      ih (i := i + 1) ascending fun m mem => by
        have bound := bounds m mem
        have past := behind m mem
        omega
    cases markers with
    | nil =>
      obtain ⟨same, text⟩ := rest .nil nofun nofun
      simp [walk, same, text]
    | cons m later =>
      obtain ⟨⟨first, last⟩, bounds⟩ := List.forall_mem_cons.mp inside
      obtain ⟨behind, ascending'⟩ := List.pairwise_cons.mp ascending
      by_cases here : m.index = i
      · obtain ⟨_, change⟩ := m
        subst here
        obtain ⟨same, text⟩ := rest ascending' (fun n mem => (bounds n mem).2) behind
        rw [walk, if_pos rfl]
        cases change <;> simp [same, text]
      · have past : ∀ n ∈ m :: later, i < n.index :=
          List.forall_mem_cons.mpr ⟨by omega, fun n mem => by have := behind n mem; omega⟩
        obtain ⟨same, text⟩ := rest ascending (fun n mem => (inside n mem).2) past
        rw [walk_unmarked _ c chars past]
        simp [same, text]

theorem WellFormed.log_buffer {l : Log} (wellFormed : l.WellFormed) : l.buffer.log = l := by
  obtain ⟨markers, chars⟩ := markersFrom_walk (i := 0) wellFormed.ascending
    (by simpa using wellFormed.inside)
  rw [Log.buffer, Buffer.log, markers, chars]

/-- The cells without a change of one kind are what its markers leave of storage. -/
theorem length_without (change : Change) (b : Buffer) :
    b.cells.countP (·.change? != some change) + b.log.count change = b.log.chars.length := by
  have split := List.length_eq_countP_add_countP (l := b.cells) (·.change? == some change)
  simp only [Bool.not_eq_true, Bool.decide_eq_false] at split
  rw [count_eq, length_chars_log, Nat.add_comm]
  exact split.symm

theorem current_count (b : Buffer) :
    b.currentLength = b.cells.countP (·.change? != some .deleted) := by
  rw [Buffer.currentLength]
  congr
  funext c
  obtain ⟨char, status⟩ := c
  cases status <;> rfl

theorem committed_count (b : Buffer) :
    b.committedLength = b.cells.countP (·.change? != some .inserted) := by
  rw [Buffer.committedLength]
  congr
  funext c
  obtain ⟨char, status⟩ := c
  cases status <;> rfl

/-- The lengths of the two views, which are too short to wrap around. -/
theorem lengths_eq (b : Buffer) (short : b.cells.length < positionLimit) :
    b.log.currentLength = b.currentLength ∧ b.log.originalLength = b.committedLength := by
  rw [Log.currentLength, Log.originalLength, ← length_without .deleted, Nat.add_sub_cancel,
    length_without .deleted, ← length_without .inserted, Nat.add_sub_cancel, current_count,
    committed_count]
  exact ⟨Nat.mod_eq_of_lt (Nat.lt_of_le_of_lt List.countP_le_length short),
    Nat.mod_eq_of_lt (Nat.lt_of_le_of_lt List.countP_le_length short)⟩

/-- What is pushed stands behind all of storage, since the last place of the end of the text is
there. -/
theorem push_log (b slice : Buffer) (short : b.cells.length < positionLimit)
    (fits : b.cells.length + slice.cells.length ≤ positionLimit) :
    b.log.push slice.log = (b ++ slice).log := by
  have behind : min (lastIndex b.currentLength b.cells) b.cells.length = b.cells.length := by
    rw [currentLength_eq, lastIndex_currentCount, Nat.min_self]
  rw [Log.push, (lengths_eq b short).1, patchIn_log b slice _ fits, Buffer.patchIn, behind,
    insertCells, List.take_length, List.drop_length, List.append_nil]
  rfl

end Log

end FormEdit
