import FormEdit.Proofs.Buffer.Logging

/-!
# Runs of operations on logs

A log that is made from a text by any operations is the log of the buffer that the same operations
make from the same text (`Operation.run_log`, `Made.exists_buffer`). So it never stops being
well-formed, although nothing in a log prevents that.
-/

namespace FormEdit.Log

open Buffer

variable {b : Buffer}

/-- What can be done to a log. -/
inductive Operation where
  | insert (char : Char) (position : Nat)
  | insertPastDeleted (char : Char) (position : Nat)
  | delete (position : Nat)
  | copy (span : Span)
  | cut (span : Span)
  | paste (position : Nat) (slice : Log)
  | patchIn (position : Nat) (slice : Log)
  | patchOut (patch : Patch)
  | push (slice : Log)
  | commit (span : Span)
  | commitAll

namespace Operation

/-- The log after an operation. A copy goes on by itself. -/
def run (l : Log) : Operation → Checked Log
  | .insert c position => l.insert c position
  | .insertPastDeleted c position => l.insertPastDeleted c position
  | .delete position => l.delete position
  | .copy span => .ok (l.copy span)
  | .cut span => .ok (l.cut span)
  | .paste position slice => .ok (l.paste position slice)
  | .patchIn position slice => .ok (l.patchIn position slice).1
  | .patchOut patch => l.patchOut patch
  | .push slice => .ok (l.push slice)
  | .commit span => .ok (l.commit span)
  | .commitAll => .ok l.commitAll

/-- The same done to cells. -/
def onCells (b : Buffer) : Operation → Checked Buffer
  | .insert c position => b.insert c position
  | .insertPastDeleted c position => b.insertPastDeleted c position
  | .delete position => b.delete position
  | .copy span => .ok (b.copy span)
  | .cut span => .ok (b.cut span)
  | .paste position slice => .ok (b.paste position slice.buffer)
  | .patchIn position slice => .ok (b.patchIn position slice.buffer).1
  | .patchOut patch => b.patchOut patch
  | .push slice => .ok (b ++ slice.buffer)
  | .commit span => .ok (b.commit span)
  | .commitAll => .ok b.commitAll

/-- Positions of single characters lie inside of the text and patches inside of storage, what is put
in is well-formed, and storage stays below the limit. Spans, and the positions of what is put in,
may be any. -/
def Fits (l : Log) : Operation → Prop
  | .insert _ position | .insertPastDeleted _ position =>
    position ≤ l.currentLength ∧ l.chars.length + 1 < positionLimit
  | .delete position => position < l.currentLength
  | .paste _ slice | .patchIn _ slice | .push slice =>
    slice.WellFormed ∧ l.chars.length + slice.chars.length < positionLimit
  | .patchOut patch => patch.index + patch.length ≤ l.chars.length
  | .copy _ | .cut _ | .commit _ | .commitAll => True

end Operation

section Lengths

variable {b' : Buffer} {c : Char} {index position : Nat}

theorem length_insertCells (b : Buffer) (index : Nat) (cells : List Cell) :
    (b.insertCells index cells).cells.length = b.cells.length + cells.length := by
  have parts := congrArg List.length (List.take_append_drop index b.cells)
  simp only [insertCells, List.length_append] at parts ⊢
  omega

theorem length_insertAt (inserted : b.insertAt c index position = .ok b') :
    b'.cells.length = b.cells.length + 1 := by
  rw [Buffer.insertAt] at inserted
  split at inserted
  · cases inserted
    exact length_insertCells b index _
  · cases inserted

theorem length_delete (deleted : b.delete position = .ok b') :
    b'.cells.length ≤ b.cells.length := by
  have parts := congrArg List.length (List.take_append_drop (lastIndex position b.cells) b.cells)
  rw [List.length_append] at parts
  rw [Buffer.delete] at deleted
  cases behind : b.cells.drop (lastIndex position b.cells) with
  | nil => simp [behind] at deleted
  | cons cell rest =>
    simp only [behind] at deleted
    rw [behind, List.length_cons] at parts
    cases status : cell.status with
    | kept =>
      simp only [status, Except.ok.injEq] at deleted
      rw [← deleted, List.length_append, List.length_cons]
      omega
    | inserted =>
      simp only [status, Except.ok.injEq] at deleted
      rw [← deleted, List.length_append]
      omega
    | deleted => simp [status] at deleted

theorem length_settle_le (cells : List Cell) : (settle cells).length ≤ cells.length := by
  rw [settle, List.length_map]
  exact List.length_filter_le ..

theorem length_cellsOf_le (b : Buffer) (span : Span) :
    (b.cellsOf span).length ≤ b.cells.length := by
  simp only [Buffer.cellsOf, List.length_take, List.length_drop]
  omega

theorem length_take_drop_le (cells : List Cell) {first last : Nat} (order : first ≤ last) :
    (cells.take first ++ cells.drop last).length ≤ cells.length := by
  simp only [List.length_append, List.length_take, List.length_drop]
  omega

theorem length_commit_le (b : Buffer) (span : Span) :
    (b.commit span).cells.length ≤ b.cells.length := by
  rw [Buffer.commit]
  split
  · exact Nat.le_refl _
  · have order := commit_order b ‹_›
    have settled :=
      length_settle_le ((b.cells.drop (min (lastIndex span.start b.cells) b.cells.length)).take
        (min (lastIndex (span.stop - 1) b.cells + 1) b.cells.length -
          min (lastIndex span.start b.cells) b.cells.length))
    simp only [List.length_append, List.length_take, List.length_drop] at settled ⊢
    omega

end Lengths

theorem slice_of_fits {slice : Log}
    (fits : slice.WellFormed ∧ b.log.chars.length + slice.chars.length < positionLimit) :
    ∃ s : Buffer, slice = s.log ∧ b.cells.length + s.cells.length < positionLimit := by
  obtain ⟨wellFormed, room⟩ := fits
  refine ⟨slice.buffer, wellFormed.log_buffer.symm, ?_⟩
  rwa [← wellFormed.log_buffer, length_chars_log, length_chars_log] at room

/-- An operation does to a log what it does to the cells. -/
theorem Operation.run_log {op : Operation} (fits : op.Fits b.log)
    (short : b.cells.length < positionLimit) :
    ∃ b', op.onCells b = .ok b' ∧ op.run b.log = .ok b'.log ∧ b'.cells.length < positionLimit := by
  have limit : b.cells.length ≤ positionLimit := Nat.le_of_lt short
  have length : b.log.currentLength = b.currentLength := (lengths_eq b short).1
  cases op with
  | insert c position =>
    obtain ⟨inside, room⟩ := fits
    rw [length] at inside
    rw [length_chars_log] at room
    obtain ⟨b', inserted, -⟩ := insert_current b c inside
    refine ⟨b', inserted, ?_, by rwa [length_insertAt inserted]⟩
    rw [run, insert_log b c position (Nat.le_of_lt room), inserted]
    rfl
  | insertPastDeleted c position =>
    obtain ⟨inside, room⟩ := fits
    rw [length] at inside
    rw [length_chars_log] at room
    obtain ⟨b', inserted, -⟩ := insertPastDeleted_current b c inside
    refine ⟨b', inserted, ?_, by rwa [length_insertAt inserted]⟩
    rw [run, insertPastDeleted_log b c position (Nat.le_of_lt room), inserted]
    rfl
  | delete position =>
    rw [Fits, length] at fits
    obtain ⟨b', deleted, -⟩ := delete_current b fits
    refine ⟨b', deleted, ?_, Nat.lt_of_le_of_lt (length_delete deleted) short⟩
    rw [run, delete_log b position limit, deleted]
    rfl
  | copy span =>
    exact ⟨b.copy span, rfl, congrArg Except.ok (copy_log b span limit),
      Nat.lt_of_le_of_lt (length_cellsOf_le b span) short⟩
  | cut span =>
    exact ⟨b.cut span, rfl, congrArg Except.ok (cut_log b span limit),
      Nat.lt_of_le_of_lt (length_take_drop_le b.cells (b.block span).start_le_stop) short⟩
  | paste position slice =>
    obtain ⟨s, rfl, room⟩ := slice_of_fits fits
    refine ⟨b.paste position s, ?_, congrArg Except.ok ?_, ?_⟩
    · rw [onCells, buffer_log]
    · exact paste_log b s position (Nat.le_of_lt room)
    · rwa [Buffer.paste, length_insertCells]
  | patchIn position slice =>
    obtain ⟨s, rfl, room⟩ := slice_of_fits fits
    refine ⟨(b.patchIn position s).1, ?_, congrArg Except.ok ?_, ?_⟩
    · rw [onCells, buffer_log]
    · rw [patchIn_log b s position (Nat.le_of_lt room)]
    · rwa [Buffer.patchIn, length_insertCells]
  | patchOut patch =>
    rw [Fits, length_chars_log] at fits
    refine ⟨_, if_pos fits, ?_,
      Nat.lt_of_le_of_lt (length_take_drop_le b.cells (Nat.le_add_right ..)) short⟩
    rw [run, patchOut_log b patch limit, Buffer.patchOut, if_pos fits]
    rfl
  | push slice =>
    obtain ⟨s, rfl, room⟩ := slice_of_fits fits
    refine ⟨b ++ s, ?_, congrArg Except.ok (push_log b s short (Nat.le_of_lt room)), ?_⟩
    · rw [onCells, buffer_log]
    · rwa [show (b ++ s).cells = b.cells ++ s.cells from rfl, List.length_append]
  | commit span =>
    exact ⟨b.commit span, rfl, congrArg Except.ok (commit_log b span limit),
      Nat.lt_of_le_of_lt (length_commit_le b span) short⟩
  | commitAll =>
    exact ⟨b.commitAll, rfl, congrArg Except.ok (commitAll_log b),
      Nat.lt_of_le_of_lt (length_settle_le b.cells) short⟩

/-- The logs that a text can lead to. -/
inductive Made : Log → Prop
  | text {text : String} (short : text.toList.length < positionLimit) : Made (ofText text)
  | step {l l' : Log} {op : Operation} (made : Made l) (fits : op.Fits l)
      (ran : op.run l = .ok l') : Made l'

theorem log_ofText (text : String) : (Buffer.ofText text).log = ofText text := by
  have unmarked (i : Nat) (chars : List Char) : markersFrom i (chars.map (⟨·, .kept⟩)) = [] := by
    induction chars generalizing i with
    | nil => rfl
    | cons c chars ih => exact ih (i + 1)
  rw [Buffer.log, Buffer.ofText, unmarked, ofText, List.map_map]
  exact congrArg (Log.mk · []) (List.map_id _)

theorem Made.exists_buffer {l : Log} (made : Made l) :
    ∃ b : Buffer, l = b.log ∧ b.cells.length < positionLimit := by
  induction made with
  | @text text short =>
    exact ⟨Buffer.ofText text, (log_ofText text).symm, by simpa [Buffer.ofText] using short⟩
  | step _ fits ran ih =>
    obtain ⟨b, rfl, short⟩ := ih
    obtain ⟨b', -, ran', short'⟩ := Operation.run_log fits short
    rw [ran] at ran'
    cases ran'
    exact ⟨b', rfl, short'⟩

/-- Whatever is done to a log, it stays well-formed and goes on as the list of its characters, each
with its one mark: all operations return and do to that list what they do to a buffer of cells.
Every marker stands at the place of its character, so none has wrapped around; the lengths of both
views are what the markers leave of storage. -/
theorem log_refines_marked_characters {l : Log} (made : Made l) :
    l.WellFormed ∧ l.chars.length < positionLimit ∧
    l.buffer.log = l ∧ l.marked = l.buffer.marked ∧
    l.currentLength + l.count .deleted = l.chars.length ∧
    l.originalLength + l.count .inserted = l.chars.length ∧
    l.current = l.buffer.current ∧ l.current.length = l.currentLength ∧
    l.original = l.buffer.committed ∧ l.original.length = l.originalLength ∧
    ∀ op : Operation, op.Fits l →
      ∃ l', op.run l = .ok l' ∧ op.onCells l.buffer = .ok l'.buffer ∧ Made l' := by
  obtain ⟨b, rfl, short⟩ := made.exists_buffer
  obtain ⟨current, original⟩ := lengths_eq b short
  rw [buffer_log]
  refine ⟨log_wellFormed b, ?_, rfl, marked_eq b, ?_, ?_, current_eq b, ?_, original_eq b, ?_, ?_⟩
  · rwa [length_chars_log]
  · rw [current, current_count, length_without]
  · rw [original, committed_count, length_without]
  · rw [current_eq, current, length_current]
  · rw [original_eq, original, length_committed]
  · intro op fits
    obtain ⟨b', cells, ran, -⟩ := Operation.run_log fits short
    exact ⟨b'.log, ran, by rw [cells, buffer_log], .step made fits ran⟩

/-- In the text `ab` the first character is deleted, and another one typed past it. -/
theorem ofText_ab_marks_changes :
    Made (ofText "ab") ∧ ∃ l' l'', (Operation.delete 0).run (ofText "ab") = .ok l' ∧
    (Operation.insertPastDeleted 'c' 0).run l' = .ok l'' ∧ l''.WellFormed ∧
    l''.marked = "DaAc_b".toList ∧ l''.currentLength + l''.count .deleted = l''.chars.length := by
  have made : Made (ofText "ab") := .text (by decide)
  obtain ⟨-, -, -, -, -, -, -, -, -, -, runs⟩ := log_refines_marked_characters made
  obtain ⟨l', ran, cells, made'⟩ :=
    runs (.delete 0) (show 0 < (ofText "ab").currentLength by decide)
  have buffer : l'.buffer = ⟨[⟨'a', .deleted⟩, ⟨'b', .kept⟩]⟩ := by
    rw [show (Operation.delete 0).onCells (ofText "ab").buffer =
      .ok ⟨[⟨'a', .deleted⟩, ⟨'b', .kept⟩]⟩ by
      decide] at cells
    exact (Except.ok.inj cells).symm
  obtain ⟨-, -, whole, -, -, -, -, -, -, -, runs'⟩ := log_refines_marked_characters made'
  have fits : (Operation.insertPastDeleted 'c' 0).Fits l' := by
    rw [← whole, buffer]
    exact ⟨by decide, by decide⟩
  obtain ⟨l'', ran', cells', made''⟩ := runs' (.insertPastDeleted 'c' 0) fits
  have buffer' : l''.buffer = ⟨[⟨'a', .deleted⟩, ⟨'c', .inserted⟩, ⟨'b', .kept⟩]⟩ := by
    rw [buffer, show (Operation.insertPastDeleted 'c' 0).onCells ⟨[⟨'a', .deleted⟩, ⟨'b', .kept⟩]⟩ =
      .ok ⟨[⟨'a', .deleted⟩, ⟨'c', .inserted⟩, ⟨'b', .kept⟩]⟩ by decide] at cells'
    exact (Except.ok.inj cells').symm
  obtain ⟨wellFormed, -, -, marked, lengths, -⟩ := log_refines_marked_characters made''
  exact ⟨made, l', l'', ran, ran', wellFormed, by rw [marked, buffer']; rfl, lengths⟩

end FormEdit.Log
