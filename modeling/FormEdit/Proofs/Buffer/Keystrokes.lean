import FormEdit.Proofs.Buffer.Committed
import FormEdit.Proofs.Buffer.Operations

/-!
# Two texts in one storage

Whatever is typed and deleted, the current text of a buffer is that of an editor which keeps nothing
of what is deleted, and the committed text is the one that the buffer was made from. Both kinds of
insertion come out the same in the current text, and faults come where the plain editor has them
(`Keystroke.run_cases`, `map_current_runAll`). The log of the buffer goes along as long as its
places do not wrap around (`runLog_log`).
-/

namespace FormEdit.Buffer

/-! ## Past the end -/

variable {b b' : Buffer} {c : Char} {cells : List Cell} {position : Nat}

theorem length_lt_firstIndex (past : currentCount cells < position) :
    cells.length < firstIndex position cells := by
  induction cells generalizing position with
  | nil =>
    cases position with
    | zero => exact absurd past (Nat.lt_irrefl 0)
    | succ position => exact Nat.succ_pos position
  | cons c cells ih =>
    cases position with
    | zero => exact absurd past (Nat.not_lt_zero _)
    | succ position =>
      rw [currentCount_cons] at past
      rw [firstIndex, List.length_cons]
      refine Nat.succ_lt_succ (ih ?_)
      split
      next current => rw [if_pos current] at past; omega
      next deleted => rw [if_neg deleted] at past; omega

theorem firstIndex_le_lastIndex (position : Nat) (cells : List Cell) :
    firstIndex position cells ≤ lastIndex position cells := by
  induction cells generalizing position with
  | nil => cases position <;> exact Nat.le_refl _
  | cons c cells ih =>
    cases position with
    | zero => exact Nat.zero_le _
    | succ position => exact Nat.succ_le_succ (ih _)

theorem insert_past (past : b.currentLength < position) :
    b.insert c position = .error (.insertOutOfBounds position) := by
  have beyond := length_lt_firstIndex past
  rw [insert, insertAt, if_neg (Nat.not_le.mpr beyond)]

theorem insertPastDeleted_past (past : b.currentLength < position) :
    b.insertPastDeleted c position = .error (.insertOutOfBounds position) := by
  have beyond :=
    Nat.lt_of_lt_of_le (length_lt_firstIndex past) (firstIndex_le_lastIndex position b.cells)
  rw [insertPastDeleted, insertAt, if_neg (Nat.not_le.mpr beyond)]

theorem delete_past (past : b.currentLength ≤ position) :
    b.delete position = .error (.deleteOutOfBounds position) := by
  have beyond : b.cells.length ≤ lastIndex position b.cells := by
    rw [← lastIndex_currentCount b.cells]
    exact lastIndex_mono past
  simp only [delete, List.drop_eq_nil_of_le beyond]

/-- Overwriting a stretch of storage keeps the committed text. -/
theorem Overwrites.committed_eq {count count' : Nat}
    (overwrites : Overwrites position count count' b.cells b'.cells) :
    b'.committed = b.committed := by
  obtain ⟨before, old, new, behind, cells_eq, cells_eq', -, -, -, same⟩ := overwrites
  rw [Buffer.committed_eq, Buffer.committed_eq, cells_eq, cells_eq']
  simp only [original_append, same]

/-! ## One keystroke -/

/-- A single character is typed ahead of the deleted ones at its position, or past them, or it is
deleted. -/
inductive Keystroke where
  | insert (char : Char) (position : Nat)
  | insertPastDeleted (char : Char) (position : Nat)
  | delete (position : Nat)

namespace Keystroke

def run (b : Buffer) : Keystroke → Checked Buffer
  | .insert c position => b.insert c position
  | .insertPastDeleted c position => b.insertPastDeleted c position
  | .delete position => b.delete position

def runLog (l : Log) : Keystroke → Checked Log
  | .insert c position => l.insert c position
  | .insertPastDeleted c position => l.insertPastDeleted c position
  | .delete position => l.delete position

/-- The keystroke is meant for a text of this length. -/
def Inside (length : Nat) : Keystroke → Prop
  | .insert _ position | .insertPastDeleted _ position => position ≤ length
  | .delete position => position < length

/-- The keystroke in an editor that keeps nothing of what is deleted. -/
def edit (text : List Char) : Keystroke → Checked (List Char)
  | .insert c position | .insertPastDeleted c position =>
    if position ≤ text.length then .ok (typedText text c position)
    else .error (.insertOutOfBounds position)
  | .delete position =>
    if position < text.length then .ok (text.eraseIdx position) else
      .error (.deleteOutOfBounds position)

/-- A keystroke inside of the text does to the current text what it does in the plain editor, and
leaves the committed text alone. Outside of it, it has no result in either. -/
theorem run_cases (b : Buffer) (k : Keystroke) :
    (k.Inside b.currentLength ∧ ∃ b', k.run b = .ok b' ∧ k.edit b.current = .ok b'.current ∧
      b'.committed = b.committed) ∨
    ¬k.Inside b.currentLength ∧ ∃ fault, k.run b = .error fault ∧
    k.edit b.current = .error fault := by
  have typed {run : Checked Buffer} {c : Char} {position : Nat}
    (inside : position ≤ b.currentLength)
      (known : ∃ b', run = .ok b' ∧ b'.current = typedText b.current c position)
      (writes : ∀ b', run = .ok b' → Overwrites position 0 1 b.cells b'.cells) :
      ∃ b', run = .ok b' ∧ (Keystroke.insert c position).edit b.current = .ok b'.current ∧
        b'.committed = b.committed := by
    obtain ⟨b', ran, current⟩ := known
    refine ⟨b', ran, ?_, (writes b' ran).committed_eq⟩
    rw [edit, length_current, if_pos inside, current]
  have untyped {c : Char} {position : Nat} (outside : ¬position ≤ b.currentLength) :
      (Keystroke.insert c position).edit b.current = .error (.insertOutOfBounds position) := by
    rw [edit, length_current, if_neg outside]
  cases k with
  | insert c position =>
    by_cases inside : position ≤ b.currentLength
    · exact .inl ⟨inside, typed inside (insert_current b c inside) fun _ ran =>
        insert_overwrites inside ran⟩
    · exact .inr ⟨inside, _, insert_past (Nat.not_le.mp inside), untyped inside⟩
  | insertPastDeleted c position =>
    by_cases inside : position ≤ b.currentLength
    · exact .inl ⟨inside, typed inside (insertPastDeleted_current b c inside) fun _ ran =>
        insertPastDeleted_overwrites inside ran⟩
    · exact .inr ⟨inside, _, insertPastDeleted_past (Nat.not_le.mp inside), untyped inside⟩
  | delete position =>
    by_cases inside : position < b.currentLength
    · obtain ⟨b', ran, current⟩ := delete_current b inside
      refine .inl ⟨inside, b', ran, ?_, (delete_overwrites inside ran).committed_eq⟩
      rw [edit, length_current, if_pos inside, current]
    · refine .inr ⟨inside, _, delete_past (Nat.not_lt.mp inside), ?_⟩
      rw [edit, length_current, if_neg inside]

/-- The log does what the buffer does. -/
theorem runLog_log (k : Keystroke) (short : b.cells.length < positionLimit) :
    k.runLog b.log = (k.run b).map log := by
  cases k with
  | insert c position => exact Log.insert_log b c position short
  | insertPastDeleted c position => exact Log.insertPastDeleted_log b c position short
  | delete position => exact Log.delete_log b position (Nat.le_of_lt short)

end Keystroke

/-! ## Any number of them -/

def runAll (b : Buffer) (ks : List Keystroke) : Checked Buffer := ks.foldlM Keystroke.run b

theorem runAll_cons (b : Buffer) (k : Keystroke) (ks : List Keystroke) :
    b.runAll (k :: ks) = k.run b >>= (runAll · ks) :=
  List.foldlM_cons

/-- The current text goes on as it does in the plain editor, up to the first fault. -/
theorem map_current_runAll (b : Buffer) (ks : List Keystroke) :
    (b.runAll ks).map current = ks.foldlM Keystroke.edit b.current := by
  induction ks generalizing b with
  | nil => rfl
  | cons k ks ih =>
    rw [runAll_cons, List.foldlM_cons]
    rcases k.run_cases b with ⟨-, b', ran, edited, -⟩ | ⟨-, fault, ran, edited⟩
    · rw [ran, edited, ok_bind, ok_bind, ih]
    · rw [ran, edited]
      rfl

theorem runAll_committed {ks : List Keystroke} (ran : b.runAll ks = .ok b') :
    b'.committed = b.committed := by
  induction ks generalizing b with
  | nil =>
    cases ran
    rfl
  | cons k ks ih =>
    rw [runAll_cons] at ran
    obtain ⟨next, first, rest⟩ := bind_eq_ok.mp ran
    rcases k.run_cases b with ⟨-, found, found_eq, -, committed⟩ | ⟨-, fault, failed, -⟩
    · rw [first] at found_eq
      cases found_eq
      rw [ih rest, committed]
    · rw [first] at failed
      cases failed

/-- The log goes on as the buffer does while storage is short enough. -/
theorem runAll_log (ks : List Keystroke)
    (short : ∀ n b', b.runAll (ks.take n) = .ok b' → b'.cells.length < positionLimit) :
    ks.foldlM Keystroke.runLog b.log = (b.runAll ks).map log := by
  induction ks generalizing b with
  | nil => rfl
  | cons k ks ih =>
    rw [runAll_cons, List.foldlM_cons, k.runLog_log (short 0 b rfl)]
    cases first : k.run b with
    | error fault => rfl
    | ok next =>
      refine ih fun n b' ran => short (n + 1) b' ?_
      rw [List.take_succ_cons, runAll_cons, first]
      exact ran

/-- Both views of a text without changes are the text. -/
theorem views_ofText (text : String) :
    (ofText text).current = text.toList ∧ (ofText text).committed = text.toList := by
  simp [ofText, current, committed, Cell.isCurrent, Cell.isCommitted, List.filter_map,
    Function.comp_def]

/-- A buffer is made from a text, and characters are typed and deleted in any order. Its current
text, or the fault that ends the run, is that of a plain editor; the committed text is still the
first one, and a next keystroke fails just if its position is outside of the current text. The same
run of the log has the same result while storage stays below the limit. -/
theorem keystrokes_keep_both_texts (text : String) (ks : List Keystroke) :
    ((ofText text).runAll ks).map current = ks.foldlM Keystroke.edit text.toList ∧
    (∀ b, (ofText text).runAll ks = .ok b → b.committed = text.toList ∧
      b.currentLength = b.current.length ∧
      ∀ k : Keystroke, (∃ fault, k.run b = .error fault) ↔ ¬k.Inside b.currentLength) ∧
    ((∀ n b, (ofText text).runAll (ks.take n) = .ok b → b.cells.length < positionLimit) →
      ks.foldlM Keystroke.runLog (Log.ofText text) = ((ofText text).runAll ks).map log) := by
  obtain ⟨current, committed⟩ := views_ofText text
  refine ⟨?_, ?_, ?_⟩
  · rw [map_current_runAll, current]
  · intro b ran
    refine ⟨by rw [runAll_committed ran, committed], (length_current b).symm, fun k => ?_⟩
    rcases k.run_cases b with ⟨inside, b', ran', -, -⟩ | ⟨outside, fault, failed, -⟩
    · simp [ran', inside]
    · simp [failed, outside]
  · intro short
    rw [← Log.log_ofText]
    exact runAll_log ks short

end FormEdit.Buffer
