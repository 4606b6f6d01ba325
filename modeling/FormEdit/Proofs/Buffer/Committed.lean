import FormEdit.Proofs.Buffer.Kept
import FormEdit.Proofs.Buffer.Moving
import FormEdit.Proofs.Grammar.Scanning

/-!
# The committed text

The committed characters of a span stand at positions that do not decrease: a deleted character
takes the position of the next one that stays, and inserted characters leave gaps. Typing and
deleting do not change them: a stroke overwrites a stretch of storage with another one that has the
same committed characters (`Overwrites`).
-/

namespace FormEdit

/-- A character ahead of others. -/
theorem Lexer.Sorted.cons {position : Nat} {chars : List Placed} (sorted : Sorted position chars)
    (c : Char) (fits : position + 1 < positionLimit) :
    Sorted position (⟨position, c⟩ :: chars) where
  after := by
    intro p mem
    rcases List.mem_cons.mp mem with rfl | mem
    · exact Nat.le_refl _
    · exact sorted.after p mem
  order := List.pairwise_cons.mpr ⟨sorted.after, sorted.order⟩
  fits := by
    intro p mem
    rcases List.mem_cons.mp mem with rfl | mem
    · exact fits
    · exact sorted.fits p mem

namespace Buffer

open Lexer

variable {b : Buffer} {span : Span} {cells : List Cell} {position : Nat}

/-- The characters of the committed cells. -/
def original (cells : List Cell) : List Char := (cells.filter Cell.isCommitted).map Cell.char

@[simp] theorem original_nil : original [] = [] := rfl

@[simp] theorem original_append (xs ys : List Cell) :
    original (xs ++ ys) = original xs ++ original ys := by
  simp [original]

theorem original_cons (c : Cell) (cells : List Cell) :
    original (c :: cells) = (if c.isCommitted then [c.char] else []) ++ original cells := by
  rw [original, List.filter_cons]
  split <;> rfl

/-- The committed cells. -/
def saved (cells : List Cell) : List Cell := cells.filter Cell.isCommitted

@[simp] theorem saved_nil : saved [] = [] := rfl

@[simp] theorem saved_append (xs ys : List Cell) : saved (xs ++ ys) = saved xs ++ saved ys := by
  simp [saved]

theorem original_eq_saved (cells : List Cell) : original cells = (saved cells).map Cell.char := rfl

@[simp] theorem length_saved (cells : List Cell) :
    (saved cells).length = (original cells).length := by
  rw [original_eq_saved, List.length_map]

theorem saved_eq_self (committed : ∀ c ∈ cells, c.isCommitted = true) : saved cells = cells :=
  List.filter_eq_self.mpr committed

theorem committed_eq (b : Buffer) : b.committed = original b.cells := rfl

theorem map_char_placeCommitted (position : Nat) (cells : List Cell) :
    (placeCommitted position cells).map Placed.char = original cells := by
  induction cells generalizing position with
  | nil => rfl
  | cons c cells ih =>
    obtain ⟨char, status⟩ := c
    cases status <;> simp [placeCommitted, original_cons, Cell.isCommitted, ih]

/-- A span covers no more current cells than it is long. -/
theorem currentCount_cellsOf (start : span.start ≤ b.currentLength) :
    currentCount (b.cellsOf span) ≤ span.length := by
  have placed := slice_current b start
  rw [slice, placeCurrent_eq] at placed
  have chars := congrArg (List.map Placed.char) placed
  rw [map_char_run, map_char_run] at chars
  rw [← length_shown, chars]
  exact List.length_take_le _ _

/-- Committed characters stand in order, inside of the positions that their cells take up. -/
theorem sorted_placeCommitted (fits : position + currentCount cells + 1 < positionLimit) :
    Sorted position (placeCommitted position cells) := by
  induction cells generalizing position with
  | nil => exact ⟨nofun, .nil, nofun⟩
  | cons c cells ih =>
    obtain ⟨char, status⟩ := c
    rw [currentCount_cons] at fits
    cases status with
    | kept =>
      replace fits : position + (1 + currentCount cells) + 1 < positionLimit := fits
      have sorted : Sorted (position + 1) (placeCommitted (position + 1) cells) := ih (by omega)
      exact (sorted.weaken (Nat.le_succ position)).cons char (by omega)
    | inserted =>
      replace fits : position + (1 + currentCount cells) + 1 < positionLimit := fits
      exact (ih (by omega)).weaken (Nat.le_succ position)
    | deleted =>
      replace fits : position + (0 + currentCount cells) + 1 < positionLimit := fits
      exact (ih (by omega)).cons char (by omega)

/-- The committed characters of a span that lies inside of the text stand in order. -/
theorem sorted_slice_committed (inside : span.stop ≤ b.currentLength)
    (fits : b.currentLength + 1 < positionLimit) :
    Sorted span.start (b.slice .committed span) := by
  have ordered := span.start_le_stop
  have count := currentCount_cellsOf (Nat.le_trans ordered inside)
  rw [Span.length] at count
  exact sorted_placeCommitted (by omega)

/-! ## Strokes -/

/-- What is left of a current cell that is deleted. -/
def struck (c : Cell) : List Cell := if c.status = .inserted then [] else [⟨c.char, .deleted⟩]

theorem currentCount_struck (c : Cell) : currentCount (struck c) = 0 := by
  unfold struck
  split <;> rfl

theorem original_struck {c : Cell} (current : c.isCurrent = true) :
    original (struck c) = original [c] := by
  obtain ⟨char, status⟩ := c
  cases status with
  | kept => rfl
  | inserted => rfl
  | deleted => cases current

theorem status_struck {c d : Cell} (mem : d ∈ struck c) : d.status = .deleted := by
  unfold struck at mem
  split at mem
  · cases mem
  · cases List.mem_singleton.mp mem
    rfl

theorem char_struck {c d : Cell} (mem : d ∈ struck c) : d.char = c.char := by
  unfold struck at mem
  split at mem
  · cases mem
  · cases List.mem_singleton.mp mem
    rfl

/-- At a position, `count` current characters give way to `count'` others, and the committed
characters stay as they are. -/
def Overwrites (position count count' : Nat) (cells cells' : List Cell) : Prop :=
  ∃ before old new behind, cells = before ++ (old ++ behind) ∧ cells' = before ++ (new ++ behind) ∧
    currentCount before = position ∧ currentCount old = count ∧ currentCount new = count' ∧
    original new = original old

theorem overwrites_typed {before behind : List Cell} (c : Char)
    (count : currentCount before = position) :
    Overwrites position 0 1 (before ++ behind) (before ++ ⟨c, .inserted⟩ :: behind) :=
  ⟨before, [], [⟨c, .inserted⟩], behind, rfl, rfl, count, rfl, rfl, rfl⟩

theorem insert_overwrites {b' : Buffer} {c : Char} (inside : position ≤ b.currentLength)
    (typed : b.insert c position = .ok b') : Overwrites position 0 1 b.cells b'.cells := by
  obtain ⟨cells⟩ := b
  obtain ⟨before, behind, rfl, count, ends⟩ := exists_firstSplit cells inside
  rw [insert_append count ends] at typed
  cases typed
  exact overwrites_typed c count

theorem insertPastDeleted_overwrites {b' : Buffer} {c : Char} (inside : position ≤ b.currentLength)
    (typed : b.insertPastDeleted c position = .ok b') :
    Overwrites position 0 1 b.cells b'.cells := by
  obtain ⟨cells⟩ := b
  obtain ⟨before, behind, rfl, count, starts⟩ := exists_lastSplit cells inside
  rw [insertPastDeleted_append count starts] at typed
  cases typed
  exact overwrites_typed c count

theorem delete_overwrites {b' : Buffer} (inside : position < b.currentLength)
    (deleted : b.delete position = .ok b') : Overwrites position 1 0 b.cells b'.cells := by
  obtain ⟨cells⟩ := b
  obtain ⟨before, behind, rfl, count, starts⟩ := exists_lastSplit cells (Nat.le_of_lt inside)
  cases behind with
  | nil =>
    rw [List.append_nil, currentLength_eq] at inside
    simp only [count] at inside
    omega
  | cons c behind =>
    have current := starts c rfl
    rw [delete_append count current] at deleted
    cases deleted
    obtain ⟨char, status⟩ := c
    cases status with
    | kept =>
      exact ⟨before, [⟨char, .kept⟩], [⟨char, .deleted⟩], behind, rfl, rfl, count, rfl, rfl, rfl⟩
    | inserted => exact ⟨before, [⟨char, .inserted⟩], [], behind, rfl, rfl, count, rfl, rfl, rfl⟩
    | deleted => cases current

/-- Cells of which none is committed are all current. -/
theorem currentCount_of_typed (typed : original cells = []) :
    currentCount cells = cells.length := by
  refine List.countP_eq_length.mpr fun c mem => ?_
  have none : c.isCommitted = false := by
    have filtered := List.filter_eq_nil_iff.mp (List.map_eq_nil_iff.mp typed) c mem
    simpa using filtered
  obtain ⟨char, status⟩ := c
  cases status with
  | kept => cases none
  | deleted => cases none
  | inserted => rfl

/-- A character typed among kept cells leaves nothing behind when it is deleted. -/
theorem AllKept.overwrites_back {cells' cells'' : List Cell} (kept : AllKept cells)
    (typed : Overwrites position 0 1 cells cells')
    (deleted : Overwrites position 1 0 cells' cells'') : cells'' = cells := by
  obtain ⟨before, old, new, behind, rfl, rfl, rfl, count_old, count_new, same⟩ := typed
  rw [AllKept.append, AllKept.append] at kept
  obtain ⟨kept_before, kept_old, kept_behind⟩ := kept
  rw [kept_old.currentCount_eq, List.length_eq_zero_iff] at count_old
  subst count_old
  have length_new := currentCount_of_typed same
  obtain ⟨before', old', new', behind', split, rfl, count, count_old', count_new', same'⟩ := deleted
  -- All cells are current, so positions are places in storage.
  have current : ∀ c ∈ before ++ (new ++ behind), c.isCurrent = true := by
    intro c mem
    simp only [List.mem_append] at mem
    rcases mem with mem | mem | mem
    · exact kept_before.current c mem
    · exact List.countP_eq_length.mp length_new c mem
    · exact kept_behind.current c mem
  have counted {xs : List Cell} (sub : xs ⊆ before' ++ (old' ++ behind')) :
      currentCount xs = xs.length :=
    List.countP_eq_length.mpr fun c mem => current c (split ▸ sub mem)
  have length_before := counted (List.subset_append_left _ _)
  have length_old' := counted (List.subset_append_of_subset_right _ (List.subset_append_left _ _))
  rw [kept_before.currentCount_eq] at count
  obtain ⟨rfl, rest⟩ := List.append_inj split (by omega)
  obtain ⟨rfl, rfl⟩ := List.append_inj rest (by omega)
  have length_new' := currentCount_of_typed (same'.trans same)
  rw [List.eq_nil_of_length_eq_zero (length_new'.symm.trans count_new')]

end Buffer

end FormEdit
