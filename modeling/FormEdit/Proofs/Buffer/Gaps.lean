import FormEdit.Proofs.Buffer.Exchanging
import FormEdit.Proofs.Buffer.Keystrokes
import Mathlib.Data.Nat.Count
import Mathlib.Order.Bounds.Defs

/-!
# Gaps in storage

A position of the current text stands for all places in storage with so many visible characters
before them. These places are a gap: nothing but deleted characters lies between its ends, and
visible ones stand around it (`isLeast_gap`, `isGreatest_gap`). A position is translated to one of
the two ends, by going through the markers of a log or through the cells of a buffer alike.
-/

namespace FormEdit

open Buffer

namespace Log

variable {l : Log} {index position : Nat} {before behind : List Cell} {c : Cell}

/-- A character is stored at the place, and no marker has it as deleted. -/
def Visible (l : Log) (index : Nat) : Prop :=
  index < l.chars.length ∧ ⟨index, .deleted⟩ ∉ l.markers

instance (l : Log) : DecidablePred l.Visible := fun index =>
  inferInstanceAs (Decidable (index < l.chars.length ∧ ⟨index, .deleted⟩ ∉ l.markers))

/-- The places in storage with `position` visible characters before them. -/
def gap (l : Log) (position : Nat) : Set Nat :=
  {index | index ≤ l.chars.length ∧ Nat.count l.Visible index = position}

/-! ## The ends of a gap -/

/-- A gap starts where a visible character stands before it, or storage starts. -/
theorem isLeast_gap (mem : index ∈ l.gap position) (ahead : index = 0 ∨ l.Visible (index - 1)) :
    IsLeast (l.gap position) index := by
  refine ⟨mem, ?_⟩
  rintro other ⟨-, same⟩
  by_contra earlier
  rcases ahead with rfl | visible
  · exact earlier (Nat.zero_le other)
  · -- An earlier place has the visible character still behind it, and so one less before it.
    have upto := Nat.count_monotone l.Visible (show other ≤ index - 1 by omega)
    have more := Nat.count_strict_mono visible (show index - 1 < index by omega)
    rw [mem.2] at more
    omega

/-- A gap ends where a visible character stands, or storage ends. -/
theorem isGreatest_gap (mem : index ∈ l.gap position)
    (here : index = l.chars.length ∨ l.Visible index) : IsGreatest (l.gap position) index := by
  refine ⟨mem, ?_⟩
  rintro other ⟨inside, same⟩
  by_contra later
  rcases here with rfl | visible
  · exact later inside
  · have more := Nat.count_strict_mono visible (Nat.lt_of_not_le later)
    rw [mem.2, same] at more
    omega

/-- What lies between two places of a gap is deleted. -/
theorem deleted_of_between {first last : Nat} (start : first ∈ l.gap position)
    (stop : last ∈ l.gap position) (after : first ≤ index) (upto : index < last) :
    ⟨index, .deleted⟩ ∈ l.markers := by
  have low := Nat.count_monotone l.Visible after
  have high := Nat.count_monotone l.Visible (show index + 1 ≤ last from upto)
  rw [start.2] at low
  rw [stop.2] at high
  -- A visible character between the two would tell their counts apart.
  have hidden : ¬l.Visible index := by
    intro visible
    have counted := Nat.count_lt_count_succ_iff.mpr visible
    omega
  by_contra unmarked
  exact hidden ⟨Nat.lt_of_lt_of_le upto stop.1, unmarked⟩

/-! ## Gaps at the seams of a buffer -/

theorem visible_seam : (Buffer.mk (before ++ c :: behind)).log.Visible before.length ↔
    c.isCurrent = true := by
  have elsewhere : ⟨before.length, .deleted⟩ ∉ markersFrom 0 before := by
    intro mem
    have bounds := mem_markersFrom mem
    simp at bounds
  have later : ⟨before.length, .deleted⟩ ∉ markersFrom (before.length + 1) behind := by
    intro mem
    exact Nat.lt_irrefl _ (mem_markersFrom mem).1
  obtain ⟨char, status⟩ := c
  cases status <;> simp [Visible, Buffer.log, markersFrom_append, elsewhere, later, Cell.isCurrent]

theorem count_visible (before behind : List Cell) :
    Nat.count (Buffer.mk (before ++ behind)).log.Visible before.length = currentCount before := by
  induction before using List.reverseRecOn generalizing behind with
  | nil => rfl
  | append_singleton before c ih =>
    rw [List.append_assoc, List.singleton_append, List.length_append, List.length_singleton,
      Nat.count_succ, ih, currentCount_append]
    simp [visible_seam]

theorem seam_mem_gap (count : currentCount before = position) :
    before.length ∈ (Buffer.mk (before ++ behind)).log.gap position :=
  ⟨by simp, (count_visible before behind).trans count⟩

/-- Behind a current cell, or at the start of storage. -/
theorem ahead_of_seam (ends : EndsCurrent before) :
    before.length = 0 ∨ (Buffer.mk (before ++ behind)).log.Visible (before.length - 1) := by
  rcases List.eq_nil_or_concat before with rfl | ⟨front, c, rfl⟩
  · exact .inl rfl
  · right
    have current : c.isCurrent = true := ends c (by simp)
    simpa using visible_seam.mpr current

/-- At a current cell, or at the end of storage. -/
theorem here_at_seam (starts : StartsCurrent behind) :
    before.length = (Buffer.mk (before ++ behind)).log.chars.length ∨
      (Buffer.mk (before ++ behind)).log.Visible before.length := by
  cases behind with
  | nil => exact .inl (by simp)
  | cons c behind => exact .inr (visible_seam.mpr (starts c rfl))

/-! ## Translated positions -/

theorem place_first_ends (b : Buffer) (inside : position ≤ b.currentLength) :
    b.log.place .first position ∈ b.log.gap position ∧
      (b.log.place .first position = 0 ∨ b.log.Visible (b.log.place .first position - 1)) := by
  obtain ⟨cells⟩ := b
  obtain ⟨before, behind, rfl, rfl, ends⟩ := exists_firstSplit cells inside
  rw [place_first, firstIndex_append behind ends]
  exact ⟨seam_mem_gap rfl, ahead_of_seam ends⟩

theorem place_last_ends (b : Buffer) (inside : position ≤ b.currentLength) :
    b.log.place .last position ∈ b.log.gap position ∧
      (b.log.place .last position = b.log.chars.length ∨
        b.log.Visible (b.log.place .last position)) := by
  obtain ⟨cells⟩ := b
  obtain ⟨before, behind, rfl, rfl, starts⟩ := exists_lastSplit cells inside
  rw [place_last, lastIndex_append before starts]
  exact ⟨seam_mem_gap rfl, here_at_seam starts⟩

/-- Past the end of the text there are no gaps left. -/
theorem length_lt_place (b : Buffer) (edge : Edge) (past : b.currentLength < position) :
    b.log.chars.length < b.log.place edge position := by
  have beyond := length_lt_firstIndex past
  rw [length_chars_log]
  cases edge with
  | first => rwa [place_first]
  | last =>
    rw [place_last]
    exact Nat.lt_of_lt_of_le beyond (firstIndex_le_lastIndex position b.cells)

/-- A length that does not fit into 32 bits comes out too small. -/
theorem currentLength_log_le (b : Buffer) : b.log.currentLength ≤ b.currentLength := by
  rw [Log.currentLength, ← length_without .deleted, Nat.add_sub_cancel, current_count]
  exact Nat.mod_le ..

/-- A position of the current text is translated to the least place in storage with so many visible
characters before it, or to the greatest one. So the first place is the start of storage or comes
after a visible character, the last place is the end of storage or holds a visible character, and
what lies between them is deleted. The last place of the end of the text is the end of storage, and
positions past it are past the end of storage as well, unless the text is so long that its length
does not fit into 32 bits. The cells of the log have the same places. -/
theorem positions_lie_at_the_ends_of_gaps {l : Log} (wellFormed : l.WellFormed) :
    (∀ position ≤ l.currentLength,
      IsLeast (l.gap position) (l.place .first position) ∧
      IsGreatest (l.gap position) (l.place .last position) ∧
      (l.place .first position = 0 ∨ l.Visible (l.place .first position - 1)) ∧
      (l.place .last position = l.chars.length ∨ l.Visible (l.place .last position)) ∧
      ∀ index, l.place .first position ≤ index → index < l.place .last position →
        ⟨index, .deleted⟩ ∈ l.markers) ∧
    (l.chars.length < positionLimit →
      l.place .last l.currentLength = l.chars.length ∧
      ∀ position, l.currentLength < position → ∀ edge, l.chars.length < l.place edge position) ∧
    ∀ position, firstIndex position l.buffer.cells = l.place .first position ∧
      lastIndex position l.buffer.cells = l.place .last position := by
  obtain ⟨b, rfl⟩ : ∃ b : Buffer, l = b.log := ⟨l.buffer, wellFormed.log_buffer.symm⟩
  refine ⟨?_, ?_, ?_⟩
  · intro position inside
    obtain ⟨first, ahead⟩ := place_first_ends b (Nat.le_trans inside (currentLength_log_le b))
    obtain ⟨last, here⟩ := place_last_ends b (Nat.le_trans inside (currentLength_log_le b))
    exact ⟨isLeast_gap first ahead, isGreatest_gap last here, ahead, here,
      fun _ => deleted_of_between first last⟩
  · intro short
    rw [length_chars_log] at short
    rw [(lengths_eq b short).1]
    constructor
    · rw [place_last, length_chars_log]
      exact lastIndex_currentCount b.cells
    · exact fun _ past edge => length_lt_place b edge past
  · intro position
    rw [buffer_log]
    exact ⟨(place_first b position).symm, (place_last b position).symm⟩

/-- Around the deleted `x` of `abc`, which is stored third, and past the end of the text. -/
theorem frayed_places : frayed.log.WellFormed ∧ 1 ≤ frayed.log.currentLength ∧
    frayed.log.chars.length < positionLimit ∧ frayed.log.currentLength < 4 ∧
    IsLeast (frayed.log.gap 1) 2 ∧ IsGreatest (frayed.log.gap 1) 3 ∧
    frayed.log.Visible 1 ∧ frayed.log.Visible 3 ∧ ⟨2, .deleted⟩ ∈ frayed.log.markers ∧
    frayed.log.place .last frayed.log.currentLength = 6 ∧ 6 < frayed.log.place .first 4 ∧
    lastIndex 1 frayed.cells = 3 := by
  have wellFormed : frayed.log.WellFormed := log_wellFormed frayed
  have within : 1 ≤ frayed.log.currentLength := by decide
  have short : frayed.log.chars.length < positionLimit := by decide
  have past : frayed.log.currentLength < 4 := by decide
  obtain ⟨inside, beyond, same⟩ := positions_lie_at_the_ends_of_gaps wellFormed
  obtain ⟨least, greatest, ahead, here, between⟩ := inside 1 within
  obtain ⟨stop, outside⟩ := beyond short
  have first : frayed.log.place .first 1 = 2 := by decide
  have last : frayed.log.place .last 1 = 3 := by decide
  rw [first] at least ahead between
  rw [last] at greatest here between
  exact ⟨wellFormed, within, short, past, least, greatest, ahead.resolve_left (by decide),
    here.resolve_left (by decide), between 2 (Nat.le_refl 2) (by decide), stop,
    outside 4 past .first, (same 1).2.trans last⟩

end Log

end FormEdit
