import FormEdit.Proofs.Buffer.Current
import FormEdit.Proofs.Buffer.Undoing

/-!
# Buffers without changes

Where every cell is kept, a buffer is its text, and its two views are the same.
-/

namespace FormEdit.Buffer

variable {b b' : Buffer} {cells : List Cell} {span : Span}

/-- All cells are kept. -/
def AllKept (cells : List Cell) : Prop := ∀ c ∈ cells, c.status = .kept

theorem AllKept.current (kept : AllKept cells) : ∀ c ∈ cells, c.isCurrent = true :=
  fun c mem => by simp [Cell.isCurrent, kept c mem]

theorem AllKept.endsCurrent (kept : AllKept cells) : EndsCurrent cells :=
  fun c last => kept.current c (List.mem_of_getLast? last)

theorem AllKept.startsCurrent (kept : AllKept cells) : StartsCurrent cells :=
  fun c head => kept.current c (List.mem_of_mem_head? head)

theorem AllKept.shown_eq (kept : AllKept cells) : shown cells = cells.map Cell.char := by
  rw [shown, List.filter_eq_self.mpr kept.current]

theorem AllKept.append {xs ys : List Cell} : AllKept (xs ++ ys) ↔ AllKept xs ∧ AllKept ys := by
  simp only [AllKept, List.mem_append]
  exact ⟨fun h => ⟨fun c mem => h c (.inl mem), fun c mem => h c (.inr mem)⟩,
    fun h c mem => mem.elim (h.1 c) (h.2 c)⟩

theorem AllKept.currentCount_eq (kept : AllKept cells) : currentCount cells = cells.length :=
  List.countP_eq_length.mpr kept.current

theorem kept_ofText (text : String) : AllKept (ofText text).cells := by
  intro c mem
  obtain ⟨_, -, rfl⟩ := List.mem_map.mp mem
  rfl

theorem placeCommitted_eq (kept : AllKept cells) (position : Nat) :
    placeCommitted position cells = placeCurrent position cells := by
  induction cells generalizing position with
  | nil => rfl
  | cons c cells ih =>
    have status := kept c (by simp)
    rw [placeCommitted, placeCurrent, if_pos (kept.current c (by simp)), status]
    simp only [ih fun c mem => kept c (by simp [mem])]

/-- Without changes the committed text is the current one. -/
theorem slice_committed (kept : AllKept b.cells) (span : Span) :
    b.slice .committed span = b.slice .current span :=
  placeCommitted_eq (fun c mem => kept c (List.mem_of_mem_drop (List.mem_of_mem_take mem))) _

theorem AllKept.cells_eq (kept : AllKept cells) :
    cells = (shown cells).map fun c => ⟨c, .kept⟩ := by
  rw [kept.shown_eq, List.map_map]
  conv => lhs; rw [← List.map_id cells]
  refine List.map_congr_left fun c mem => ?_
  rw [Function.comp, ← kept c mem]
  rfl

/-- Without changes a buffer is its text. -/
theorem eq_of_kept (kept : AllKept b.cells) (kept' : AllKept b'.cells)
    (same : b.current = b'.current) :
    b = b' := by
  have cells_eq : b.cells = b'.cells := by
    rw [kept.cells_eq, kept'.cells_eq, ← current_eq, ← current_eq, same]
  exact congrArg Buffer.mk cells_eq

end FormEdit.Buffer
