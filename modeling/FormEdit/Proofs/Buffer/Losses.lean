import FormEdit.Proofs.Buffer.Current

/-!
# Lost characters

A deleted character that is still stored lies at a position of the current text, before the next
current character. What typing and committing do to these positions is all that the tree has to know
of deleted characters: typing moves the ones behind it, and committing a span drops those strictly
inside of it.
-/

namespace FormEdit.Buffer

/-- The current cells. -/
def live (cells : List Cell) : List Cell := cells.filter Cell.isCurrent

@[simp] theorem live_nil : live [] = [] := rfl

@[simp] theorem live_append (xs ys : List Cell) : live (xs ++ ys) = live xs ++ live ys := by
  simp [live]

theorem live_cons_of_current {c : Cell} (current : c.isCurrent = true) (cells : List Cell) :
    live (c :: cells) = c :: live cells := by
  simp [live, current]

@[simp] theorem length_live (cells : List Cell) : (live cells).length = currentCount cells := by
  simp [live, currentCount, List.countP_eq_length_filter]

theorem shown_eq_live (cells : List Cell) : shown cells = (live cells).map Cell.char := rfl

theorem settle_eq_live (cells : List Cell) :
    settle cells = (live cells).map fun c => ⟨c.char, .kept⟩ := rfl

theorem live_eq_self {cells : List Cell} (current : ∀ c ∈ cells, c.isCurrent = true) :
    live cells = cells :=
  List.filter_eq_self.mpr current

theorem current_of_mem_live {cells : List Cell} {c : Cell} (mem : c ∈ live cells) :
    c.isCurrent = true :=
  (List.mem_filter.mp mem).2

@[simp] theorem live_live (cells : List Cell) : live (live cells) = live cells :=
  live_eq_self fun _ mem => current_of_mem_live mem

@[simp] theorem currentCount_live (cells : List Cell) :
    currentCount (live cells) = currentCount cells := by
  rw [← length_live, live_live, length_live]

theorem take_live {xs ys : List Cell} {position : Nat} (count : currentCount xs = position) :
    (live (xs ++ ys)).take position = live xs := by
  rw [live_append, ← count, ← length_live, List.take_left]

theorem drop_live {xs ys : List Cell} {position : Nat} (count : currentCount xs = position) :
    (live (xs ++ ys)).drop position = live ys := by
  rw [live_append, ← count, ← length_live, List.drop_left]

/-- A deleted cell is stored at a position. -/
def LostAt (cells : List Cell) (position : Nat) : Prop :=
  ∃ xs c ys, cells = xs ++ c :: ys ∧ c.isCurrent = false ∧ currentCount xs = position

theorem lostAt_append {xs ys : List Cell} {x : Nat} :
    LostAt (xs ++ ys) x ↔ LostAt xs x ∨ ∃ y, LostAt ys y ∧ x = currentCount xs + y := by
  constructor
  · rintro ⟨us, c, vs, split, deleted, rfl⟩
    rcases append_cases split with ⟨more, rfl, rfl⟩ | ⟨more, rfl, ys_eq⟩
    · exact .inl ⟨us, c, more, rfl, deleted, rfl⟩
    · exact .inr ⟨currentCount more, ⟨more, c, vs, ys_eq, deleted, rfl⟩, by simp⟩
  · rintro (⟨us, c, vs, rfl, deleted, count⟩ | ⟨y, ⟨us, c, vs, rfl, deleted, rfl⟩, rfl⟩)
    · exact ⟨us, c, vs ++ ys, by simp, deleted, count⟩
    · exact ⟨xs ++ us, c, vs, by simp, deleted, by simp⟩

theorem not_lostAt_of_current {cells : List Cell} (current : ∀ c ∈ cells, c.isCurrent = true)
    (x : Nat) : ¬LostAt cells x := by
  rintro ⟨us, c, vs, rfl, deleted, -⟩
  simp [current c (by simp)] at deleted

theorem lostAt_cons_of_current {c : Cell} (current : c.isCurrent = true) {cells : List Cell}
    {x : Nat} :
    LostAt (c :: cells) x ↔ ∃ y, LostAt cells y ∧ x = 1 + y := by
  have split : LostAt ([c] ++ cells) x ↔ _ := lostAt_append
  have none : ¬LostAt [c] x := not_lostAt_of_current (by simpa using current) x
  simpa [none, current] using split

theorem lostAt_le {cells : List Cell} {x : Nat} (lost : LostAt cells x) :
    x ≤ currentCount cells := by
  obtain ⟨us, c, vs, rfl, -, rfl⟩ := lost
  simp

theorem lostAt_lt {cells : List Cell} {x : Nat} (lost : LostAt cells x) (ends : EndsCurrent cells) :
    x < currentCount cells := by
  obtain ⟨us, c, vs, rfl, deleted, rfl⟩ := lost
  have positive := currentCount_pos_of_endsCurrent ends.of_append (by simp)
  rw [currentCount_append]
  omega

theorem lostAt_pos {cells : List Cell} {x : Nat} (lost : LostAt cells x)
    (starts : StartsCurrent cells) : 0 < x := by
  obtain ⟨us, c, vs, rfl, deleted, rfl⟩ := lost
  cases us with
  | nil =>
    have current := starts c rfl
    rw [deleted] at current
    cases current
  | cons d us =>
    have current := starts d rfl
    simp only [currentCount_cons, current, if_true]
    omega

/-! ## Typing -/

/-- A character typed ahead of the lost ones at its position. -/
theorem insert_losses (b : Buffer) (c : Char) {position : Nat}
    (inside : position ≤ b.currentLength) :
    ∃ b', b.insert c position = .ok b' ∧
      live b'.cells = (live b.cells).take position ++ ⟨c, .inserted⟩ ::
        (live b.cells).drop position ∧
      (∀ x, LostAt b.cells x → x < position → LostAt b'.cells x) ∧
      ∀ x, LostAt b.cells x → position ≤ x → LostAt b'.cells (x + 1) := by
  obtain ⟨cells⟩ := b
  obtain ⟨xs, ys, rfl, count, ends⟩ := exists_firstSplit cells inside
  have typed : Cell.isCurrent ⟨c, .inserted⟩ = true := rfl
  refine ⟨_, insert_append count ends, ?_, ?_, ?_⟩
  · rw [take_live count, drop_live count, live_append, live_cons_of_current typed]
  · intro x lost before
    rcases lostAt_append.mp lost with ahead | ⟨y, -, rfl⟩
    · exact lostAt_append.mpr (.inl ahead)
    · omega
  · intro x lost after
    rcases lostAt_append.mp lost with ahead | ⟨y, behind, rfl⟩
    · have := lostAt_lt ahead ends
      omega
    · exact lostAt_append.mpr
        (.inr ⟨1 + y, (lostAt_cons_of_current typed).mpr ⟨y, behind, rfl⟩, by omega⟩)

/-- A character typed behind the lost ones at its position. -/
theorem insertPastDeleted_losses (b : Buffer) (c : Char) {position : Nat}
    (inside : position ≤ b.currentLength) :
    ∃ b', b.insertPastDeleted c position = .ok b' ∧
      live b'.cells = (live b.cells).take position ++ ⟨c, .inserted⟩ ::
        (live b.cells).drop position ∧
      (∀ x, LostAt b.cells x → x ≤ position → LostAt b'.cells x) ∧
      ∀ x, LostAt b.cells x → position < x → LostAt b'.cells (x + 1) := by
  obtain ⟨cells⟩ := b
  obtain ⟨xs, ys, rfl, count, starts⟩ := exists_lastSplit cells inside
  have typed : Cell.isCurrent ⟨c, .inserted⟩ = true := rfl
  refine ⟨_, insertPastDeleted_append count starts, ?_, ?_, ?_⟩
  · rw [take_live count, drop_live count, live_append, live_cons_of_current typed]
  · intro x lost before
    rcases lostAt_append.mp lost with ahead | ⟨y, behind, rfl⟩
    · exact lostAt_append.mpr (.inl ahead)
    · have := lostAt_pos behind starts
      omega
  · intro x lost after
    rcases lostAt_append.mp lost with ahead | ⟨y, behind, rfl⟩
    · have := lostAt_le ahead
      omega
    · exact lostAt_append.mpr
        (.inr ⟨1 + y, (lostAt_cons_of_current typed).mpr ⟨y, behind, rfl⟩, by omega⟩)

/-- A deleted character is lost, unless it was typed. -/
theorem delete_losses (b : Buffer) {position : Nat} (inside : position < b.currentLength) :
    ∃ b' c, b.delete position = .ok b' ∧ (live b.cells)[position]? = some c ∧
      live b'.cells = (live b.cells).eraseIdx position ∧
      (∀ x, LostAt b.cells x → x ≤ position → LostAt b'.cells x) ∧
      (∀ x, LostAt b.cells (x + 1) → position ≤ x → LostAt b'.cells x) ∧
      (c.status = .kept → LostAt b'.cells position) := by
  obtain ⟨cells⟩ := b
  obtain ⟨xs, ys, rfl, count, starts⟩ := exists_lastSplit cells (Nat.le_of_lt inside)
  cases ys with
  | nil =>
    rw [currentLength_eq, List.append_nil, count] at inside
    omega
  | cons c ys =>
    have current : c.isCurrent = true := starts c rfl
    have same_length : (live xs).length = position := by rw [length_live, count]
    have live_eq : live (xs ++ c :: ys) = live xs ++ c :: live ys := by
      rw [live_append, live_cons_of_current current]
    refine ⟨_, c, delete_append count current, ?_, ?_, ?_, ?_, ?_⟩
    · rw [live_eq, ← same_length]
      simp
    · rw [live_eq, ← same_length, List.eraseIdx_append_of_length_le (Nat.le_refl _)]
      split <;> simp [live, Cell.isCurrent]
    · intro x lost before
      rcases lostAt_append.mp lost with ahead | ⟨y, behind, rfl⟩
      · exact lostAt_append.mpr (.inl ahead)
      · have := lostAt_pos behind starts
        omega
    · intro x lost after
      rcases lostAt_append.mp lost with ahead | ⟨y, behind, same⟩
      · have := lostAt_le ahead
        omega
      · obtain ⟨z, later, rfl⟩ := (lostAt_cons_of_current current).mp behind
        refine lostAt_append.mpr (.inr ⟨z, ?_, by omega⟩)
        split
        · exact later
        · rw [← List.singleton_append]
          exact lostAt_append.mpr (.inr ⟨z, later, by simp [Cell.isCurrent]⟩)
    · intro kept
      refine lostAt_append.mpr (.inr ⟨0, ?_, by omega⟩)
      rw [if_neg (by simp [kept])]
      exact ⟨[], ⟨c.char, .deleted⟩, ys, rfl, rfl, rfl⟩

/-! ## Committing -/

/-- Committing a span keeps the losses that are not strictly inside of it. -/
theorem commit_losses (b : Buffer) (span : Span) (nonempty : span.start < span.stop)
    (inside : span.stop ≤ b.currentLength) :
    live (b.commit span).cells = (live b.cells).take span.start ++
        (((live b.cells).drop span.start).take span.length).map (fun c => ⟨c.char, .kept⟩) ++
        (live b.cells).drop span.stop ∧
      ∀ x, LostAt b.cells x → x ≤ span.start ∨ span.stop ≤ x → LostAt (b.commit span).cells x := by
  obtain ⟨before, middle, behind, cells_eq, start, count, -, starts, ends, committed⟩ :=
    exists_commits b span nonempty inside
  have stop : currentCount (before ++ middle) = span.stop := by
    rw [currentCount_append, start, count]
    simp only [Span.length]
    omega
  rw [committed, cells_eq, ← List.append_assoc, ← List.append_assoc]
  refine ⟨?_, ?_⟩
  · have whole : live (before ++ middle ++ behind) =
        live before ++ (live middle ++ live behind) := by
      simp
    have settled : live (settle middle) = (live middle).map fun c => ⟨c.char, .kept⟩ := by
      rw [settle_eq_live]
      refine live_eq_self ?_
      intro c mem
      obtain ⟨c', -, rfl⟩ := List.mem_map.mp mem
      rfl
    have drop_stop : (live (before ++ middle ++ behind)).drop span.stop = live behind :=
      drop_live stop
    have take_start : (live (before ++ (middle ++ behind))).take span.start = live before :=
      take_live start
    have drop_start : (live (before ++ (middle ++ behind))).drop span.start =
        live (middle ++ behind) := drop_live start
    rw [← List.append_assoc] at take_start drop_start
    simp only [live_append, settled] at *
    rw [take_start, drop_start, drop_stop, ← count, ← length_live, List.take_left]
  · intro x lost apart
    rcases lostAt_append.mp lost with ahead | ⟨y, later, rfl⟩
    · rcases lostAt_append.mp ahead with first | ⟨y, within, rfl⟩
      · exact lostAt_append.mpr (.inl (lostAt_append.mpr (.inl first)))
      · have low := lostAt_pos within starts
        have high := lostAt_lt within ends
        rw [currentCount_append] at stop
        omega
    · refine lostAt_append.mpr (.inr ⟨y, later, ?_⟩)
      have same : currentCount (settle middle) = currentCount middle := by
        rw [← length_shown, ← length_shown, shown_settle]
      simp [same]

end FormEdit.Buffer
