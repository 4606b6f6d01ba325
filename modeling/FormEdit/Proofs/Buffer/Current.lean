import FormEdit.Buffer.Commit
import FormEdit.Proofs.Buffer.Places
import FormEdit.Proofs.Grammar.Lexes

/-!
# The current text

What reading and typing do to the current text, whatever is deleted in between: a span reads as the
characters at its positions, typing and deleting change one character, committing none.
-/

namespace FormEdit.Buffer

/-- The characters of the current cells. -/
def shown (cells : List Cell) : List Char := (cells.filter Cell.isCurrent).map Cell.char

theorem current_eq (b : Buffer) : b.current = shown b.cells := rfl

@[simp] theorem shown_nil : shown [] = [] := rfl

@[simp] theorem shown_append (xs ys : List Cell) : shown (xs ++ ys) = shown xs ++ shown ys := by
  simp [shown]

theorem shown_cons (c : Cell) (cells : List Cell) :
    shown (c :: cells) = (if c.isCurrent then [c.char] else []) ++ shown cells := by
  simp only [shown, List.filter_cons]
  split <;> simp

@[simp] theorem length_shown (cells : List Cell) : (shown cells).length = currentCount cells := by
  simp [shown, currentCount, List.countP_eq_length_filter]

theorem take_shown {xs ys : List Cell} {position : Nat} (count : currentCount xs = position) :
    (shown (xs ++ ys)).take position = shown xs := by
  rw [shown_append, ← count, ← length_shown, List.take_left]

theorem drop_shown {xs ys : List Cell} {position : Nat} (count : currentCount xs = position) :
    (shown (xs ++ ys)).drop position = shown ys := by
  rw [shown_append, ← count, ← length_shown, List.drop_left]

theorem placeCurrent_eq (position : Nat) (cells : List Cell) :
    placeCurrent position cells = Placed.run position (shown cells) := by
  induction cells generalizing position with
  | nil => rfl
  | cons c cells ih =>
    rw [placeCurrent, shown_cons]
    split
    · rw [ih]
      rfl
    · exact ih position

theorem length_le_lastIndex {position : Nat} {cells : List Cell}
    (past : currentCount cells < position) : cells.length ≤ lastIndex position cells := by
  induction cells generalizing position with
  | nil => simp
  | cons c cells ih =>
    cases position with
    | zero => simp at past
    | succ position =>
      simp only [lastIndex, List.length_cons]
      have fewer : currentCount cells < if c.isCurrent then position else position + 1 := by
        rw [currentCount_cons] at past
        split at past
        next current => rw [if_pos current]; omega
        next deleted => rw [if_neg deleted]; omega
      have := ih fewer
      omega

/-- A span reads as the characters at its positions. -/
theorem slice_current (b : Buffer) {span : Span} (start : span.start ≤ b.currentLength) :
    b.slice .current span =
      Placed.run span.start ((b.current.drop span.start).take span.length) := by
  obtain ⟨cells⟩ := b
  rw [currentLength_eq] at start
  simp only at start
  obtain ⟨before, rest, rfl, count, ends⟩ := exists_firstSplit cells start
  have order := span.start_le_stop
  simp only [slice, placeCurrent_eq, current_eq, drop_shown count]
  congr 1
  by_cases stop : span.length ≤ currentCount rest
  · obtain ⟨inside, behind, rfl, count', starts⟩ := exists_lastSplit rest stop
    have hstop : currentCount (before ++ inside) = span.stop := by
      rw [currentCount_append, count, count', Span.length]
      omega
    rw [← List.append_assoc, cellsOf_append count hstop ends starts, take_shown count']
  · have past : currentCount (before ++ rest) < span.stop := by
      rw [currentCount_append, count]
      simp only [Span.length] at stop
      omega
    have first := firstIndex_append rest ends
    rw [count] at first
    have last := length_le_lastIndex past
    have whole : cellsOf ⟨before ++ rest⟩ span = rest := by
      simp only [cellsOf, block, first, Span.length]
      rw [Nat.min_eq_right last, Nat.min_eq_left (by simp), Nat.max_eq_left (by simp),
        List.drop_left, List.length_append, Nat.add_sub_cancel_left, List.take_length]
    rw [whole, List.take_of_length_le (by rw [length_shown]; omega)]

/-! ## Typing -/

theorem insertAt_append {before behind : List Cell} {c : Char} {position : Nat} :
    insertAt ⟨before ++ behind⟩ c before.length position =
      .ok ⟨before ++ ⟨c, .inserted⟩ :: behind⟩ := by
  rw [insertAt, if_pos (by simp)]
  simp [insertCells]

/-- A character typed right behind a current one. -/
theorem insert_append {before behind : List Cell} {c : Char} {position : Nat}
    (count : currentCount before = position) (ends : EndsCurrent before) :
    insert ⟨before ++ behind⟩ c position = .ok ⟨before ++ ⟨c, .inserted⟩ :: behind⟩ := by
  have first := firstIndex_append behind ends
  rw [count] at first
  rw [insert, first]
  exact insertAt_append

/-- A character typed right ahead of a current one. -/
theorem insertPastDeleted_append {before behind : List Cell} {c : Char} {position : Nat}
    (count : currentCount before = position) (starts : StartsCurrent behind) :
    insertPastDeleted ⟨before ++ behind⟩ c position =
      .ok ⟨before ++ ⟨c, .inserted⟩ :: behind⟩ := by
  have last := lastIndex_append before starts
  rw [count] at last
  rw [insertPastDeleted, last]
  exact insertAt_append

/-- A deleted character stays, unless it was typed. -/
theorem delete_append {before behind : List Cell} {c : Cell} {position : Nat}
    (count : currentCount before = position) (current : c.isCurrent = true) :
    delete ⟨before ++ c :: behind⟩ position =
      .ok ⟨before ++ (if c.status = .inserted then behind else ⟨c.char, .deleted⟩ :: behind)⟩ := by
  have starts : StartsCurrent (c :: behind) := startsCurrent_cons current
  have last := lastIndex_append before starts
  rw [count] at last
  simp only [delete, last, List.drop_left, List.take_left]
  obtain ⟨char, status⟩ := c
  cases status with
  | kept => rfl
  | inserted => rfl
  | deleted => cases current

/-- The text with a character more. -/
def typedText (text : List Char) (c : Char) (position : Nat) : List Char :=
  text.take position ++ c :: text.drop position

theorem length_typedText (text : List Char) (c : Char) (position : Nat) :
    (typedText text c position).length = text.length + 1 := by
  have parts := congrArg List.length (List.take_append_drop position text)
  simp only [typedText, List.length_append, List.length_cons] at parts ⊢
  omega

theorem not_mem_typedText {text : List Char} {c x : Char} {position : Nat} (absent : x ∉ text)
    (other : c ≠ x) : x ∉ typedText text c position := by
  rw [typedText, List.mem_append, List.mem_cons]
  rintro (ahead | rfl | behind)
  · exact absent (List.mem_of_mem_take ahead)
  · exact other rfl
  · exact absent (List.mem_of_mem_drop behind)

theorem shown_typed {before behind : List Cell} {c : Char} {position : Nat}
    (count : currentCount before = position) :
    shown (before ++ ⟨c, .inserted⟩ :: behind) =
      typedText (shown (before ++ behind)) c position := by
  rw [typedText, take_shown count, drop_shown count, shown_append, shown_cons]
  rfl

theorem insert_current (b : Buffer) (c : Char) {position : Nat}
    (inside : position ≤ b.currentLength) :
    ∃ b', b.insert c position = .ok b' ∧ b'.current = typedText b.current c position := by
  obtain ⟨cells⟩ := b
  obtain ⟨before, behind, rfl, count, ends⟩ := exists_firstSplit cells inside
  exact ⟨_, insert_append count ends, shown_typed count⟩

theorem insertPastDeleted_current (b : Buffer) (c : Char) {position : Nat}
    (inside : position ≤ b.currentLength) :
    ∃ b', b.insertPastDeleted c position = .ok b' ∧
      b'.current = typedText b.current c position := by
  obtain ⟨cells⟩ := b
  obtain ⟨before, behind, rfl, count, starts⟩ := exists_lastSplit cells inside
  exact ⟨_, insertPastDeleted_append count starts, shown_typed count⟩

theorem delete_current (b : Buffer) {position : Nat} (inside : position < b.currentLength) :
    ∃ b', b.delete position = .ok b' ∧ b'.current = b.current.eraseIdx position := by
  obtain ⟨cells⟩ := b
  obtain ⟨before, behind, rfl, count, starts⟩ := exists_lastSplit cells (Nat.le_of_lt inside)
  cases behind with
  | nil =>
    rw [List.append_nil] at inside
    simp only [currentLength_eq, count] at inside
    omega
  | cons c behind =>
    have current := starts c rfl
    refine ⟨_, delete_append count current, ?_⟩
    rw [current_eq, current_eq, List.eraseIdx_eq_take_drop_succ, take_shown count]
    have rest : (shown (before ++ c :: behind)).drop (position + 1) = shown behind := by
      rw [← List.drop_drop, drop_shown count, shown_cons, if_pos current]
      rfl
    rw [rest]
    split
    · rw [shown_append]
    · rw [shown_append, shown_cons]
      rfl

/-! ## Committing -/

theorem shown_settle (cells : List Cell) : shown (settle cells) = shown cells := by
  simp only [shown, settle, List.filter_map, List.map_map]
  induction cells with
  | nil => rfl
  | cons c cells ih =>
    simp only [List.filter_cons]
    split
    · simp only [List.filter_cons, Function.comp_apply, Cell.isCurrent]
      simpa using ih
    · exact ih

theorem lastIndex_mono {cells : List Cell} {p q : Nat} (order : p ≤ q) :
    lastIndex p cells ≤ lastIndex q cells := by
  induction cells generalizing p q with
  | nil => simpa [lastIndex] using order
  | cons c cells ih =>
    cases p with
    | zero =>
      cases q with
      | zero => exact Nat.le_refl _
      | succ q =>
        simp only [lastIndex]
        split
        · omega
        · have := ih (p := 0) (q := q + 1) (by omega)
          omega
    | succ p =>
      cases q with
      | zero => omega
      | succ q =>
        simp only [lastIndex]
        have := ih (p := if c.isCurrent then p else p + 1) (q := if c.isCurrent then q else q + 1)
          (by split <;> omega)
        omega

theorem commit_current (b : Buffer) (span : Span) : (b.commit span).current = b.current := by
  unfold commit
  split
  next => rfl
  next nonempty =>
    simp only [Span.isEmpty, beq_iff_eq] at nonempty
    have order := span.start_le_stop
    have places : lastIndex span.start b.cells ≤ lastIndex (span.stop - 1) b.cells :=
      lastIndex_mono (by omega)
    simp only [current_eq, shown_append, shown_settle]
    rw [← shown_append, ← shown_append]
    congr 1
    generalize hfirst : min (lastIndex span.start b.cells) b.cells.length = first
    generalize hlast : min (lastIndex (span.stop - 1) b.cells + 1) b.cells.length = last
    have middle : (b.cells.drop first).take (last - first) ++ b.cells.drop last =
        b.cells.drop first := by
      have rest : b.cells.drop last = (b.cells.drop first).drop (last - first) := by
        rw [List.drop_drop]
        congr 1
        omega
      rw [rest, List.take_append_drop]
    rw [List.append_assoc, middle, List.take_append_drop]

/-- What lies between two current cells is committed, they included. -/
theorem commit_append {before inside behind : List Cell} {span : Span}
    (start : currentCount before = span.start)
    (stop : currentCount (before ++ inside) = span.stop) (nonempty : inside ≠ [])
    (starts : StartsCurrent inside) (ends : EndsCurrent inside) :
    commit ⟨before ++ inside ++ behind⟩ span = ⟨before ++ settle inside ++ behind⟩ := by
  obtain ⟨inner, last, rfl⟩ := (List.eq_nil_or_concat inside).resolve_left nonempty
  rw [List.concat_eq_append] at *
  have current : last.isCurrent = true := ends last (by simp)
  have some := currentCount_pos_of_startsCurrent starts nonempty
  have first : lastIndex span.start (before ++ (inner ++ [last]) ++ behind) = before.length := by
    rw [← start, List.append_assoc]
    refine lastIndex_append before ?_
    intro c hc
    exact starts c (by rwa [List.head?_append_of_ne_nil _ nonempty] at hc)
  have final : lastIndex (span.stop - 1) (before ++ (inner ++ [last]) ++ behind) =
      (before ++ inner).length := by
    have count : span.stop - 1 = currentCount (before ++ inner) := by
      rw [← stop]
      simp [current]
    rw [count]
    have shape : before ++ (inner ++ [last]) ++ behind = (before ++ inner) ++ last :: behind := by
      simp
    rw [shape]
    exact lastIndex_append _ (startsCurrent_cons current)
  rw [commit, if_neg (by
    rw [currentCount_append, start] at stop
    simp only [Span.isEmpty, beq_iff_eq]
    omega)]
  simp only [first, final, List.length_append, List.length_cons, List.length_nil]
  rw [Nat.min_eq_left (by omega), Nat.min_eq_left (by omega)]
  have taken : (before ++ (inner ++ [last]) ++ behind).take before.length = before := by
    rw [List.append_assoc, List.take_left]
  have dropped : (before ++ (inner ++ [last]) ++ behind).drop before.length =
      (inner ++ [last]) ++ behind := by
    rw [List.append_assoc, List.drop_left]
  have width : before.length + inner.length + 1 - before.length = (inner ++ [last]).length := by
    simp
    omega
  have rest : (before ++ (inner ++ [last]) ++ behind).drop (before.length + inner.length + 1) =
      behind := List.drop_left' (by simp; omega)
  rw [taken, dropped, width, List.take_left, rest]

/-- What a commit of a span does to storage. -/
structure Commits (b : Buffer) (span : Span) (before mid behind : List Cell) : Prop where
  cells : b.cells = before ++ (mid ++ behind)
  count : currentCount before = span.start
  count_mid : currentCount mid = span.length
  some : mid ≠ []
  starts : StartsCurrent mid
  ends : EndsCurrent mid
  committed : b.commit span = ⟨before ++ (settle mid ++ behind)⟩

theorem exists_commits (b : Buffer) (span : Span) (nonempty : span.start < span.stop)
    (inside : span.stop ≤ b.currentLength) :
    ∃ before mid behind, b.Commits span before mid behind := by
  obtain ⟨cells⟩ := b
  rw [currentLength_eq] at inside
  simp only at inside
  obtain ⟨before, rest, rfl, count, starts⟩ :=
    exists_lastSplit cells (show span.start ≤ currentCount cells by omega)
  rw [currentCount_append] at inside
  obtain ⟨mid, behind, rfl, count_mid, ends⟩ :=
    exists_firstSplit rest (show span.length ≤ currentCount rest by simp only [Span.length]; omega)
  have some : mid ≠ [] := by
    rintro rfl
    simp only [currentCount_nil, Span.length] at count_mid
    omega
  have starts_mid : StartsCurrent mid := by
    intro c head
    exact starts c (by rw [List.head?_append, head]; rfl)
  have stop : currentCount (before ++ mid) = span.stop := by
    rw [currentCount_append, count, count_mid]
    simp only [Span.length]
    omega
  have committed := @commit_append before mid behind span count stop some starts_mid ends
  rw [List.append_assoc, List.append_assoc] at committed
  exact ⟨before, mid, behind, rfl, count, count_mid, some, starts_mid, ends, committed⟩

theorem commitAll_current (b : Buffer) : b.commitAll.current = b.current :=
  shown_settle b.cells

end FormEdit.Buffer
