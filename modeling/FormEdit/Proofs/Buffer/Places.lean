import FormEdit.Buffer.Patch
import FormEdit.Buffer.Slice

/-!
# Places in storage

A position of the current text stands for a run of places in storage, which differ by the deleted
cells between them. `firstIndex` finds the first of them and `lastIndex` the last; both are read off
a split of the cells whose seam lies there. Everything that cuts or fills a buffer is described
through such splits:

* `firstIndex_append`, `lastIndex_append`: the index of a seam;
* `exists_firstSplit`, `exists_lastSplit`: every position has a seam;
* `cellsOf_append`, `cut_append`, `paste_append`: copying, cutting and pasting at seams.
-/

namespace FormEdit

namespace Buffer

/-- The number of current cells. -/
def currentCount (cells : List Cell) : Nat := cells.countP Cell.isCurrent

@[simp] theorem currentCount_nil : currentCount [] = 0 := rfl

@[simp] theorem currentCount_cons (c : Cell) (cells : List Cell) :
    currentCount (c :: cells) = (if c.isCurrent then 1 else 0) + currentCount cells := by
  simp only [currentCount, List.countP_cons]
  omega

@[simp] theorem currentCount_append (xs ys : List Cell) :
    currentCount (xs ++ ys) = currentCount xs + currentCount ys := by
  simp [currentCount]

theorem currentLength_eq (b : Buffer) : b.currentLength = currentCount b.cells := rfl

/-- The last of the cells is current, if there are any. -/
def EndsCurrent (cells : List Cell) : Prop := ∀ c, cells.getLast? = some c → c.isCurrent = true

/-- The first of the cells is current, if there are any. -/
def StartsCurrent (cells : List Cell) : Prop := ∀ c, cells.head? = some c → c.isCurrent = true

theorem endsCurrent_nil : EndsCurrent [] := by
  intro c h
  cases h

theorem startsCurrent_nil : StartsCurrent [] := by
  intro c h
  cases h

theorem startsCurrent_cons {c : Cell} {cells : List Cell} (h : c.isCurrent = true) :
    StartsCurrent (c :: cells) := by
  intro d hd
  cases hd
  exact h

theorem EndsCurrent.tail {c : Cell} {cells : List Cell} (h : EndsCurrent (c :: cells)) :
    EndsCurrent cells := by
  intro d hd
  apply h
  cases cells with
  | nil => cases hd
  | cons e rest => simpa using hd

theorem EndsCurrent.append_left {xs ys : List Cell} (hx : EndsCurrent xs) (hy : EndsCurrent ys) :
    EndsCurrent (xs ++ ys) := by
  intro c hc
  cases ys with
  | nil => exact hx c (by simpa using hc)
  | cons y ys => exact hy c (by simpa [List.getLast?_append] using hc)

theorem EndsCurrent.of_append {xs ys : List Cell} (h : EndsCurrent (xs ++ ys)) :
    EndsCurrent ys := by
  induction xs with
  | nil => exact h
  | cons x xs ih => exact ih h.tail

theorem StartsCurrent.append {xs ys : List Cell} (hx : StartsCurrent xs) (hy : StartsCurrent ys) :
    StartsCurrent (xs ++ ys) := by
  cases xs with
  | nil => exact hy
  | cons x xs =>
    intro c hc
    exact hx c (by simpa using hc)

theorem currentCount_pos_of_endsCurrent {cells : List Cell} (h : EndsCurrent cells)
    (ne : cells ≠ []) : 0 < currentCount cells := by
  obtain ⟨c, hc⟩ := Option.ne_none_iff_exists'.mp (mt List.getLast?_eq_none_iff.mp ne)
  exact List.countP_pos_iff.mpr ⟨c, List.mem_of_getLast? hc, h c hc⟩

theorem currentCount_pos_of_startsCurrent {cells : List Cell} (h : StartsCurrent cells)
    (ne : cells ≠ []) : 0 < currentCount cells := by
  cases cells with
  | nil => exact absurd rfl ne
  | cons c cells =>
    rw [currentCount_cons, if_pos (h c rfl)]
    omega

/-- The first place with the cells `xs` before it, if the last of them is current. -/
theorem firstIndex_append {xs : List Cell} (ys : List Cell) (h : EndsCurrent xs) :
    firstIndex (currentCount xs) (xs ++ ys) = xs.length := by
  induction xs with
  | nil => simp [firstIndex]
  | cons x xs ih =>
    have pos := currentCount_pos_of_endsCurrent h (by simp)
    cases hx : x.isCurrent with
    | true =>
      simp only [currentCount_cons, hx, if_true, Nat.add_comm 1, List.cons_append, firstIndex,
        ih h.tail, List.length_cons]
    | false =>
      simp only [currentCount_cons, hx, Bool.false_eq_true, if_false, Nat.zero_add] at pos ⊢
      obtain ⟨n, hn⟩ := Nat.exists_eq_add_of_lt pos
      have ih := ih h.tail
      simp only [hn, Nat.zero_add, List.cons_append, firstIndex, hx, Bool.false_eq_true,
        if_false, List.length_cons] at ih ⊢
      rw [ih]

/-- The last place with the cells `xs` before it, if the first of those behind is current. -/
theorem lastIndex_append (xs : List Cell) {ys : List Cell} (h : StartsCurrent ys) :
    lastIndex (currentCount xs) (xs ++ ys) = xs.length := by
  induction xs with
  | nil =>
    cases ys with
    | nil => rfl
    | cons y ys => simp [lastIndex, h y rfl]
  | cons x xs ih =>
    cases hx : x.isCurrent with
    | true =>
      simp only [currentCount_cons, hx, if_true, Nat.add_comm 1, List.cons_append, lastIndex, ih,
        List.length_cons]
    | false =>
      simp only [currentCount_cons, hx, Bool.false_eq_true, if_false, Nat.zero_add,
        List.cons_append, List.length_cons]
      cases hc : currentCount xs with
      | zero => simpa [lastIndex, hx, hc] using ih
      | succ n => simpa [lastIndex, hx, hc] using ih

/-- The last place of the end of the text is the end of storage. -/
theorem lastIndex_currentCount (cells : List Cell) :
    lastIndex (currentCount cells) cells = cells.length := by
  have last := lastIndex_append cells startsCurrent_nil
  rwa [List.append_nil] at last

/-- Every position of the current text has a first place. -/
theorem exists_firstSplit (cells : List Cell) {position : Nat}
    (h : position ≤ currentCount cells) :
    ∃ xs ys, cells = xs ++ ys ∧ currentCount xs = position ∧ EndsCurrent xs := by
  induction cells generalizing position with
  | nil => exact ⟨[], [], rfl, by simp at h; simp [h], endsCurrent_nil⟩
  | cons c cells ih =>
    cases position with
    | zero => exact ⟨[], c :: cells, rfl, rfl, endsCurrent_nil⟩
    | succ position =>
      -- A current cell uses up one position, a deleted one none.
      have bound : (if c.isCurrent then position else position + 1) ≤ currentCount cells := by
        simp only [currentCount_cons] at h
        split
        · simp_all
          omega
        · simp_all
      obtain ⟨xs, ys, rfl, count, ends⟩ := ih bound
      refine ⟨c :: xs, ys, rfl, ?_, ?_⟩
      · simp only [currentCount_cons, count]
        split <;> omega
      · intro d hd
        cases xs with
        | nil =>
          cases hc : c.isCurrent with
          | false => simp [hc] at count
          | true => simp_all
        | cons x xs => exact ends d (by simpa using hd)

/-- Every position of the current text has a last place. -/
theorem exists_lastSplit (cells : List Cell) {position : Nat}
    (h : position ≤ currentCount cells) :
    ∃ xs ys, cells = xs ++ ys ∧ currentCount xs = position ∧ StartsCurrent ys := by
  induction cells generalizing position with
  | nil => exact ⟨[], [], rfl, by simp at h; simp [h], startsCurrent_nil⟩
  | cons c cells ih =>
    cases hc : c.isCurrent with
    | true =>
      cases position with
      | zero => exact ⟨[], c :: cells, rfl, rfl, startsCurrent_cons hc⟩
      | succ position =>
        obtain ⟨xs, ys, rfl, count, starts⟩ := ih (show position ≤ currentCount cells by
          simp [hc] at h; omega)
        exact ⟨c :: xs, ys, rfl, by simp [hc, count]; omega, starts⟩
    | false =>
      obtain ⟨xs, ys, rfl, count, starts⟩ :=
        ih (show position ≤ currentCount cells by simpa [hc] using h)
      exact ⟨c :: xs, ys, rfl, by simp [hc, count], starts⟩

/-- A position has one last place. -/
theorem lastSplit_unique {xs ys xs' ys' : List Cell} (same : xs ++ ys = xs' ++ ys')
    (count : currentCount xs = currentCount xs') (starts : StartsCurrent ys)
    (starts' : StartsCurrent ys') : ys = ys' := by
  have h := lastIndex_append xs starts
  have h' := lastIndex_append xs' starts'
  rw [same, count, h'] at h
  exact (List.append_inj same h.symm).2

/-! ## Cutting and filling at seams -/

section

variable {before inside behind : List Cell} {span : Span}

/-- The block of a span between two seams. -/
theorem block_append (hstart : currentCount before = span.start)
    (hstop : currentCount (before ++ inside) = span.stop)
    (ends : EndsCurrent before) (starts : StartsCurrent behind) :
    (block ⟨before ++ inside ++ behind⟩ span).start = before.length ∧
      (block ⟨before ++ inside ++ behind⟩ span).stop = before.length + inside.length := by
  have first := firstIndex_append (inside ++ behind) ends
  have last := lastIndex_append (before ++ inside) starts
  rw [hstart, ← List.append_assoc] at first
  rw [hstop] at last
  simp only [block, first, last, List.length_append]
  omega

theorem cellsOf_append (hstart : currentCount before = span.start)
    (hstop : currentCount (before ++ inside) = span.stop)
    (ends : EndsCurrent before) (starts : StartsCurrent behind) :
    cellsOf ⟨before ++ inside ++ behind⟩ span = inside := by
  obtain ⟨first, last⟩ := block_append hstart hstop ends starts
  simp only [cellsOf, Span.length, first, last]
  simp

theorem cut_append (hstart : currentCount before = span.start)
    (hstop : currentCount (before ++ inside) = span.stop)
    (ends : EndsCurrent before) (starts : StartsCurrent behind) :
    cut ⟨before ++ inside ++ behind⟩ span = ⟨before ++ behind⟩ := by
  obtain ⟨first, last⟩ := block_append hstart hstop ends starts
  have split : (before ++ inside ++ behind).drop (before.length + inside.length) = behind := by
    rw [← List.length_append, List.drop_left]
  simp only [cut, first, last, split]
  simp

theorem paste_append (slice behind : List Cell) {position : Nat}
    (count : currentCount before = position) (ends : EndsCurrent before) :
    paste ⟨before ++ behind⟩ position ⟨slice⟩ = ⟨before ++ slice ++ behind⟩ := by
  have first := firstIndex_append behind ends
  rw [count] at first
  simp [paste, first, insertCells]

end

end Buffer

end FormEdit
