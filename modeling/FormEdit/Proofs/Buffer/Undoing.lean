import FormEdit.Buffer.Exchange
import FormEdit.Buffer.Patch
import FormEdit.Proofs.Buffer.Places

/-!
# Undoing an exchange

An exchange of two spans cuts both out and pastes each where the other was. The cells of a span
include the deleted ones at its ends, and where the spans touch these are shared: the second paste
may then land inside of the deleted cells at the end of the first. `undo_exchange` says that undoing
the exchange gives back every cell all the same.

Undoing cuts both out again (`Division.cuts_eq`). The two cases of its proof are a gap between the
spans, where every seam stays in place, and spans that touch, where the deleted cells at the seam
change sides twice. What is pasted back then finds its old places (`Division.pastes_eq`).

A patch remembers its place in storage and is simply taken out again (`patchOut_patchIn`).
-/

namespace FormEdit.Buffer

/-- The cells of the text around two spans: before, first span, gap, second span, behind. -/
structure Division (earlier later : Span) (before first gap second behind : List Cell) : Prop where
  start_first : currentCount before = earlier.start
  stop_first : currentCount (before ++ first) = earlier.stop
  start_second : currentCount (before ++ first ++ gap) = later.start
  stop_second : currentCount (before ++ first ++ gap ++ second) = later.stop
  ends_before : EndsCurrent before
  starts_gap : StartsCurrent gap
  ends_gap : EndsCurrent (before ++ first ++ gap)
  starts_behind : StartsCurrent behind

theorem exists_division (b : Buffer) {earlier later : Span} (order : earlier.stop ≤ later.start)
    (inside : later.stop ≤ b.currentLength) :
    ∃ before first gap second behind, b.cells = before ++ first ++ gap ++ second ++ behind ∧
      Division earlier later before first gap second behind := by
  have start_le := earlier.start_le_stop
  have stop_le := later.start_le_stop
  rw [currentLength_eq] at inside
  obtain ⟨left, right, hcells, hleft, ends⟩ := exists_firstSplit b.cells
    (show later.start ≤ currentCount b.cells by omega)
  obtain ⟨second, behind, rfl, hsecond, starts_behind⟩ :=
    exists_lastSplit right (show later.length ≤ currentCount right by
      simp only [hcells, currentCount_append] at inside
      simp only [Span.length]
      omega)
  obtain ⟨before, middle, rfl, hbefore, ends_before⟩ :=
    exists_firstSplit left (show earlier.start ≤ currentCount left by omega)
  obtain ⟨first, gap, rfl, hfirst, starts_gap⟩ :=
    exists_lastSplit middle (show earlier.length ≤ currentCount middle by
      simp only [currentCount_append] at hleft
      simp only [Span.length]
      omega)
  simp only [Span.length] at hsecond hfirst
  refine ⟨before, first, gap, second, behind, by simp [hcells], ?_⟩
  simp only [currentCount_append] at hleft
  exact ⟨hbefore, by simp; omega, by simp; omega, by simp; omega, ends_before, starts_gap,
    by simpa using ends, starts_behind⟩

namespace Division

variable {earlier later : Span} {before first gap second behind : List Cell}

/-- The slices that an exchange takes out, and what it leaves. -/
theorem exchange_eq (h : Division earlier later before first gap second behind)
    (order : earlier.stop ≤ later.start) :
    exchange ⟨before ++ first ++ gap ++ second ++ behind⟩ earlier later =
      .ok (⟨earlier, later, ⟨first⟩, ⟨second⟩⟩,
        paste ⟨before ++ second ++ (gap ++ behind)⟩
          (later.start - earlier.length + later.length) ⟨first⟩) := by
  have copied := cellsOf_append h.start_second h.stop_second h.ends_gap h.starts_behind
  have cut₁ := cut_append h.start_second h.stop_second h.ends_gap h.starts_behind
  have starts : StartsCurrent (gap ++ behind) := h.starts_gap.append h.starts_behind
  have copied₂ := cellsOf_append h.start_first h.stop_first h.ends_before starts
  have cut₂ := cut_append h.start_first h.stop_first h.ends_before starts
  have pasted := paste_append second (gap ++ behind) h.start_first h.ends_before
  have regroup : before ++ first ++ gap ++ behind = before ++ first ++ (gap ++ behind) := by simp
  simp only [exchange, order, if_true, copy, copied, cut₁]
  rw [regroup, copied₂, cut₂, pasted]

/-- Where the second paste of an exchange goes. -/
theorem second_place (h : Division earlier later before first gap second behind) :
    currentCount (before ++ second ++ gap) = later.start - earlier.length + later.length := by
  have h₁ := h.start_first
  have h₂ := h.stop_first
  have h₃ := h.start_second
  have h₄ := h.stop_second
  have h₅ := earlier.start_le_stop
  have h₆ := later.start_le_stop
  simp only [currentCount_append, Span.length] at *
  omega

/-- The second paste goes behind the gap, unless the cells in front of it end with deleted ones. -/
theorem exchanged (h : Division earlier later before first gap second behind)
    (ends : EndsCurrent (before ++ second ++ gap)) :
    paste ⟨before ++ second ++ (gap ++ behind)⟩
      (later.start - earlier.length + later.length) ⟨first⟩ =
      ⟨before ++ second ++ gap ++ first ++ behind⟩ := by
  have pasted := paste_append first behind h.second_place ends
  rwa [List.append_assoc _ gap] at pasted

theorem ends_of_gap (h : Division earlier later before first gap second behind) (ne : gap ≠ []) :
    EndsCurrent (before ++ second ++ gap) := by
  have ends_gap : EndsCurrent gap := h.ends_gap.of_append
  obtain ⟨g, gs, rfl⟩ := List.exists_cons_of_ne_nil ne
  intro c hc
  exact ends_gap c (by simpa [List.getLast?_append] using hc)

/-- With a gap between the spans every seam of the exchanged text is one of the old ones, so the
cuts of an undo take out what was pasted. -/
theorem cuts_apart (h : Division earlier later before first gap second behind) (ne : gap ≠ []) :
    ((paste ⟨before ++ second ++ (gap ++ behind)⟩
        (later.start - earlier.length + later.length) ⟨first⟩).cut
      (Span.sized earlier.start later.length)).cut
        (Span.sized (later.start - earlier.length) earlier.length) = ⟨before ++ gap ++ behind⟩ := by
  have ends_gap : EndsCurrent gap := h.ends_gap.of_append
  have exchanged := h.exchanged (h.ends_of_gap ne)
  have starts : StartsCurrent (gap ++ first ++ behind) := by
    obtain ⟨g, gs, rfl⟩ := List.exists_cons_of_ne_nil ne
    exact startsCurrent_cons (h.starts_gap g rfl)
  have h₁ := h.start_first
  have h₂ := h.stop_first
  have h₃ := h.start_second
  have h₄ := h.stop_second
  have stop₁ : currentCount (before ++ second) = (Span.sized earlier.start later.length).stop := by
    simp [Span.sized, Span.length] at *
    omega
  have start₁ : currentCount before = (Span.sized earlier.start later.length).start := h.start_first
  have out₁ := cut_append start₁ stop₁ h.ends_before starts
  have start₂ : currentCount (before ++ gap) =
      (Span.sized (later.start - earlier.length) earlier.length).start := by
    simp [Span.sized, Span.length] at *
    omega
  have stop₂ : currentCount (before ++ gap ++ first) =
      (Span.sized (later.start - earlier.length) earlier.length).stop := by
    simp [Span.sized, Span.length] at *
    omega
  have out₂ := cut_append start₂ stop₂ (h.ends_before.append_left ends_gap) h.starts_behind
  simp only [← List.append_assoc] at *
  rw [exchanged, out₁, out₂]

/-- Where the spans touch, the first span is pasted in front of the deleted cells at the end of the
second. The cuts of an undo take these out with the first span, wherever its own deleted cells
went. -/
theorem cuts_touching (h : Division earlier later before first [] second behind) :
    ((paste ⟨before ++ second ++ behind⟩
        (later.start - earlier.length + later.length) ⟨first⟩).cut
      (Span.sized earlier.start later.length)).cut
        (Span.sized (later.start - earlier.length) earlier.length) = ⟨before ++ behind⟩ := by
  have h₁ := h.start_first
  have h₂ := h.stop_first
  have h₃ := h.start_second
  have h₄ := h.stop_second
  have place := h.second_place
  obtain ⟨core, tail, rfl, hcore, ends_core⟩ :=
    exists_firstSplit second (Nat.le_refl (currentCount second))
  have ends : EndsCurrent (before ++ core) := h.ends_before.append_left ends_core
  simp only [currentCount_append, Span.length, List.append_nil] at *
  have seam : currentCount (before ++ core) = later.start - earlier.length + later.length := by
    simp only [currentCount_append, Span.length]
    omega
  have exchanged := paste_append first (tail ++ behind) seam ends
  -- The first cut takes the deleted cells in front of the first span as well.
  obtain ⟨lead, rest, hrest, hlead, starts_rest⟩ :=
    exists_lastSplit (first ++ tail ++ behind) (Nat.zero_le _)
  have stop₁ : currentCount (before ++ (core ++ lead)) =
      (Span.sized earlier.start later.length).stop := by
    simp only [currentCount_append, Span.sized, Span.length]
    omega
  have start₁ : currentCount before = (Span.sized earlier.start later.length).start := h₁
  have out₁ := cut_append start₁ stop₁ h.ends_before starts_rest
  -- The second cut takes what is left of it, up to where the text behind starts.
  have counts := congrArg currentCount hrest
  simp only [currentCount_append] at counts
  obtain ⟨inner, behind', rfl, hinner, starts_behind'⟩ :=
    exists_lastSplit rest (show currentCount first ≤ currentCount rest by omega)
  have same : behind = behind' := by
    have split : first ++ tail ++ behind = lead ++ inner ++ behind' := by simpa using hrest
    apply lastSplit_unique split
    · simp only [currentCount_append]
      omega
    · exact h.starts_behind
    · exact starts_behind'
  subst same
  have start₂ : currentCount before =
      (Span.sized (later.start - earlier.length) earlier.length).start := by
    simp only [Span.sized, Span.length]
    omega
  have stop₂ : currentCount (before ++ inner) =
      (Span.sized (later.start - earlier.length) earlier.length).stop := by
    simp only [currentCount_append, Span.sized, Span.length]
    omega
  have out₂ := cut_append start₂ stop₂ h.ends_before starts_behind'
  have regroup : before ++ core ++ first ++ (tail ++ behind) =
      before ++ (core ++ lead) ++ (inner ++ behind) := by
    simpa using hrest
  rw [regroup] at exchanged
  simp only [Span.length, ← List.append_assoc] at *
  rw [exchanged, out₁, out₂]

/-- The cuts of an undo leave the text around the two spans. -/
theorem cuts_eq (h : Division earlier later before first gap second behind) :
    ((paste ⟨before ++ second ++ (gap ++ behind)⟩
        (later.start - earlier.length + later.length) ⟨first⟩).cut
      (Span.sized earlier.start later.length)).cut
        (Span.sized (later.start - earlier.length) earlier.length) = ⟨before ++ gap ++ behind⟩ := by
  cases gap with
  | nil => simpa using h.cuts_touching
  | cons g gs => exact h.cuts_apart (by simp)

/-- The pastes of an undo put both spans back. -/
theorem pastes_eq (h : Division earlier later before first gap second behind) :
    (paste ⟨before ++ gap ++ behind⟩ earlier.start ⟨first⟩).paste later.start ⟨second⟩ =
      ⟨before ++ first ++ gap ++ second ++ behind⟩ := by
  have back₁ := paste_append first (gap ++ behind) h.start_first h.ends_before
  have back₂ := paste_append second behind h.start_second h.ends_gap
  simp only [← List.append_assoc] at *
  rw [back₁, back₂]

end Division

/-- Undoing an exchange gives back every cell. -/
theorem undo_exchange {b b' : Buffer} {earlier later : Span} {x : Exchange}
    (inside : later.stop ≤ b.currentLength) (h : b.exchange earlier later = .ok (x, b')) :
    x.undo b' = b := by
  by_cases order : earlier.stop ≤ later.start
  · obtain ⟨before, first, gap, second, behind, hcells, division⟩ :=
      exists_division b order inside
    obtain ⟨cells⟩ := b
    subst hcells
    rw [division.exchange_eq order] at h
    obtain ⟨rfl, rfl⟩ := by simpa only [Except.ok.injEq, Prod.mk.injEq] using h
    rw [Exchange.undo, division.cuts_eq, division.pastes_eq]
  · simp [exchange, order] at h

/-! ## Patches -/

theorem patchOut_insertCells (b : Buffer) {index : Nat} (cells : List Cell)
    (bound : index ≤ b.cells.length) :
    (b.insertCells index cells).patchOut ⟨index, cells.length⟩ = .ok b := by
  have taken : (b.cells.take index).length = index := by simp [bound]
  rw [patchOut, if_pos (by simp [insertCells]; omega)]
  simp only [insertCells]
  congr 2
  rw [List.append_assoc, List.take_append_of_le_length (by omega), List.take_take, Nat.min_self,
    ← List.append_assoc, List.drop_append_of_le_length (by simp; omega),
    List.drop_of_length_le (by simp [bound]), List.nil_append, List.take_append_drop]

theorem patchOut_patchIn (b slice : Buffer) (position : Nat) :
    (b.patchIn position slice).1.patchOut (b.patchIn position slice).2 = .ok b :=
  b.patchOut_insertCells slice.cells (Nat.min_le_right _ _)

end FormEdit.Buffer
