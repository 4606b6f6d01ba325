import FormEdit.Proofs.Buffer.Exchanging
import FormEdit.Proofs.Buffer.Keystrokes

/-!
# Taking back what was put in

A character that is typed ahead of the deleted ones at a position, or past them, and deleted again
leaves nothing behind: the deletion finds that very character among its deleted neighbours and
cancels it (`delete_typed`). Patches that are put in one on top of the other and taken out from the
top give back every cell (`patchOutAll_patchInAll`). A log gets back every marker with them.
-/

namespace FormEdit

/-! ## Stacks of patches -/

section Stack

variable {α : Type} (patchIn : α → Nat → α → α × Patch) (patchOut : α → Patch → Checked α)

/-- Puts slices in one after the other, each at its position in what the ones before it have left.
The patches are listed in the order in which they are made. -/
def patchInAll (text : α) : List (Nat × α) → α × List Patch
  | [] => (text, [])
  | (position, slice) :: more =>
    let patched := patchIn text position slice
    let rest := patchInAll patched.1 more
    (rest.1, patched.2 :: rest.2)

/-- Takes patches out again, the last one first. -/
def patchOutAll (text : α) (patches : List Patch) : Checked α :=
  patches.reverse.foldlM patchOut text

theorem patchOutAll_cons (text : α) (patch : Patch) (patches : List Patch) :
    patchOutAll patchOut text (patch :: patches) =
      patchOutAll patchOut text patches >>= (patchOut · patch) := by
  rw [patchOutAll, List.reverse_cons, List.foldlM_append]
  apply congrArg
  funext text'
  simp only [List.foldlM_cons, List.foldlM_nil]
  exact bind_pure _

end Stack

namespace Buffer

variable {b b' : Buffer} {c : Char} {position : Nat}

theorem patchOutAll_patchInAll (b : Buffer) (slices : List (Nat × Buffer)) :
    patchOutAll patchOut (patchInAll patchIn b slices).1 (patchInAll patchIn b slices).2 =
      .ok b := by
  induction slices generalizing b with
  | nil => rfl
  | cons slice more ih =>
    obtain ⟨position, slice⟩ := slice
    rw [patchInAll, patchOutAll_cons, ih, ok_bind, patchOut_patchIn]

theorem length_patchOut {patch : Patch} (taken : b.patchOut patch = .ok b') :
    b'.cells.length ≤ b.cells.length := by
  unfold patchOut at taken
  split at taken
  next =>
    cases taken
    exact Log.length_take_drop_le b.cells (Nat.le_add_right ..)
  next => cases taken

theorem length_patchOutAll {patches : List Patch}
    (taken : patchOutAll patchOut b patches = .ok b') :
    b'.cells.length ≤ b.cells.length := by
  induction patches generalizing b' with
  | nil =>
    cases taken
    exact Nat.le_refl _
  | cons patch patches ih =>
    rw [patchOutAll_cons] at taken
    obtain ⟨mid, above, last⟩ := bind_eq_ok.mp taken
    exact Nat.le_trans (length_patchOut last) (ih above)

/-! ## Typed characters -/

/-- A typed character is the one that a deletion at its position finds, and nothing is left of
it. -/
theorem delete_typed {before behind : List Cell} (count : currentCount before = position) :
    delete ⟨before ++ ⟨c, .inserted⟩ :: behind⟩ position = .ok ⟨before ++ behind⟩ :=
  delete_append count rfl

theorem insert_back (b : Buffer) (c : Char) (inside : position ≤ b.currentLength) :
    ∃ b', b.insert c position = .ok b' ∧ b'.delete position = .ok b := by
  obtain ⟨cells⟩ := b
  obtain ⟨before, behind, rfl, count, ends⟩ := exists_firstSplit cells inside
  exact ⟨_, insert_append count ends, delete_typed count⟩

theorem insertPastDeleted_back (b : Buffer) (c : Char) (inside : position ≤ b.currentLength) :
    ∃ b', b.insertPastDeleted c position = .ok b' ∧ b'.delete position = .ok b := by
  obtain ⟨cells⟩ := b
  obtain ⟨before, behind, rfl, count, starts⟩ := exists_lastSplit cells inside
  exact ⟨_, insertPastDeleted_append count starts, delete_typed count⟩

end Buffer

/-! ## The same with a log -/

namespace Log

open Buffer

variable {b b' : Buffer} {position : Nat}

/-- The slices with their logs. -/
def logged (slices : List (Nat × Buffer)) : List (Nat × Log) :=
  slices.map fun slice => (slice.1, slice.2.log)

/-- The number of characters in all the slices. -/
def lengthOf (slices : List (Nat × Log)) : Nat :=
  (slices.map fun slice => slice.2.chars.length).foldr (· + ·) 0

/-- Well-formed slices are those of buffers. -/
theorem exists_logged {slices : List (Nat × Log)}
    (wellFormed : ∀ slice ∈ slices, slice.2.WellFormed) :
    ∃ buffers, slices = logged buffers := by
  induction slices with
  | nil => exact ⟨[], rfl⟩
  | cons slice more ih =>
    obtain ⟨position, slice⟩ := slice
    obtain ⟨buffers, rfl⟩ := ih fun other mem => wellFormed other (List.mem_cons_of_mem _ mem)
    have back : slice.buffer.log = slice := (wellFormed _ List.mem_cons_self).log_buffer
    exact ⟨(position, slice.buffer) :: buffers, by simp only [logged, List.map_cons, back]⟩

/-- A keystroke and the deletion that takes it back do to the log what they do to the cells. -/
theorem delete_runLog {k : Keystroke} (short : b.cells.length < positionLimit)
    (typed : k.run b = .ok b') (longer : b'.cells.length = b.cells.length + 1)
    (back : b'.delete position = .ok b) :
    k.runLog b.log >>= (·.delete position) = .ok b.log := by
  have fits : b'.cells.length ≤ positionLimit := by omega
  rw [k.runLog_log short, typed, Except.map, ok_bind, delete_log b' position fits, back]
  rfl

theorem patchInAll_log (slices : List (Nat × Buffer)) (b : Buffer)
    (fits : b.cells.length + lengthOf (logged slices) ≤ positionLimit) :
    patchInAll patchIn b.log (logged slices) =
        ((patchInAll Buffer.patchIn b slices).1.log, (patchInAll Buffer.patchIn b slices).2) ∧
      (patchInAll Buffer.patchIn b slices).1.cells.length ≤ positionLimit := by
  induction slices generalizing b with
  | nil => exact ⟨rfl, fits⟩
  | cons slice more ih =>
    obtain ⟨position, slice⟩ := slice
    have total : lengthOf (logged ((position, slice) :: more)) =
        slice.cells.length + lengthOf (logged more) := by
      simp only [lengthOf, logged, List.map_cons, List.foldr_cons, length_chars_log]
    have length : (b.patchIn position slice).1.cells.length = b.cells.length + slice.cells.length :=
      length_insertCells b _ slice.cells
    obtain ⟨patched, below⟩ := ih (b.patchIn position slice).1 (by omega)
    constructor
    · rw [logged, List.map_cons, patchInAll, patchIn_log b slice position (by omega), ← logged,
        patched]
      rfl
    · exact below

theorem patchOutAll_log (patches : List Patch) (b : Buffer)
    (fits : b.cells.length ≤ positionLimit) :
    patchOutAll patchOut b.log patches = (patchOutAll Buffer.patchOut b patches).map log := by
  induction patches with
  | nil => rfl
  | cons patch patches ih =>
    rw [patchOutAll_cons, patchOutAll_cons, ih]
    cases above : patchOutAll Buffer.patchOut b patches with
    | error fault => rfl
    | ok mid => exact patchOut_log mid patch (Nat.le_trans (length_patchOutAll above) fits)

end Log

namespace Buffer

/-- Whatever is put in can be taken back to the last mark. A character that is typed at a position,
ahead of the deleted ones there or past them, and deleted at this position leaves the buffer as it
was. So does any stack of slices that are put in at any positions, past the end of the text or not,
and taken out by their patches, the last one first. A well-formed log gets back every character and
every marker in the same way, as long as its places do not wrap around. -/
theorem insertions_are_taken_back :
    (∀ (b : Buffer) (c : Char) (position : Nat), position ≤ b.currentLength →
      b.insert c position >>= (·.delete position) = .ok b ∧
      b.insertPastDeleted c position >>= (·.delete position) = .ok b) ∧
    (∀ (b : Buffer) (slices : List (Nat × Buffer)),
      patchOutAll patchOut (patchInAll patchIn b slices).1 (patchInAll patchIn b slices).2 =
        .ok b) ∧
    ∀ l : Log, l.WellFormed → l.chars.length < positionLimit →
      (∀ (c : Char) (position : Nat), position ≤ l.currentLength →
        l.insert c position >>= (·.delete position) = .ok l ∧
        l.insertPastDeleted c position >>= (·.delete position) = .ok l) ∧
      ∀ slices : List (Nat × Log), (∀ slice ∈ slices, slice.2.WellFormed) →
        l.chars.length + Log.lengthOf slices ≤ positionLimit →
        patchOutAll Log.patchOut (patchInAll Log.patchIn l slices).1
          (patchInAll Log.patchIn l slices).2 = .ok l := by
  refine ⟨?_, patchOutAll_patchInAll, ?_⟩
  · intro b c position inside
    obtain ⟨b₁, typed₁, back₁⟩ := insert_back b c inside
    obtain ⟨b₂, typed₂, back₂⟩ := insertPastDeleted_back b c inside
    rw [typed₁, typed₂]
    exact ⟨back₁, back₂⟩
  · intro l wellFormed short
    obtain ⟨b, rfl⟩ : ∃ b : Buffer, l = b.log := ⟨l.buffer, wellFormed.log_buffer.symm⟩
    rw [Log.length_chars_log] at short ⊢
    constructor
    · intro c position inside
      rw [(Log.lengths_eq b short).1] at inside
      obtain ⟨b₁, typed₁, back₁⟩ := insert_back b c inside
      obtain ⟨b₂, typed₂, back₂⟩ := insertPastDeleted_back b c inside
      constructor
      · exact Log.delete_runLog (k := .insert c position) short typed₁
          (Log.length_insertAt typed₁) back₁
      · exact Log.delete_runLog (k := .insertPastDeleted c position) short typed₂
          (Log.length_insertAt typed₂) back₂
    · intro slices wellFormed fits
      obtain ⟨buffers, rfl⟩ := Log.exists_logged wellFormed
      obtain ⟨patched, below⟩ := Log.patchInAll_log buffers b fits
      rw [patched, Log.patchOutAll_log _ _ below, patchOutAll_patchInAll]
      rfl

/-- A character comes and goes ahead of the deleted `x` and past it, and two slices with changes at
their ends come in, the second one inside of the first. -/
theorem frayed_comes_back :
    1 ≤ frayed.currentLength ∧ frayed.log.WellFormed ∧ twoWords.log.WellFormed ∧
    frayed.log.chars.length + Log.lengthOf [(1, twoWords.log), (4, frayed.log)] ≤ positionLimit ∧
    (frayed.insert 'q' 1).map marked = .ok "Dp_aAqDxAb_cDz".toList ∧
    frayed.log.insert 'q' 1 >>= (·.delete 1) = .ok frayed.log ∧
    (frayed.insertPastDeleted 'q' 1).map marked = .ok "Dp_aDxAqAb_cDz".toList ∧
    frayed.insertPastDeleted 'q' 1 >>= (·.delete 1) = .ok frayed ∧
    (patchInAll patchIn frayed [(1, twoWords), (4, frayed)]).1.marked =
      "Dp_aDx_(Da_b_ Dp_aDxAb_cDz_cAx_d_)Ab_cDz".toList ∧
    patchOutAll Log.patchOut
      (patchInAll Log.patchIn frayed.log [(1, twoWords.log), (4, frayed.log)]).1
      (patchInAll Log.patchIn frayed.log [(1, twoWords.log), (4, frayed.log)]).2 =
        .ok frayed.log := by
  obtain ⟨typed, -, logs⟩ := insertions_are_taken_back
  have inside : 1 ≤ frayed.currentLength := by decide
  have wellFormed : frayed.log.WellFormed := log_wellFormed frayed
  have wellFormed' : twoWords.log.WellFormed := log_wellFormed twoWords
  have fits : frayed.log.chars.length + Log.lengthOf [(1, twoWords.log), (4, frayed.log)] ≤
      positionLimit := by
    decide
  obtain ⟨typed_log, piled⟩ := logs frayed.log wellFormed (by decide)
  refine ⟨inside, wellFormed, wellFormed', fits, by decide,
    (typed_log 'q' 1 (by decide)).1, by decide, (typed frayed 'q' 1 inside).2, by decide,
    piled _ ?_ fits⟩
  intro slice mem
  simp only [List.mem_cons, List.not_mem_nil, or_false] at mem
  rcases mem with rfl | rfl
  · exact wellFormed'
  · exact wellFormed

end Buffer

end FormEdit
