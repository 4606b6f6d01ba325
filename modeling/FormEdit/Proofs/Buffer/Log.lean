import FormEdit.Buffer.Log

/-!
# The log of a buffer

The log of any buffer is well formed, and its markers move with their cells as long as these stay
below the limit.
-/

namespace FormEdit

namespace Buffer

variable {xs ys : List Cell} {i j : Nat}

@[simp] theorem markersFrom_nil (i : Nat) : markersFrom i [] = [] := rfl

@[simp] theorem markersFrom_kept (i : Nat) (c : Char) (xs : List Cell) :
    markersFrom i (⟨c, .kept⟩ :: xs) = markersFrom (i + 1) xs := rfl

@[simp] theorem markersFrom_inserted (i : Nat) (c : Char) (xs : List Cell) :
    markersFrom i (⟨c, .inserted⟩ :: xs) = ⟨i, .inserted⟩ :: markersFrom (i + 1) xs := rfl

@[simp] theorem markersFrom_deleted (i : Nat) (c : Char) (xs : List Cell) :
    markersFrom i (⟨c, .deleted⟩ :: xs) = ⟨i, .deleted⟩ :: markersFrom (i + 1) xs := rfl

theorem markersFrom_append (i : Nat) (xs ys : List Cell) :
    markersFrom i (xs ++ ys) = markersFrom i xs ++ markersFrom (i + xs.length) ys := by
  induction xs generalizing i with
  | nil => simp [markersFrom]
  | cons c xs ih =>
    rw [List.cons_append, markersFrom, ih, markersFrom, List.append_assoc, List.length_cons]
    congr 3
    omega

theorem mem_markersFrom {m : Marker} (mem : m ∈ markersFrom i xs) :
    i ≤ m.index ∧ m.index < i + xs.length := by
  induction xs generalizing i with
  | nil => cases mem
  | cons c xs ih =>
    rw [markersFrom, List.mem_append] at mem
    rw [List.length_cons]
    rcases mem with mem | mem
    · obtain ⟨change, -, rfl⟩ := Option.map_eq_some_iff.mp (Option.mem_toList.mp mem)
      exact ⟨Nat.le_refl i, by simp⟩
    · have bounds := ih mem
      omega

theorem ascending_markersFrom (i : Nat) (xs : List Cell) :
    (markersFrom i xs).Pairwise fun m n => m.index < n.index := by
  induction xs generalizing i with
  | nil => exact .nil
  | cons c xs ih =>
    rw [markersFrom, List.pairwise_append]
    refine ⟨?_, ih (i + 1), ?_⟩
    · cases c.change? with
      | none => exact .nil
      | some change => exact List.pairwise_singleton ..
    · intro m mem n later
      obtain ⟨change, -, rfl⟩ := Option.map_eq_some_iff.mp (Option.mem_toList.mp mem)
      exact (mem_markersFrom later).1

theorem log_wellFormed (b : Buffer) : b.log.WellFormed where
  ascending := ascending_markersFrom 0 b.cells
  inside := by
    intro m mem
    have bounds := mem_markersFrom mem
    simpa [log] using bounds.2

/-- Markers move with their cells as long as these stay below the limit. -/
theorem map_moved {distance : Int} (target : (j : Int) = i + distance)
    (fits : j + xs.length ≤ positionLimit) :
    (markersFrom i xs).map (·.moved distance) = markersFrom j xs := by
  induction xs generalizing i j with
  | nil => rfl
  | cons c xs ih =>
    rw [List.length_cons] at fits
    rw [markersFrom, markersFrom, List.map_append, ih (j := j + 1) (by omega) (by omega)]
    congr 1
    cases c.change? with
    | none => rfl
    | some change =>
      have place : (((i : Int) + distance) % (positionLimit : Int)).toNat = j := by
        rw [← target, Int.emod_eq_of_lt (by omega) (by omega)]
        rfl
      simp [Marker.moved, place]

end Buffer

end FormEdit
