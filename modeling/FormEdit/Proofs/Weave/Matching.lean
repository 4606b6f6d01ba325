import FormEdit.Proofs.Buffer.BothTexts
import FormEdit.Proofs.Weave.Places

/-!
# Places that match the stored cells

Storage holds the current and the committed text at once. The place of a node matches it if the
current cells of the node are stored among its committed ones, and no others of these are still
current (`Matches`). Typing, deleting and committing keep the places matched that move along with
them.
-/

namespace FormEdit

namespace Weave

open Buffer

variable {cells before behind : List Cell} {x x' : Place}

/-- The place of a node in both texts agrees with storage: its current cells are stored between its
committed ones, and all of these that are kept belong to it. -/
structure Matches (cells : List Cell) (x : Place) : Prop where
  inside : ∀ {j t : Nat} {c : Cell}, Spot cells j t c → c.isCurrent = true → x.start ≤ j →
    j < x.start + x.length → x.oldStart ≤ t ∧ t < x.oldStart + x.oldLength
  outside : ∀ {j t : Nat} {c : Cell}, Spot cells j t c → c.status = .kept → x.oldStart ≤ t →
    t < x.oldStart + x.oldLength → x.start ≤ j ∧ j < x.start + x.length

/-! ## Typing -/

/-- How the place of a node moves when a character is typed at a position, ahead of `behind`. -/
structure Place.Typed (position : Nat) (behind : List Cell) (x x' : Place) : Prop where
  oldStart : x'.oldStart = x.oldStart
  oldLength : x'.oldLength = x.oldLength
  moves : (x'.start = x.start ∧ x'.length = x.length ∧ x.start + x.length ≤ position) ∨
    (x'.start = x.start + 1 ∧ x'.length = x.length ∧ (position < x.start ∨ x.length = 0)) ∨
    (x'.start = x.start ∧ x'.length = x.length + 1 ∧ x.start ≤ position ∧
      position < x.start + x.length ∧ (x.start = position → StartsCurrent behind))

theorem Matches.typed (matched : Matches (before ++ behind) x) (char : Char)
    (inside : x.start + x.length ≤ currentCount (before ++ behind))
    (typed : x.Typed (currentCount before) behind x') :
    Matches (before ++ ([⟨char, .inserted⟩] ++ behind)) x' := by
  obtain ⟨oldStart, oldLength, moves⟩ := typed
  have one : currentCount [⟨char, .inserted⟩] = 1 := rfl
  have none : (original [⟨char, .inserted⟩]).length = 0 := rfl
  rw [currentCount_append] at inside
  constructor
  · intro j t c spot current start stop
    rcases spot.cases with own | ⟨j', t', own, rfl, rfl⟩ | ⟨j', t', own, rfl, rfl⟩
    · have := own.lt current
      have := matched.inside (own.first _) current
      omega
    · obtain ⟨-, rfl, rfl⟩ := spot_singleton.mp own
      obtain ⟨-, -, after, ahead, starts⟩ :=
        moves.resolve_left (by omega) |>.resolve_left (by omega)
      obtain ⟨t, d, next, current'⟩ := exists_spot (j := 0) (show 0 < currentCount behind by omega)
      have upper := matched.inside (next.second before) current'
      by_cases first : x.start = currentCount before
      · -- It comes to be the first of the node, past all that is deleted there.
        obtain ⟨e, rest, rfl⟩ := List.exists_cons_of_ne_nil next.ne_nil
        have := matched.inside ((spot_head rest).second before) (starts first e rfl)
        omega
      · obtain ⟨t', e, previous, current''⟩ :=
          exists_spot (show currentCount before - 1 < currentCount before by omega)
        have lower := matched.inside (previous.first behind) current''
        have := previous.le
        omega
    · have := matched.inside (own.second before) current
      omega
  · intro j t c spot kept start stop
    rcases spot.cases with own | ⟨j', t', own, rfl, rfl⟩ | ⟨j', t', own, rfl, rfl⟩
    · have := own.lt (isCurrent_of_kept kept)
      have := matched.outside (own.first _) kept
      omega
    · obtain ⟨rfl, -, -⟩ := spot_singleton.mp own
      cases kept
    · have := matched.outside (own.second before) kept
      omega

/-! ## Deleting -/

/-- How the place of a node moves when the character at a position is deleted. -/
structure Place.Struck (position : Nat) (x x' : Place) : Prop where
  oldStart : x'.oldStart = x.oldStart
  oldLength : x'.oldLength = x.oldLength
  moves : (x'.start = x.start ∧ x'.length = x.length ∧ x.start + x.length ≤ position) ∨
    (x'.start + 1 = x.start ∧ x'.length = x.length ∧ position < x.start) ∨
    (x'.start = x.start ∧ x'.length + 1 = x.length ∧ x.start ≤ position ∧
      position < x.start + x.length)

theorem Matches.deleted {c : Cell} (matched : Matches (before ++ ([c] ++ behind)) x)
    (current : c.isCurrent = true) (moved : x.Struck (currentCount before) x') :
    Matches (before ++ (struck c ++ behind)) x' := by
  obtain ⟨oldStart, oldLength, moves⟩ := moved
  have one : currentCount [c] = 1 := by simp [current]
  have none := currentCount_struck c
  have same := original_struck current
  constructor
  · intro j t d spot current' start stop
    rcases spot.cases with own | ⟨j', t', own, rfl, rfl⟩ | ⟨j', t', own, rfl, rfl⟩
    · have := own.lt current'
      have := matched.inside (own.first _) current'
      omega
    · simp [Cell.isCurrent, status_struck own.mem] at current'
    · rw [same]
      have := matched.inside (own.last before [c]) current'
      omega
  · intro j t d spot kept start stop
    rcases spot.cases with own | ⟨j', t', own, rfl, rfl⟩ | ⟨j', t', own, rfl, rfl⟩
    · have := own.lt (isCurrent_of_kept kept)
      have := matched.outside (own.first _) kept
      omega
    · rw [status_struck own.mem] at kept
      cases kept
    · rw [same] at start stop
      have := matched.outside (own.last before [c]) kept
      omega

/-! ## Committing -/

/-- How the place of a node moves when a stretch of storage gives way to `k` kept cells: it has `n`
current and `m` committed characters, and `s` current and `a` committed ones are stored ahead of
it. -/
def Place.Renewed (s n a m k : Nat) (x x' : Place) : Prop :=
  (x'.start = x.start ∧ x'.length = x.length ∧ x.start + x.length ≤ s ∧
      x'.oldStart = x.oldStart ∧ x'.oldLength = x.oldLength ∧ x.oldStart + x.oldLength ≤ a) ∨
    (x'.start + n = x.start + k ∧ x'.length = x.length ∧ s + n ≤ x.start ∧
      x'.oldStart + m = x.oldStart + k ∧ x'.oldLength = x.oldLength ∧ a + m ≤ x.oldStart) ∨
    (x'.start = x.start ∧ x'.length + n = x.length + k ∧ x.start ≤ s ∧ s + n ≤ x.start + x.length ∧
      x'.oldStart = x.oldStart ∧ x'.oldLength + m = x.oldLength + k ∧ x.oldStart ≤ a ∧
      a + m ≤ x.oldStart + x.oldLength)

theorem Matches.renewed {mid new : List Cell} (matched : Matches (before ++ (mid ++ behind)) x)
    (some : 0 < currentCount mid) (kept_new : AllKept new)
    (some_new : 0 < currentCount new)
    (moved : x.Renewed (currentCount before) (currentCount mid) (original before).length
      (original mid).length (currentCount new) x') :
    Matches (before ++ (new ++ behind)) x' := by
  rw [Place.Renewed] at moved
  have oldCount := length_original_kept kept_new
  constructor
  · intro j t d spot current start stop
    rcases spot.cases with own | ⟨j', t', own, rfl, rfl⟩ | ⟨j', t', own, rfl, rfl⟩
    · have := own.lt current
      have := own.le
      have := matched.inside (own.first _) current
      omega
    · have := own.lt current
      obtain rfl := spot_kept kept_new own
      omega
    · have := matched.inside (own.last before mid) current
      omega
  · intro j t d spot kept start stop
    rcases spot.cases with own | ⟨j', t', own, rfl, rfl⟩ | ⟨j', t', own, rfl, rfl⟩
    · have := own.lt (isCurrent_of_kept kept)
      have := own.lt_of_kept kept
      have := matched.outside (own.first _) kept
      omega
    · have := own.lt (isCurrent_of_kept kept)
      obtain rfl := spot_kept kept_new own
      omega
    · have := matched.outside (own.last before mid) kept
      omega

/-- If the first and the last committed cell of a node are still current, the stretch of storage
from its first to its last current cell has exactly its committed cells, and it ends with the last
one. -/
theorem Matches.stretch {mid : List Cell} {first last : Cell}
    (matched : Matches (before ++ (mid ++ behind)) x) (start : x.start = currentCount before)
    (length : x.length = currentCount mid) (some : mid ≠ []) (starts : StartsCurrent mid)
    (ends : EndsCurrent mid) (filled : 0 < x.oldLength)
    (at_first : (saved (before ++ (mid ++ behind)))[x.oldStart]? = .some first)
    (at_last : (saved (before ++ (mid ++ behind)))[x.oldStart + x.oldLength - 1]? = .some last)
    (kept_first : first.status = .kept) (kept_last : last.status = .kept) :
    (original before).length = x.oldStart ∧ (original mid).length = x.oldLength ∧
      ∃ inner l, mid = inner ++ [l] ∧ l.status = .kept := by
  -- No kept cell of the node is stored ahead of the stretch or behind it.
  have low : (original before).length ≤ x.oldStart := by
    obtain ⟨j, spot⟩ := exists_spot_saved at_first
    have within := matched.outside spot kept_first (Nat.le_refl _) (by omega)
    rcases spot.cases with own | ⟨j', t', -, -, t_eq⟩ | ⟨j', t', -, j_eq, -⟩
    · have := own.lt (isCurrent_of_kept kept_first)
      omega
    · omega
    · omega
  have high : x.oldStart + x.oldLength ≤ (original before).length + (original mid).length := by
    obtain ⟨j, spot⟩ := exists_spot_saved at_last
    have within := matched.outside spot kept_last (by omega) (by omega)
    rcases spot.cases with own | ⟨j', t', own, -, t_eq⟩ | ⟨j', t', -, j_eq, -⟩
    · have := own.lt (isCurrent_of_kept kept_last)
      omega
    · have := own.lt_of_kept kept_last
      omega
    · omega
  have middle {j t : Nat} {c : Cell} (spot : Spot mid j t c) :
      Spot (before ++ (mid ++ behind)) (currentCount before + j) ((original before).length + t) c :=
    (spot.first behind).second before
  have positive := currentCount_pos_of_startsCurrent starts some
  obtain ⟨c, rest, mid_eq⟩ := List.exists_cons_of_ne_nil some
  have first_within := matched.inside (middle (mid_eq ▸ spot_head rest))
    (starts c (by rw [mid_eq]; rfl)) (by omega) (by omega)
  obtain ⟨inner, l, rfl⟩ := (List.eq_nil_or_concat mid).resolve_left some
  rw [List.concat_eq_append] at *
  have current : l.isCurrent = true := ends l (by simp)
  have one_current : currentCount [l] = 1 := by simp [current]
  have last_within := matched.inside (middle ⟨inner, [], rfl, rfl, rfl⟩) current (by omega) (by
    rw [currentCount_append] at length
    omega)
  rw [original_append, List.length_append] at high
  have committed : l.isCommitted = true := by
    by_contra typed
    simp only [original_cons, typed, original_nil] at high
    simp at high
    omega
  have one : (original [l]).length = 1 := by simp [original_cons, committed]
  refine ⟨by omega, by rw [original_append, List.length_append]; omega, inner, l, rfl, ?_⟩
  obtain ⟨char, status⟩ := l
  cases status with
  | kept => rfl
  | inserted => cases committed
  | deleted => cases current

end Weave

end FormEdit
