import FormEdit.Proofs.Buffer.Committed
import FormEdit.Proofs.Buffer.Losses

/-!
# Storage as two texts

Storage holds the current text and the committed one, and every stored cell stands at a place in
both (`Spot`). In how far inserted cells stand ahead of deleted ones or behind them shows in neither
text: two sequences of cells with the same two texts keep them so through strokes and commits
(`SameTexts`).
-/

namespace FormEdit

namespace Buffer

variable {cells xs ys : List Cell} {j t : Nat} {c : Cell}

theorem isCurrent_of_kept (kept : c.status = .kept) : c.isCurrent = true := by
  simp [Cell.isCurrent, kept]

/-- The cell is stored with `j` current and `t` committed characters ahead of it. -/
def Spot (cells : List Cell) (j t : Nat) (c : Cell) : Prop :=
  ∃ pre post, cells = pre ++ c :: post ∧ currentCount pre = j ∧ (original pre).length = t

theorem spot_append : Spot (xs ++ ys) j t c ↔ Spot xs j t c ∨
    ∃ j' t', Spot ys j' t' c ∧ j = currentCount xs + j' ∧ t = (original xs).length + t' := by
  constructor
  · rintro ⟨pre, post, split, rfl, rfl⟩
    rcases append_cases split with ⟨mid, rfl, rfl⟩ | ⟨mid, rfl, ys_eq⟩
    · exact .inl ⟨pre, mid, rfl, rfl, rfl⟩
    · exact .inr ⟨_, _, ⟨mid, post, ys_eq, rfl, rfl⟩, by simp, by simp⟩
  · rintro (⟨pre, post, rfl, rfl, rfl⟩ | ⟨j', t', ⟨pre, post, rfl, rfl, rfl⟩, rfl, rfl⟩)
    · exact ⟨pre, post ++ ys, by simp, rfl, rfl⟩
    · exact ⟨xs ++ pre, post, by simp, by simp, by simp⟩

theorem spot_singleton {d : Cell} : Spot [d] j t c ↔ c = d ∧ j = 0 ∧ t = 0 := by
  constructor
  · rintro ⟨pre, post, split, rfl, rfl⟩
    cases pre with
    | nil =>
      cases split
      exact ⟨rfl, rfl, rfl⟩
    | cons e pre => simp at split
  · rintro ⟨rfl, rfl, rfl⟩
    exact ⟨[], [], rfl, rfl, rfl⟩

theorem Spot.lt (spot : Spot cells j t c) (current : c.isCurrent = true) :
    j < currentCount cells := by
  obtain ⟨pre, post, rfl, rfl, -⟩ := spot
  rw [currentCount_append, currentCount_cons, if_pos current]
  omega

theorem Spot.le (spot : Spot cells j t c) : t ≤ (original cells).length := by
  obtain ⟨pre, post, rfl, -, rfl⟩ := spot
  simp

theorem Spot.lt_of_kept (spot : Spot cells j t c) (kept : c.status = .kept) :
    t < (original cells).length := by
  obtain ⟨pre, post, rfl, -, rfl⟩ := spot
  simp [original_cons, Cell.isCommitted, kept]

theorem Spot.mem (spot : Spot cells j t c) : c ∈ cells := by
  obtain ⟨pre, post, rfl, -⟩ := spot
  simp

theorem Spot.ne_nil (spot : Spot cells j t c) : cells ≠ [] :=
  List.ne_nil_of_mem spot.mem

theorem spot_head {c : Cell} (cells : List Cell) : Spot (c :: cells) 0 0 c :=
  ⟨[], cells, rfl, rfl, rfl⟩

theorem exists_spot (inside : j < currentCount cells) :
    ∃ t c, Spot cells j t c ∧ c.isCurrent = true := by
  obtain ⟨pre, post, rfl, rfl, starts⟩ := exists_lastSplit cells (Nat.le_of_lt inside)
  cases post with
  | nil => simp at inside
  | cons c post => exact ⟨_, c, ⟨pre, post, rfl, rfl, rfl⟩, starts c rfl⟩

/-- A committed cell is stored with those ahead of it that stand ahead of it in the committed
text. -/
theorem exists_spot_saved (found : (saved cells)[t]? = some c) : ∃ j, Spot cells j t c := by
  induction cells generalizing t with
  | nil => simp at found
  | cons d cells ih =>
    cases committed : d.isCommitted with
    | false =>
      rw [saved, List.filter_cons, if_neg (by simp [committed])] at found
      obtain ⟨j, pre, post, rfl, rfl, rfl⟩ := ih found
      exact ⟨_, d :: pre, post, rfl, rfl, by simp [original_cons, committed]⟩
    | true =>
      rw [saved, List.filter_cons, if_pos committed] at found
      cases t with
      | zero =>
        cases found
        exact ⟨0, spot_head cells⟩
      | succ t =>
        obtain ⟨j, pre, post, rfl, rfl, rfl⟩ := ih found
        exact ⟨_, d :: pre, post, rfl, rfl, by simp [original_cons, committed]⟩

/-- The cells of a stretch of storage between two others. -/
theorem Spot.cases {zs : List Cell} (spot : Spot (xs ++ (ys ++ zs)) j t c) : Spot xs j t c ∨
    (∃ j' t', Spot ys j' t' c ∧ j = currentCount xs + j' ∧ t = (original xs).length + t') ∨
    ∃ j' t', Spot zs j' t' c ∧ j = currentCount xs + currentCount ys + j' ∧
      t = (original xs).length + (original ys).length + t' := by
  rcases spot_append.mp spot with first | ⟨j', t', later, rfl, rfl⟩
  · exact .inl first
  · rcases spot_append.mp later with second | ⟨j', t', third, rfl, rfl⟩
    · exact .inr (.inl ⟨_, _, second, rfl, rfl⟩)
    · exact .inr (.inr ⟨_, _, third, by omega, by omega⟩)

theorem Spot.first (spot : Spot xs j t c) (ys : List Cell) : Spot (xs ++ ys) j t c :=
  spot_append.mpr (.inl spot)

theorem Spot.second (spot : Spot ys j t c) (xs : List Cell) :
    Spot (xs ++ ys) (currentCount xs + j) ((original xs).length + t) c :=
  spot_append.mpr (.inr ⟨_, _, spot, rfl, rfl⟩)

theorem Spot.last {zs : List Cell} (spot : Spot zs j t c) (xs ys : List Cell) :
    Spot (xs ++ (ys ++ zs)) (currentCount xs + currentCount ys + j)
      ((original xs).length + (original ys).length + t) c := by
  have twice := (spot.second ys).second xs
  rwa [← Nat.add_assoc, ← Nat.add_assoc] at twice

/-- A committed cell that follows what is committed ahead of a stretch is the first of it. -/
theorem saved_head {zs : List Cell} (some : 0 < (original ys).length)
    (found : (saved (xs ++ (ys ++ zs)))[(original xs).length]? = .some c) :
    (saved ys).head? = .some c := by
  rw [saved_append, saved_append, ← length_saved xs, List.getElem?_append_right (Nat.le_refl _),
    Nat.sub_self, List.getElem?_append_left (by rwa [length_saved])] at found
  rwa [List.head?_eq_getElem?]

/-! ## Commits -/

theorem currentCount_settle (cells : List Cell) :
    currentCount (settle cells) = currentCount cells := by
  rw [← length_shown, ← length_shown, shown_settle]

theorem kept_settle : AllKept (settle cells) := by
  intro c mem
  obtain ⟨d, -, rfl⟩ := List.mem_map.mp mem
  rfl

theorem saved_kept (kept : AllKept cells) : saved cells = cells :=
  saved_eq_self fun d mem => by simp [Cell.isCommitted, kept d mem]

theorem length_original_kept (kept : AllKept cells) :
    (original cells).length = currentCount cells := by
  rw [← length_saved, saved_kept kept, kept.currentCount_eq]

/-- In a stretch without changes both texts go on side by side. -/
theorem spot_kept (kept : AllKept cells) (spot : Spot cells j t c) : t = j := by
  obtain ⟨pre, post, rfl, rfl, rfl⟩ := spot
  exact length_original_kept (AllKept.append.mp kept).1

/-! ## The same two texts -/

/-- The two sequences of cells have the same current text and the same committed one. -/
structure SameTexts (cells cells' : List Cell) : Prop where
  live_eq : live cells = live cells'
  saved_eq : saved cells = saved cells'

variable {before behind before' behind' mid mid' : List Cell}

/-- Every cell shows in one of the two texts. -/
theorem SameTexts.allKept {cells' : List Cell} (same : SameTexts cells cells')
    (kept : AllKept cells') : AllKept cells := by
  intro x mem
  by_cases shows : x.isCurrent = true
  · have listed : x ∈ live cells := List.mem_filter.mpr ⟨mem, shows⟩
    rw [same.live_eq] at listed
    exact kept x (List.mem_filter.mp listed).1
  · have listed : x ∈ saved cells := by
      refine List.mem_filter.mpr ⟨mem, ?_⟩
      obtain ⟨char, status⟩ := x
      cases status with
      | deleted => rfl
      | kept => exact absurd rfl shows
      | inserted => exact absurd rfl shows
    rw [same.saved_eq] at listed
    exact kept x (List.mem_filter.mp listed).1

theorem SameTexts.typed (same : SameTexts (before ++ behind) (before' ++ behind')) (char : Char)
    (count : currentCount before = currentCount before') :
    SameTexts (before ++ ([⟨char, .inserted⟩] ++ behind))
      (before' ++ ([⟨char, .inserted⟩] ++ behind')) where
  live_eq := by
    have live_eq := same.live_eq
    rw [live_append, live_append] at live_eq
    obtain ⟨ahead, after⟩ := List.append_inj live_eq (by simpa using count)
    simp only [live_append, ahead, after]
  saved_eq := by
    have saved_eq := same.saved_eq
    have none : saved [⟨char, .inserted⟩] = [] := rfl
    simpa only [saved_append, none, List.nil_append] using saved_eq

/-- As many kept cells stand ahead of a cell in the one text as in the other. -/
theorem saved_ahead {ys ys' : List Cell} (kept : c.status = .kept)
    (ahead : live before = live before')
    (same : saved before ++ c :: ys = saved before' ++ c :: ys') :
    saved before = saved before' ∧ ys = ys' := by
  have count (cells : List Cell) : (saved cells).countP (·.status = .kept) =
      (live cells).countP (·.status = .kept) := by
    rw [saved, live, List.countP_filter, List.countP_filter]
    refine List.countP_congr fun d _ => ?_
    obtain ⟨char, status⟩ := d
    cases status <;> simp [Cell.isCurrent, Cell.isCommitted]
  have counts := congrArg (List.countP (·.status = .kept)) ahead
  rw [← count, ← count] at counts
  rcases List.append_eq_append_iff.mp same with ⟨more, eq, rest⟩ | ⟨more, eq, rest⟩
  all_goals cases more with
    | nil => simp_all
    | cons d more =>
      cases rest
      rw [eq, List.countP_append, List.countP_cons_of_pos (by simpa using kept)] at counts
      omega

/-- Stretches that start with the same kept cell have the same committed cells ahead of them. -/
theorem saved_front (starts : StartsCurrent behind) (starts' : StartsCurrent behind')
    (kept : ∀ c ∈ live behind', c.status = .kept) (ahead : live before = live before')
    (after : live behind = live behind')
    (same : saved before ++ saved behind = saved before' ++ saved behind') :
    saved before = saved before' := by
  cases behind with
  | nil =>
    cases behind' with
    | nil => simpa using same
    | cons c' behind' =>
      rw [live_cons_of_current (starts' c' rfl)] at after
      cases after
  | cons c behind =>
    have current := starts c rfl
    cases behind' with
    | nil =>
      rw [live_cons_of_current current] at after
      cases after
    | cons c' behind' =>
      rw [live_cons_of_current current, live_cons_of_current (starts' c' rfl)] at after
      obtain ⟨rfl, -⟩ := List.cons.inj after
      have kept_c : c.status = .kept := kept c (by simp [live_cons_of_current current])
      have committed (cells : List Cell) : saved (c :: cells) = c :: saved cells := by
        simp [saved, Cell.isCommitted, kept_c]
      rw [committed, committed] at same
      exact (saved_ahead kept_c ahead same).1

/-- Stretches that end with the same kept cell have the same committed cells, and so has what
follows. -/
theorem saved_back {ys ys' : List Cell} (ends : EndsCurrent before) (ends' : EndsCurrent before')
    (kept : ∀ c ∈ live before', c.status = .kept) (ahead : live before = live before')
    (same : saved before ++ ys = saved before' ++ ys') :
    saved before = saved before' ∧ ys = ys' := by
  rcases List.eq_nil_or_concat before with rfl | ⟨front, last, rfl⟩
  · rcases List.eq_nil_or_concat before' with rfl | ⟨front', last', rfl⟩
    · exact ⟨rfl, same⟩
    · have current := ends' last' (by simp)
      simp [live, current] at ahead
  · rw [List.concat_eq_append] at *
    have current := ends last (by simp)
    rcases List.eq_nil_or_concat before' with rfl | ⟨front', last', rfl⟩
    · simp [live, current] at ahead
    · rw [List.concat_eq_append] at *
      have current' := ends' last' (by simp)
      have one (c : Cell) (current : c.isCurrent = true) : live [c] = [c] :=
        live_eq_self (by simpa using current)
      rw [live_append, live_append, one _ current, one _ current'] at ahead
      obtain ⟨fronts, lasts⟩ := List.append_inj' ahead rfl
      obtain rfl : last = last' := by simpa using lasts
      have kept_last : last.status = .kept := kept last (by simp [one _ current])
      have committed : saved [last] = [last] := by simp [saved, Cell.isCommitted, kept_last]
      rw [saved_append, saved_append, committed, List.append_assoc, List.append_assoc] at same
      obtain ⟨same_front, rest⟩ := saved_ahead kept_last fronts same
      exact ⟨by rw [saved_append, saved_append, same_front], rest⟩

/-- Two sequences with the same two texts are cut alike between stretches without changes. -/
theorem SameTexts.between {la inner ra : List Cell}
    (same : SameTexts (before ++ (mid ++ behind)) (la ++ (inner ++ ra))) (kept : AllKept la)
    (kept' : AllKept ra) (count : currentCount before = la.length)
    (count_mid : currentCount mid = currentCount inner) (ends : EndsCurrent before)
    (starts : StartsCurrent behind) :
    SameTexts before la ∧ SameTexts mid inner ∧ SameTexts behind ra := by
  obtain ⟨live_eq, saved_eq⟩ := same
  have current_la : live la = la := live_eq_self kept.current
  have current_ra : live ra = ra := live_eq_self kept'.current
  simp only [live_append] at live_eq
  simp only [saved_append] at saved_eq
  obtain ⟨ahead, live_rest⟩ := List.append_inj live_eq (by
    rw [length_live, count, current_la])
  obtain ⟨within, after⟩ := List.append_inj live_rest (by
    rw [length_live, length_live, count_mid])
  obtain ⟨saved_before, saved_rest⟩ :=
    saved_back ends kept.endsCurrent (by rwa [current_la]) ahead saved_eq
  have saved_mid :=
    saved_front starts kept'.startsCurrent (by rwa [current_ra]) within after saved_rest
  rw [saved_mid] at saved_rest
  exact ⟨⟨ahead, saved_before⟩, ⟨within, saved_mid⟩, ⟨after, List.append_cancel_left saved_rest⟩⟩

/-- The cells of a span between two stretches without changes are committed as they are there. -/
theorem SameTexts.saved_cellsOf {la inner ra : List Cell} {span : Span}
    (same : SameTexts cells (la ++ (inner ++ ra))) (kept : AllKept la) (kept' : AllKept ra)
    (start : span.start = la.length) (stop : span.stop = la.length + currentCount inner) :
    saved (cellsOf ⟨cells⟩ span) = saved inner := by
  have total := congrArg List.length same.live_eq
  simp only [length_live, live_append, List.length_append, kept.currentCount_eq] at total
  obtain ⟨before, rest, rfl, count, ends⟩ :=
    exists_firstSplit cells (show la.length ≤ currentCount cells by omega)
  rw [currentCount_append] at total
  obtain ⟨mid, behind, rfl, count_mid, starts⟩ :=
    exists_lastSplit rest (show currentCount inner ≤ currentCount rest by omega)
  have whole : cellsOf ⟨before ++ (mid ++ behind)⟩ span = mid := by
    rw [← List.append_assoc]
    exact cellsOf_append (count.trans start.symm)
      (by rw [currentCount_append, count, count_mid, stop]) ends starts
  rw [whole]
  exact (same.between kept kept' count count_mid ends starts).2.1.saved_eq

theorem SameTexts.struck {c' : Cell}
    (same : SameTexts (before ++ ([c] ++ behind)) (before' ++ ([c'] ++ behind')))
    (count : currentCount before = currentCount before') (current : c.isCurrent = true)
    (current' : c'.isCurrent = true) :
    c = c' ∧ SameTexts (before ++ (Buffer.struck c ++ behind))
      (before' ++ (Buffer.struck c ++ behind')) := by
  obtain ⟨live_eq, saved_eq⟩ := same
  simp only [live_append, List.cons_append, List.nil_append, live_cons_of_current current,
    live_cons_of_current current'] at live_eq
  obtain ⟨ahead, rest⟩ := List.append_inj live_eq (by simpa using count)
  obtain ⟨rfl, after⟩ := List.cons.inj rest
  refine ⟨rfl, by simp only [live_append, ahead, after], ?_⟩
  obtain ⟨char, status⟩ := c
  cases status with
  | deleted => cases current
  | inserted => simpa [Buffer.struck, saved, Cell.isCommitted] using saved_eq
  | kept =>
    have committed (cells : List Cell) :
        saved (⟨char, .kept⟩ :: cells) = ⟨char, .kept⟩ :: saved cells := rfl
    simp only [saved_append, List.cons_append, List.nil_append, committed] at saved_eq
    obtain ⟨first, second⟩ := saved_ahead rfl ahead saved_eq
    simp only [saved_append, first, second]

/-- Two stretches with the same place in both texts have the same texts and can give way to
others. -/
theorem SameTexts.replaced
    (same : SameTexts (before ++ (mid ++ behind)) (before' ++ (mid' ++ behind')))
    (count : currentCount before = currentCount before')
    (count_mid : currentCount mid = currentCount mid')
    (old_count : (original before).length = (original before').length)
    (old_count_mid : (original mid).length = (original mid').length) :
    (∀ new, SameTexts (before ++ (new ++ behind)) (before' ++ (new ++ behind'))) ∧
      shown mid = shown mid' ∧ original mid = original mid' := by
  obtain ⟨live_eq, saved_eq⟩ := same
  simp only [live_append, saved_append] at live_eq saved_eq
  obtain ⟨ahead, live_rest⟩ := List.append_inj live_eq (by simpa using count)
  obtain ⟨live_mid, after⟩ := List.append_inj live_rest (by simpa using count_mid)
  obtain ⟨old_ahead, saved_rest⟩ := List.append_inj saved_eq (by simpa using old_count)
  obtain ⟨saved_mid, old_after⟩ := List.append_inj saved_rest (by simpa using old_count_mid)
  refine ⟨fun new => ⟨?_, ?_⟩, by rw [shown_eq_live, shown_eq_live, live_mid],
    by rw [original_eq_saved, original_eq_saved, saved_mid]⟩
  · simp only [live_append, ahead, after]
  · simp only [saved_append, old_ahead, old_after]

end Buffer

end FormEdit
