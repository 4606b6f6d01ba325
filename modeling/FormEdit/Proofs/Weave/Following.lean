import FormEdit.Proofs.Weave.Matching
import FormEdit.Proofs.Weave.Reading
import FormEdit.Proofs.Weave.Room

/-!
# Places follow the text

A stroke changes the cells of one node, and committing a node those of a stretch of it. In each case
the places of all nodes but the root go on matching what is stored: of those ahead of the change,
behind it, around it and inside.
-/

namespace FormEdit.Weave

open Buffer

variable {p q position : Nat} {gs : List Frame} {kind : Kind} {us vs ws : List Weave}
  {cells before behind : List Cell} {x : Place}

/-- The places of all nodes but the root match what is stored. -/
def AllMatch (cells : List Cell) (p q : Nat) (w : Weave) : Prop :=
  ∀ x ∈ (placesOf p q w).tail, Matches cells x

/-- A node from a position on that does not contain it is behind it, or empty. -/
theorem place_passed (after : position ≤ p)
    (outside : ∀ f ∈ formsAt p ws, (Form.span f).contains position = false)
    (mem : x ∈ placesAt p q ws) : position < x.start ∨ x.length = 0 := by
  induction ws generalizing p q with
  | nil => simp at mem
  | cons w ws ih =>
    rw [formsAt_cons] at outside
    rw [placesAt_cons, List.mem_append] at mem
    rcases mem with own | later
    · rw [← placesAt_singleton] at own
      obtain ⟨start, stop, -, -⟩ := placesAt_within own
      rcases Nat.eq_or_lt_of_le after with rfl | ahead
      · cases w with
        | cell c => simp at own
        | node k ps =>
          have empty := node_passed (Nat.le_refl position) fun f hf =>
            outside f (List.mem_append_left _ hf)
          rw [width_cons, width_nil] at stop
          omega
      · omega
    · exact ih (by omega) (fun f mem => outside f (List.mem_append_right _ mem)) later

/-- The place of a node in a weave ends inside of the weave. -/
theorem place_stop {w : Weave} (mem : x ∈ placesOf p q w) : x.start + x.length ≤ p + w.room := by
  rw [← placesAt_singleton] at mem
  have stop := (placesAt_within mem).stop
  rwa [width_cons, width_nil] at stop

/-- The nodes beside a stretch of cells. -/
theorem mem_placesAt_beside {mid : List Cell} : x ∈ placesAt p q (us ++ mid.map cell ++ vs) ↔
    x ∈ placesAt p q us ∨
      x ∈ placesAt (p + width us + currentCount mid)
        (q + oldWidth us + (original mid).length) vs := by
  rw [placesAt_append, placesAt_append, placesAt_cells, List.append_nil, List.mem_append,
    width_append, oldWidth_append, width_map_cell, oldWidth_map_cell, Nat.add_assoc, Nat.add_assoc]

/-! ## Strokes -/

/-- A typed character goes past the deleted ones at its position if it starts its node. -/
theorem AllMatch.typed (c : Char)
    (seam : p + currentCount (left gs) + width us = currentCount before)
    (outside : ∀ f ∈ formsAt (p + currentCount (left gs)) (us ++ vs),
      (Form.span f).contains (currentCount before) = false)
    (inner : gs ≠ [] → 0 < width vs)
    (starts : p + currentCount (left gs) = currentCount before → StartsCurrent behind)
    (inside : p + (wrap gs (.node kind (us ++ vs))).room ≤ currentCount (before ++ behind))
    (all : AllMatch (before ++ behind) p q (wrap gs (.node kind (us ++ vs)))) :
    AllMatch (before ++ ([⟨c, .inserted⟩] ++ behind)) p q
      (wrap gs (.node kind (us ++ [⟨c, .inserted⟩].map cell ++ vs))) := by
  have typed_width : currentCount [⟨c, .inserted⟩] = 1 := rfl
  have typed_oldWidth : (original [⟨c, .inserted⟩]).length = 0 := rfl
  have known : ∀ x ∈ (placesOf p q (wrap gs (.node kind (us ++ vs)))).tail,
      Matches (before ++ behind) x ∧ x.start + x.length ≤ currentCount (before ++ behind) :=
    fun x mem => ⟨all x mem, Nat.le_trans (place_stop (List.mem_of_mem_tail mem)) inside⟩
  have step {x x' : Place} (known : Matches (before ++ behind) x ∧
      x.start + x.length ≤ currentCount (before ++ behind))
      (typed : x.Typed (currentCount before) behind x') := known.1.typed c known.2 typed
  refine places_wrap gs rfl rfl ?_ ?_ ?_ ?_ known
  · intro x stop _ known
    exact step known ⟨rfl, rfl, .inl ⟨rfl, rfl, by omega⟩⟩
  · intro some x known
    have positive := inner some
    refine step known ⟨?_, rfl, .inr (.inl ⟨?_, rfl, .inl ?_⟩)⟩
    all_goals simp only [Place.shift, width_append, oldWidth_append, width_map_cell,
      oldWidth_map_cell]
    all_goals omega
  · intro some first old n m n' m' first_eq old_eq known
    have positive := inner some
    rw [width_append, oldWidth_append] at known
    refine step known ⟨rfl, ?_, .inr (.inr ⟨rfl, ?_, ?_, ?_, fun at_start => starts ?_⟩)⟩
    all_goals simp only [width_append, oldWidth_append, width_map_cell, oldWidth_map_cell] at *
    all_goals omega
  · intro known x mem
    rcases mem_placesAt_beside.mp mem with ahead | after
    · have stop := (placesAt_within ahead).stop
      refine step (known x ?_) ⟨rfl, rfl, .inl ⟨rfl, rfl, by omega⟩⟩
      rw [placesAt_append]
      exact List.mem_append_left _ ahead
    · obtain ⟨y, listed, rfl⟩ := mem_placesAt_start.mp after
      obtain ⟨z, z_eq⟩ : ∃ z, y.shift (p + currentCount (left gs) + width us)
          (q + (original (left gs)).length + oldWidth us) = z := ⟨_, rfl⟩
      have mem_z := mem_placesAt_start.mpr ⟨y, listed, z_eq⟩
      have passed := place_passed (Nat.le_of_eq seam.symm) (fun f mem => outside f (by
        rw [formsAt_append]
        exact List.mem_append_right _ mem)) mem_z
      have known_z := known z (by
        rw [placesAt_append]
        exact List.mem_append_right _ mem_z)
      subst z_eq
      refine step known_z ⟨?_, rfl, .inr (.inl ⟨?_, rfl, passed⟩)⟩
      all_goals simp only [Place.shift]
      all_goals omega

/-- A deleted character leaves its node. -/
theorem AllMatch.struck {c : Cell} (current : c.isCurrent = true)
    (seam : p + currentCount (left gs) + width us = currentCount before)
    (all : AllMatch (before ++ ([c] ++ behind)) p q
      (wrap gs (.node kind (us ++ [c].map cell ++ vs)))) :
    AllMatch (before ++ (Buffer.struck c ++ behind)) p q
      (wrap gs (.node kind (us ++ (Buffer.struck c).map cell ++ vs))) := by
  have one : currentCount [c] = 1 := by simp [current]
  have none := currentCount_struck c
  have same := original_struck current
  have step {x x' : Place} (known : Matches (before ++ ([c] ++ behind)) x)
      (moved : x.Struck (currentCount before) x') := known.deleted current moved
  refine places_wrap gs rfl rfl ?_ ?_ ?_ ?_ all
  · intro x stop _ known
    exact step known ⟨rfl, rfl, .inl ⟨rfl, rfl, by omega⟩⟩
  · intro _ x known
    refine step known ⟨?_, rfl, .inr (.inl ⟨?_, rfl, ?_⟩)⟩
    all_goals simp only [Place.shift, width_append, oldWidth_append, width_map_cell,
      oldWidth_map_cell, same]
    all_goals omega
  · intro _ first old n m n' m' first_eq old_eq known
    refine step known ⟨rfl, ?_, .inr (.inr ⟨rfl, ?_, ?_, ?_⟩)⟩
    all_goals simp only [width_append, oldWidth_append, width_map_cell, oldWidth_map_cell, same]
    all_goals omega
  · intro known x mem
    rcases mem_placesAt_beside.mp mem with ahead | after
    · have stop := (placesAt_within ahead).stop
      exact step (known x (mem_placesAt_beside.mpr (.inl ahead))) ⟨rfl, rfl,
        .inl ⟨rfl, rfl, by omega⟩⟩
    · obtain ⟨y, listed, rfl⟩ := mem_placesAt_start.mp after
      refine step
        (known _ (mem_placesAt_beside.mpr (.inr (mem_placesAt_start.mpr ⟨y, listed, rfl⟩))))
        ⟨?_, rfl, .inr (.inl ⟨?_, rfl, ?_⟩)⟩
      all_goals simp only [Place.shift, same]
      all_goals omega

/-! ## Commits -/

theorem Kept.oldWidth_eq (kept : Kept ws) : oldWidth ws = Weave.width ws := by
  have committed : (stored ws).filter Cell.isCommitted = stored ws :=
    List.filter_eq_self.mpr fun c mem => by simp [Cell.isCommitted, kept c mem]
  rw [kept.width, oldWidth, original, committed]
  rfl

/-- Without changes the nodes take up the same places in both texts. -/
theorem place_kept (kept : Kept ws) (mem : x ∈ placesAt p q ws) :
    x.start + q = x.oldStart + p ∧ x.length = x.oldLength := by
  have each (w : Weave) : ∀ p q, Kept [w] → x ∈ placesOf p q w →
      x.start + q = x.oldStart + p ∧ x.length = x.oldLength := by
    induction w using Weave.induction with
    | cell c => simp
    | node kind parts ih =>
      intro p q kept mem
      have kept_parts := kept_node.mp kept
      have inner (ws : List Weave) (sub : ∀ w ∈ ws, w ∈ parts) (p q : Nat) (kept : Kept ws)
          (mem : x ∈ placesAt p q ws) : x.start + q = x.oldStart + p ∧ x.length = x.oldLength := by
        induction ws generalizing p q with
        | nil => simp at mem
        | cons w ws ihws =>
          obtain ⟨kept_w, kept_ws⟩ := kept_cons.mp kept
          rw [placesAt_cons, List.mem_append] at mem
          rcases mem with mem | mem
          · exact ih w (sub w (by simp)) p q kept_w mem
          · have same := kept_w.oldWidth_eq
            rw [width_cons, width_nil, Nat.add_zero] at same
            have := ihws (fun v mem => sub v (by simp [mem])) _ _ kept_ws mem
            omega
      rw [placesOf_node, List.mem_cons] at mem
      rcases mem with rfl | mem
      · exact ⟨Nat.add_comm p q, kept_parts.oldWidth_eq.symm⟩
      · exact inner parts (fun _ mem => mem) p q kept_parts mem
  refine each (.node .list ws) p q (kept_node.mpr kept) ?_
  rw [placesOf_node]
  exact List.mem_cons_of_mem _ mem

/-- A node in a stretch of kept cells matches it. -/
theorem matches_renewed {new : List Cell} (kept : Kept ws) (stored_eq : stored ws = new)
    (mem : x ∈ placesAt (currentCount before) (original before).length ws) :
    Matches (before ++ (new ++ behind)) x := by
  obtain ⟨start, stop, oldStart, oldStop⟩ := placesAt_within mem
  obtain ⟨shifted, same⟩ := place_kept kept mem
  have kept_new : ∀ c ∈ new, c.status = .kept := by rwa [← stored_eq]
  have oldCount := length_original_kept kept_new
  rw [width, stored_eq] at stop
  rw [oldWidth, stored_eq] at oldStop
  constructor
  · intro j t c spot current low high
    rcases spot.cases with own | ⟨j', t', own, rfl, rfl⟩ | ⟨j', t', own, rfl, rfl⟩
    · have := own.lt current
      omega
    · obtain rfl := spot_kept kept_new own
      omega
    · omega
  · intro j t c spot kept low high
    rcases spot.cases with own | ⟨j', t', own, rfl, rfl⟩ | ⟨j', t', own, rfl, rfl⟩
    · have := own.lt_of_kept kept
      omega
    · obtain rfl := spot_kept kept_new own
      omega
    · omega

/-- A node gets other cells, all kept, and what they read as takes its place. -/
theorem AllMatch.renewed {g : Frame} {old : Weave} {mid new : List Cell}
    (ahead : p + currentCount (left (g :: gs)) = currentCount before)
    (old_ahead : q + (original (left (g :: gs))).length = (original before).length)
    (count : old.room = currentCount mid) (old_count : oldWidth [old] = (original mid).length)
    (some : 0 < currentCount mid) (some_new : 0 < currentCount new) (kept : Kept ws)
    (stored_eq : stored ws = new)
    (all : AllMatch (before ++ (mid ++ behind)) p q (wrap (g :: gs) old)) :
    AllMatch (before ++ (new ++ behind)) p q (wrap gs (g.fill ws)) := by
  have kept_new : ∀ c ∈ new, c.status = .kept := by rwa [← stored_eq]
  have new_count : width ws = currentCount new := by rw [width, stored_eq]
  have new_old_count : oldWidth ws = currentCount new := by rw [kept.oldWidth_eq, new_count]
  have count' : width [old] = currentCount mid := by rw [width_cons, width_nil, Nat.add_zero, count]
  rw [left, currentCount_append] at ahead
  rw [left, original_append, List.length_append] at old_ahead
  have before_count : currentCount (stored g.before) = width g.before := rfl
  have before_oldCount : (original (stored g.before)).length = oldWidth g.before := rfl
  have step {x x' : Place} (known : Matches (before ++ (mid ++ behind)) x)
      (moved : x.Renewed (currentCount before) (currentCount mid) (original before).length
        (original mid).length (currentCount new) x') := known.renewed some kept_new some_new moved
  refine places_wrap gs rfl rfl ?_ ?_ ?_ ?_ (show ∀ x ∈ (placesOf p q (wrap gs
    (.node g.kind (g.before ++ [old] ++ g.after)))).tail,
    Matches (before ++ (mid ++ behind)) x from all)
  · intro x stop old_stop known
    exact step known (.inl ⟨rfl, rfl, by omega, rfl, rfl, by omega⟩)
  · intro _ x known
    refine step known (.inr (.inl ⟨?_, rfl, ?_, ?_, rfl, ?_⟩))
    all_goals simp only [Place.shift, width_append, oldWidth_append, count', old_count, new_count,
      new_old_count]
    all_goals omega
  · intro _ first old n m n' m' first_eq old_eq known
    refine step known (.inr (.inr ⟨rfl, ?_, ?_, ?_, rfl, ?_, ?_, ?_⟩))
    all_goals simp only [width_append, oldWidth_append, count', old_count, new_count, new_old_count]
    all_goals omega
  · intro known x mem
    rw [placesAt_append, placesAt_append, List.mem_append, List.mem_append, width_append,
      oldWidth_append, new_count, new_old_count] at mem
    rw [placesAt_append, placesAt_append, width_append, oldWidth_append, count', old_count] at known
    rcases mem with (before_mem | own) | after
    · obtain ⟨-, stop, -, old_stop⟩ := placesAt_within before_mem
      exact step (known x (by simp [before_mem])) (.inl ⟨rfl, rfl, by omega, rfl, rfl, by omega⟩)
    · refine matches_renewed kept stored_eq ?_
      rwa [← ahead, ← old_ahead, ← Nat.add_assoc, ← Nat.add_assoc]
    · obtain ⟨y, listed, rfl⟩ := mem_placesAt_start.mp after
      refine step (known _ (List.mem_append_right _ (mem_placesAt_start.mpr ⟨y, listed, rfl⟩)))
        (.inr (.inl ⟨?_, rfl, ?_, ?_, rfl, ?_⟩))
      all_goals simp only [Place.shift]
      all_goals omega

end FormEdit.Weave
