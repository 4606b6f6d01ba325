import FormEdit.Proofs.Grammar.Dropping
import FormEdit.Proofs.Weave.Renewal
import Mathlib.Data.List.Induction

/-!
# Typing back what was deleted

A character is deleted from one node of a text and typed into another one at the same place: into a
node around the first, into a node in it, or into a node right behind it. If the text does not read
in between, and the node typed into, or one around it, reads on its own afterwards, then the whole
text has its old form (`reads_retyped`). For a node that does not hold the place of the character
starts right behind it, and what reads with that character and without it does not depend on it.
-/

namespace FormEdit.Weave

open Buffer Lexer FormEdit.Language

variable {kind kind' : Kind} {us vs us' vs' : List Weave} {position : Nat}
  {gs gs₁ gs₂ hs : List Frame}
  {f : Form} {w : Weave} {c : Cell}

theorem left_append (fs gs : List Frame) : left (fs ++ gs) = left gs ++ left fs := by
  induction fs with
  | nil => simp [left]
  | cons f fs ih => simp [left, ih]

theorem right_append (fs gs : List Frame) : right (fs ++ gs) = right fs ++ right gs := by
  induction fs with
  | nil => rfl
  | cons f fs ih => simp [right, ih]

theorem wrap_concat (fs : List Frame) (g : Frame) (w : Weave) :
    wrap (fs ++ [g]) w = g.fill [wrap fs w] :=
  wrap_append fs [g] w

/-- Two weaves in one list of parts are the same one, or one stands ahead of the other. -/
theorem parts_cases {as bs as' bs' : List Weave} {v v' : Weave}
    (same : as ++ v :: bs = as' ++ v' :: bs') :
    (as = as' ∧ v = v' ∧ bs = bs') ∨ (∃ mid, as' = as ++ v :: mid ∧ bs = mid ++ v' :: bs') ∨
      ∃ mid, as = as' ++ v' :: mid ∧ bs' = mid ++ v :: bs := by
  rcases append_cases same with ⟨mid, ahead, behind⟩ | ⟨rest, ahead, rest_eq⟩
  · exact .inr (.inr ⟨mid, ahead, behind⟩)
  · cases rest with
    | nil =>
      cases rest_eq
      exact .inl ⟨by simpa using ahead.symm, rfl, rfl⟩
    | cons r rest =>
      cases rest_eq
      exact .inr (.inl ⟨rest, ahead, rfl⟩)

/-- A hole ends the room of a weave: what is put into it is stored last. -/
theorem cells_wrap_last (none : stored vs = []) (none' : right hs = []) (cs : List Cell) :
    (wrap hs (.node kind (us ++ cs.map cell ++ vs))).cells =
      (wrap hs (.node kind (us ++ vs))).cells ++ cs := by
  simp [cells_wrap, none, none']

/-- With a cell in the hole of another node, that cell is stored right ahead of a node. -/
def Touches (c : Cell) (hs : List Frame) (kind : Kind) (us vs : List Weave) (gs : List Frame)
    (w : Weave) :
    Prop :=
  (left hs).length + (stored us).length = (left gs).length ∧
    ∃ gs', wrap gs' w = wrap hs (.node kind (us ++ [c].map cell ++ vs)) ∧
      left gs' = left gs ++ [c] ∧ right gs' = right gs

/-- The hole is among the parts that the node stands in. -/
theorem touches_part {g : Frame} {mid : List Weave} (ahead : g.before = us ++ mid)
    (none : stored mid = []) (none' : left gs = []) :
    Touches c [] g.kind us (mid ++ wrap gs w :: g.after) (gs ++ [g]) w := by
  refine ⟨?_, gs ++ [⟨g.kind, us ++ [c].map cell ++ mid, g.after⟩], ?_, ?_, ?_⟩
  · simp [left_append, left, none, none', ahead]
  · rw [wrap_concat]
    simp [Frame.fill, wrap]
  · simp [left_append, left, none, none', ahead]
  · simp [right_append, right]

/-- The hole ends a part that stands ahead of the node. -/
theorem touches_sibling {g h : Frame} {mid : List Weave}
    (ahead : g.before = h.before ++ wrap hs (.node kind (us ++ vs)) :: mid)
    (behind : h.after = mid ++ wrap gs w :: g.after) (same_kind : g.kind = h.kind)
    (none : stored mid = []) (none_left : left gs = []) (none_vs : stored vs = [])
    (none_right : right hs = []) :
    Touches c (hs ++ [h]) kind us vs (gs ++ [g]) w := by
  have now_cells : (wrap hs (.node kind (us ++ [c].map cell ++ vs))).cells =
      (wrap hs (.node kind (us ++ vs))).cells ++ [c] := cells_wrap_last none_vs none_right [c]
  rw [Touches, wrap_concat hs h]
  generalize wrap hs (.node kind (us ++ [c].map cell ++ vs)) = now at now_cells ⊢
  refine ⟨?_, gs ++ [⟨g.kind, h.before ++ now :: mid, g.after⟩], ?_, ?_, ?_⟩
  · simp only [left_append, left, List.nil_append, List.length_append, ahead, stored_append,
      stored_cons, cells_wrap, cells_node, none, none_left, none_vs, none_right, List.length_nil]
    omega
  · rw [wrap_concat]
    simp [Frame.fill, behind, same_kind]
  · simp [left_append, left, ahead, none, none_left, now_cells]
  · simp [right_append, right]

/-- Hole and node are in the same part. -/
theorem Touches.fill (touches : Touches c hs kind us vs gs w) (g : Frame) :
    Touches c (hs ++ [g]) kind us vs (gs ++ [g]) w := by
  obtain ⟨place, gs', wrapped, ahead, behind⟩ := touches
  refine ⟨?_, gs' ++ [g], ?_, ?_, ?_⟩
  · simp [left_append, left, place, Nat.add_assoc]
  · rw [wrap_concat, wrap_concat, wrapped]
  · simp [left_append, ahead]
  · simp [right_append, behind]

/-- Of a node with a hole and a node whose room reaches over that hole, the second contains the
first, or it starts at the hole. -/
theorem hole_cases (c : Cell) (same : wrap gs w = wrap hs (.node kind (us ++ vs)))
    (after : (left gs).length ≤ (left hs).length + (stored us).length)
    (before : (left hs).length + (stored us).length < (left gs).length + w.cells.length) :
    (∃ is, hs = is ++ gs ∧ w = wrap is (.node kind (us ++ vs))) ∨ Touches c hs kind us vs gs w := by
  induction gs using List.reverseRecOn generalizing hs with
  | nil => exact .inl ⟨hs, by simp, same⟩
  | append_singleton gs g ih =>
    rw [wrap_concat, Frame.fill, List.append_assoc, List.singleton_append] at same
    simp only [left_append, left, List.nil_append, List.length_append] at after before
    have room : (wrap gs w).cells.length =
        (left gs).length + w.cells.length + (right gs).length := by
      simp [cells_wrap, Nat.add_assoc]
    -- The hole is in the node of the outermost frame, or further in.
    rcases List.eq_nil_or_concat hs with rfl | ⟨hs, h, rfl⟩
    · obtain ⟨rfl, parts⟩ := node.inj same
      simp only [left, List.length_nil, Nat.zero_add] at after before
      rcases append_cases parts.symm with ⟨rest, rfl, -⟩ | ⟨mid, ahead, rfl⟩
      · simp only [stored_append, stored_cons, List.length_append, room] at before
        omega
      · rw [ahead, stored_append, List.length_append] at after
        have none : stored mid = [] := List.eq_nil_of_length_eq_zero (by omega)
        have none' : left gs = [] := List.eq_nil_of_length_eq_zero (by omega)
        exact .inr (touches_part ahead none none')
    · rw [List.concat_eq_append] at *
      rw [wrap_concat, Frame.fill, List.append_assoc, List.singleton_append] at same
      obtain ⟨same_kind, parts⟩ := node.inj same
      have inner : (wrap hs (.node kind (us ++ vs))).cells.length =
          (left hs).length + (stored us).length + ((stored vs).length + (right hs).length) := by
        simp [cells_wrap, Nat.add_assoc]
      simp only [left_append, left, List.nil_append, List.length_append] at after before
      rcases parts_cases parts with
        ⟨same_before, same_inner, same_after⟩ | ⟨mid, late, -⟩ | ⟨mid, early, behind⟩
      · rw [same_before] at after before
        obtain rfl : g = h := by
          cases g
          cases h
          simp_all
        rcases ih same_inner (by omega) (by omega) with ⟨is, rfl, w_eq⟩ | touches
        · exact .inl ⟨is, List.append_assoc _ _ _, w_eq⟩
        · exact .inr (touches.fill g)
      · rw [late] at before
        simp only [stored_append, stored_cons, List.length_append, room] at before
        omega
      · rw [early] at after
        simp only [stored_append, stored_cons, List.length_append, inner] at after
        have none : stored mid = [] := List.eq_nil_of_length_eq_zero (by omega)
        have none_left : left gs = [] := List.eq_nil_of_length_eq_zero (by omega)
        have none_vs : stored vs = [] := List.eq_nil_of_length_eq_zero (by omega)
        have none_right : right hs = [] := List.eq_nil_of_length_eq_zero (by omega)
        exact .inr (touches_sibling early behind same_kind none none_left none_vs none_right)

/-- A node of a good weave of kept cells reads on its own as it does in its place. -/
theorem reads_in_place (position : Nat) (is_node : ∃ k ps, w = .node k ps)
    (good : Good false (wrap gs w)) (kept : Kept [wrap gs w]) :
    ∃ f, f.span.start = position + currentCount (left gs) ∧
      Reads f.span.start (spelling [w]) f ∧
      Reads position (spelling [wrap gs w]) (Rose.plug (tagsAt position gs w.room) f) := by
  obtain ⟨k, ps, w_eq⟩ := is_node
  obtain ⟨f, form⟩ : ∃ f, formsOf (position + currentCount (left gs)) w = [f] := by
    rw [w_eq, formsOf_node]
    exact ⟨_, rfl⟩
  have start : f.span.start = position + currentCount (left gs) :=
    (nests w _ f (by rw [form]; exact List.mem_singleton_self f)).2.1
  have whole : formsAt position (plug gs [w]) = _ := formsAt_plug (by rwa [formsAt_singleton])
  rw [plug_singleton, formsAt_singleton, width_cons, width_nil, Nat.add_zero] at whole
  have inner : Reads f.span.start ([] ++ spelling [w] ++ []) f :=
    reads_of_weave (by simp) (by simp) (kept_wrap.mp kept).2.1 (good.hole kept)
      (by simpa [start] using form)
  have outer : Reads position ([] ++ spelling [wrap gs w] ++ []) _ :=
    reads_of_weave (by simp) (by simp) kept good (by simpa using whole)
  rw [List.nil_append, List.append_nil] at inner outer
  exact ⟨f, start, inner, outer⟩

/-- A node with the characters of one in a good weave has its form, in its place too. -/
theorem reads_alike {v : Weave} (is_node : ∃ k ps, w = .node k ps) (good : Good false (wrap gs w))
    (kept : Kept [wrap gs w]) (cells_eq : v.cells = w.cells)
    (reads : Reads (position + currentCount (left gs)) (spelling [v]) f)
    (fits : position + (wrap gs w).cells.length < positionLimit)
    (plain : ';' ∉ spelling [wrap gs w]) :
    Reads position (spelling [wrap gs v]) (Rose.plug (tagsAt position gs v.room) f) := by
  obtain ⟨g, start, inner, outer⟩ := reads_in_place position is_node good kept
  have spelled : spelling [v] = spelling [w] := by
    simp only [spelling, stored_cons, stored_nil, cells_eq]
  have spelled_whole : spelling [wrap gs v] = spelling [wrap gs w] := by
    rw [spelling_wrap, spelling_wrap, spelled]
  have counted := currentCount_left kept
  have length_w : (spelling [w]).length = w.cells.length := by simp [spelling]
  rw [cells_wrap, List.length_append, List.length_append] at fits
  rw [spelling_wrap] at plain
  have plain_inner : ';' ∉ spelling [w] :=
    fun mem => plain (List.mem_append_left _ (List.mem_append_right _ mem))
  rw [spelled, ← start] at reads
  have unique : f = g := reads.unique inner (by omega) plain_inner
  rw [spelled_whole, room, cells_eq, unique]
  exact outer

/-- A good weave can do without a cell if the node right behind it reads with that cell as well. -/
theorem exists_reads_without {gs' : List Frame} (is_node : ∃ k ps, w = .node k ps)
    (good : Good false (wrap gs' w)) (kept : Kept [wrap gs' w]) (ahead : left gs' = left gs ++ [c])
    (behind : right gs' = right gs)
    (reads : Reads (position + currentCount (left gs)) (c.char :: spelling [w]) f)
    (fits : position + (wrap gs' w).cells.length < positionLimit)
    (plain : ';' ∉ spelling [wrap gs' w]) :
    ∃ g, Reads position (spelling [wrap gs w]) g := by
  obtain ⟨g, start, inner, outer⟩ := reads_in_place position is_node good kept
  have counted : currentCount (left gs') = (left gs).length + 1 := by
    rw [currentCount_left kept, ahead, List.length_append, List.length_singleton]
  have fewer : currentCount (left gs) ≤ (left gs).length := List.countP_le_length
  have length_w : (spelling [w]).length = w.cells.length := by simp [spelling]
  rw [cells_wrap, ahead, behind] at fits
  simp only [List.length_append, List.length_singleton] at fits
  rw [spelling_wrap, ahead, behind, List.map_append, List.map_singleton, List.append_assoc,
    List.append_assoc, List.singleton_append] at outer plain
  obtain ⟨h, dropped⟩ := outer.drop_ahead (by rw [List.length_map]; omega) inner reads
    (by simp only [List.length_cons, length_w]; omega) plain
  exact ⟨h, by rw [spelling_wrap]; simpa using dropped⟩

/-- The cells of a node with a hole. -/
theorem cells_hole (gs : List Frame) (kind : Kind) (us vs : List Weave) (cs : List Cell) :
    (wrap gs (.node kind (us ++ cs.map cell ++ vs))).cells =
      (left gs ++ stored us) ++ (cs ++ (stored vs ++ right gs)) := by
  simp [cells_wrap]

/-- A deleted character is typed again, into a node around its place or right behind it: if the node
reads on its own, the text has its old form, unless it read without the character. -/
theorem reads_retyped (good : Good false (wrap hs (.node kind (us ++ [c].map cell ++ vs))))
    (kept : Kept [wrap hs (.node kind (us ++ [c].map cell ++ vs))])
    (same : wrap (gs₁ ++ gs₂) (.node kind' (us' ++ vs')) = wrap hs (.node kind (us ++ vs)))
    (place : (left hs).length + (stored us).length =
      (left (gs₁ ++ gs₂)).length + (stored us').length)
    (before : (left hs).length + (stored us).length <
      (left gs₂).length + (wrap gs₁ (.node kind' (us' ++ vs'))).cells.length)
    (reads : Reads (position + currentCount (left gs₂))
      (spelling [wrap gs₁ (.node kind' (us' ++ [c].map cell ++ vs'))]) f)
    (fails : ∀ g, ¬Reads position (spelling [wrap hs (.node kind (us ++ vs))]) g)
    (fits : position + (wrap hs (.node kind (us ++ [c].map cell ++ vs))).cells.length <
      positionLimit)
    (plain : ';' ∉ spelling [wrap hs (.node kind (us ++ [c].map cell ++ vs))]) :
    Reads position (spelling [wrap (gs₁ ++ gs₂) (.node kind' (us' ++ [c].map cell ++ vs'))])
      (Rose.plug (tagsAt position gs₂ (wrap gs₁ (.node kind' (us' ++ [c].map cell ++ vs'))).room)
        f) := by
  rw [wrap_append] at same ⊢
  rw [left_append, List.length_append] at place
  have old_cells := cells_hole gs₁ kind' us' vs' []
  have new_cells := cells_hole gs₁ kind' us' vs' [c]
  have is_node := wrap_node gs₁ kind' (us' ++ vs')
  simp only [List.map_nil, List.append_nil, List.nil_append] at old_cells
  generalize wrap gs₁ (.node kind' (us' ++ vs')) = v at *
  generalize wrap gs₁ (.node kind' (us' ++ [c].map cell ++ vs')) = v' at *
  rcases hole_cases c same (by omega) before with
    ⟨is, rfl, rfl⟩ | ⟨touches, gs', wrapped, ahead, behind⟩
  · -- The node holds the place of the character, so it is the old one again.
    rw [left_append, List.length_append] at place
    have is_cells := cells_hole is kind us vs []
    simp only [List.map_nil, List.append_nil, List.nil_append] at is_cells
    obtain ⟨ahead, behind⟩ := List.append_inj (old_cells.symm.trans is_cells) (by
      rw [List.length_append, List.length_append]
      omega)
    have cells_eq : v'.cells = (wrap is (.node kind (us ++ [c].map cell ++ vs))).cells := by
      rw [new_cells, cells_hole, ahead, behind]
    rw [wrap_append] at good kept fits plain
    exact reads_alike (wrap_node is _ _) good kept cells_eq reads fits plain
  · -- The node starts right behind the character, and the text could do without it.
    have none : left gs₁ = [] ∧ stored us' = [] :=
      ⟨List.eq_nil_of_length_eq_zero (by omega), List.eq_nil_of_length_eq_zero (by omega)⟩
    have spelled : spelling [v'] = c.char :: spelling [v] := by
      simp [spelling, new_cells, old_cells, none]
    rw [← wrapped] at good kept fits plain
    rw [spelled] at reads
    obtain ⟨g, without⟩ := exists_reads_without is_node good kept ahead behind reads fits plain
    rw [same] at without
    exact absurd without (fails g)

end FormEdit.Weave
