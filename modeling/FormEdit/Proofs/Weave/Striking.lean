import FormEdit.Proofs.Weave.Carrying

/-!
# A stroke in one node

A typed character becomes an inserted cell of its node. If characters are lost at its position, it
comes to stand on one side of all of them, and no longer next to marks that children on the other
side may have: then the node itself is marked and its children are stripped of their marks.

A deleted character becomes a mark, unless it was typed: then it is gone.
-/

namespace FormEdit.Weave

open Buffer

variable {lost lost' : Nat → Prop} {kind : Kind} {us vs : List Weave} {start position : Nat}

/-! ## Fronts -/

/-- The first of the parts that is not typed, if it is a cell. -/
def frontOf (parts : List Weave) : Option Cell :=
  match parts.dropWhile isTyped with
  | .cell c :: _ => some c
  | _ => none

theorem front_node (kind : Kind) (parts : List Weave) :
    (node kind parts).front = frontOf parts := rfl

theorem frontOf_append (us ws : List Weave) :
    frontOf (us ++ ws) = if (us.dropWhile isTyped).isEmpty then frontOf ws else frontOf us := by
  cases rest : us.dropWhile isTyped with
  | nil => simp [frontOf, List.dropWhile_append, rest]
  | cons w ws =>
    cases w with
    | cell c => simp [frontOf, List.dropWhile_append, rest]
    | node k ps => simp [frontOf, List.dropWhile_append, rest]

/-- A typed character does not show in the front. -/
theorem frontOf_typed (c : Char) :
    frontOf (us ++ .cell ⟨c, .inserted⟩ :: vs) = frontOf (us ++ vs) := by
  rw [frontOf_append, frontOf_append]
  rfl

/-- Whatever can stand ahead of a node still can when it loses a kept character. -/
theorem admits_lost {c : Char} {gap : Gap}
    (admitted : gap.admits (frontOf (us ++ .cell ⟨c, .kept⟩ :: vs)) = true) :
    gap.admits (frontOf (us ++ .cell ⟨c, .deleted⟩ :: vs)) = true := by
  rw [frontOf_append] at admitted ⊢
  split at admitted
  · rename_i typed
    rw [if_pos typed]
    cases gap with
    | free => rfl
    | touching last => rfl
    | blocked => cases admitted
  · rename_i solid
    rwa [if_neg solid]

theorem admits_mark {front : Option Cell} {gap : Gap} (ws : List Weave)
    (admitted : gap.admits front = true) : gap.admits (frontOf (mark :: ws)) = true := by
  cases gap with
  | free => rfl
  | touching last => rfl
  | blocked => cases front <;> cases admitted

/-! ## Without marks -/

/-- A weave with the same form and the same current cells, and without marks. -/
def Stripped (w w' : Weave) : Prop :=
  (∀ p, formsOf p w' = formsOf p w) ∧ w'.cells = live w.cells

/-- Weaves with the same forms and the same current cells, and without marks. -/
structure StrippedEach (ws ws' : List Weave) : Prop where
  forms : ∀ p, formsAt p ws' = formsAt p ws
  cells : stored ws' = live (stored ws)

namespace StrippedEach

variable {ws ws' : List Weave}

theorem unmarked (stripped : StrippedEach ws ws') : Unmarked ws' := by
  intro c mem
  rw [stripped.cells] at mem
  exact current_of_mem_live mem

theorem width_eq (stripped : StrippedEach ws ws') : width ws' = width ws := by
  rw [width, stripped.cells, currentCount_live, width]

theorem endsWith {last : Char} (stripped : StrippedEach ws ws') (ends : EndsWith (stored ws) last) :
    EndsWith (stored ws') last := by
  rw [stripped.cells]
  obtain ⟨rest, rest_eq⟩ := List.getLast?_eq_some_iff.mp ends
  rw [rest_eq, live_append]
  simp [EndsWith, live, Cell.isCurrent]

end StrippedEach

theorem exists_strippedEach {ws : List Weave}
    (each : ∀ k ps, .node k ps ∈ ws → ∃ w', Stripped (.node k ps) w') :
    ∃ ws', StrippedEach ws ws' := by
  induction ws with
  | nil => exact ⟨[], fun _ => rfl, rfl⟩
  | cons w ws ih =>
    obtain ⟨ws', forms, cells⟩ := ih fun k ps mem => each k ps (by simp [mem])
    cases w with
    | node k ps =>
      obtain ⟨w', forms_w, cells_w⟩ := each k ps (by simp)
      refine ⟨w' :: ws', fun p => ?_, by rw [stored_cons, stored_cons, live_append, cells, cells_w]⟩
      have same_room : w'.room = (node k ps).room := by rw [room, cells_w, currentCount_live, room]
      rw [formsAt_cons, formsAt_cons, forms_w, forms, same_room]
    | cell c =>
      cases current : c.isCurrent with
      | true =>
        refine ⟨.cell c :: ws', fun p => by rw [formsAt_cons, formsAt_cons, forms], ?_⟩
        rw [stored_cons, stored_cons, cells_cell, live_append, cells]
        simp [live, current]
      | false =>
        have no_room : (cell c).room = 0 := by simp [room, current]
        refine ⟨ws', fun p => by rw [formsAt_cons, formsOf_cell, no_room, forms]; rfl, ?_⟩
        rw [stored_cons, cells_cell, live_append, cells]
        simp [live, current]

theorem exists_stripped (w : Weave) : ∀ k ps, w = .node k ps → ∃ w', Stripped w w' := by
  induction w using Weave.induction with
  | cell c => rintro k ps ⟨⟩
  | node kind parts ih =>
    rintro _ _ -
    obtain ⟨ws', stripped⟩ := exists_strippedEach fun k ps mem => ih _ mem k ps rfl
    refine ⟨.node kind ws', fun p => ?_, by rw [cells_node, cells_node, stripped.cells]⟩
    rw [formsOf_node, formsOf_node, stripped.forms, stripped.width_eq]

theorem exists_strippedParts (ws : List Weave) : ∃ ws', StrippedEach ws ws' :=
  exists_strippedEach fun k ps _ => exists_stripped (.node k ps) k ps rfl

/-! ## Typing -/

/-- The marks of a node when a character is typed where nothing is lost. -/
theorem Backed.type (c : Char) (seam : start + width us = position) (here : ¬lost position)
    (low : ∀ x, lost x → x < position → lost' x)
    (high : ∀ x, lost x → position < x → lost' (x + 1))
    (backed : Backed lost start (.node kind (us ++ vs))) :
    Backed lost' start (.node kind (us ++ .cell ⟨c, .inserted⟩ :: vs)) := by
  have one : width [.cell ⟨c, .inserted⟩] = 1 := rfl
  have away {x : Nat} (is_lost : lost x) : x ≠ position := by
    rintro rfl
    exact here is_lost
  have unmarked : ¬Marked [.cell ⟨c, .inserted⟩] := by
    rintro ⟨d, mem⟩
    rw [List.mem_singleton, cell.injEq] at mem
    cases mem
  have around : Backed lost start (Frame.fill ⟨kind, us, vs⟩ []) := by
    simpa [Frame.fill] using backed
  have filled : Backed lost' start (Frame.fill ⟨kind, us, vs⟩ [.cell ⟨c, .inserted⟩]) := by
    refine around.fill seam.symm ?_ ?_ ?_ (fun marked => absurd marked unmarked)
      (backedEach_cons.mpr ⟨backed_cell _, backedEach_nil⟩)
    · intro x is_lost _
      simp only [width_nil]
      omega
    · intro x near is_lost
      have apart := away is_lost
      exact low x is_lost (by omega)
    · intro x y late along is_lost
      have apart := away is_lost
      rw [width_nil] at late along
      have next : y = x + 1 := by omega
      rw [next]
      exact high x is_lost (by omega)
  simpa [Frame.fill] using filled

/-- A character can be typed where nothing is lost and no child contains the position. -/
theorem Shape.typeOutside {loose : Bool} (c : Char) (seam : start + width us = position)
    (here : ¬lost position)
    (outside : ∀ f ∈ formsAt start (us ++ vs), (Form.span f).contains position = false)
    (backed : Backed lost start (.node kind (us ++ vs))) (each : ∀ w ∈ us ++ vs, Good false w)
    (shape : Shape loose kind (us ++ vs)) :
    Shape loose kind (us ++ .cell ⟨c, .inserted⟩ :: vs) := by
  cases vs with
  | nil => simpa using shape.typeLast (c := c)
  | cons v vs =>
    cases v with
    | cell d => exact shape.type (shape.isCurrent (by simp))
    | node k ps =>
      -- A child that starts here contains the position, or is marked by a loss here.
      exfalso
      have empty : (node k ps).room = 0 := by
        have passed := node_passed (Nat.le_refl position)
          fun f (mem : f ∈ formsOf position (.node k ps)) => outside f (by
            rw [formsAt_append, formsAt_cons, seam]
            simp [mem])
        omega
      have child := backedEach_iff.mp (backed_node.mp backed).2 us (.node k ps) vs rfl
      rw [seam] at child
      exact here ((each _ (by simp)).lost_of_empty child empty)

/-- Away from all losses a typed character is one more cell. -/
theorem turns_typed (c : Char) (seam : start + width us = position) (here : ¬lost position)
    (outside : ∀ f ∈ formsAt start (us ++ vs), (Form.span f).contains position = false)
    (low : ∀ x, lost x → x < position → lost' x)
    (high : ∀ x, lost x → position < x → lost' (x + 1)) :
    Turns lost lost' start (.node kind (us ++ vs))
      (.node kind (us ++ .cell ⟨c, .inserted⟩ :: vs)) := by
  refine ⟨⟨_, _, rfl⟩, ?_, fun backed => backed.type c seam here low high, ?_⟩
  · intro gap admitted
    rw [front_node] at admitted ⊢
    rwa [frontOf_typed]
  · intro loose backed good
    cases good with
    | @changed _ _ _ d marked =>
      refine .changed (c := d) ?_
      simp only [List.mem_append, List.mem_cons] at marked ⊢
      tauto
    | shaped shape each =>
      refine .shaped (shape.typeOutside c seam here outside backed each) ?_
      intro w mem
      simp only [List.mem_append, List.mem_cons] at mem
      rcases mem with mem | rfl | mem
      · exact each w (by simp [mem])
      · exact .cell
      · exact each w (by simp [mem])

/-- The node of a typed character with a mark of its own looks the same when its other parts are
stripped of theirs. -/
theorem looks_marked (c : Char) {us' vs' : List Weave} (us_stripped : StrippedEach us us')
    (vs_stripped : StrippedEach vs vs') :
    Looks (.node kind (mark :: (us' ++ .cell ⟨c, .inserted⟩ :: vs')))
      (.node kind (us ++ .cell ⟨c, .inserted⟩ :: vs)) := by
  have mark_live : live mark.cells = [] := rfl
  have mark_room : mark.room = 0 := rfl
  have cells_eq : live (stored (mark :: (us' ++ .cell ⟨c, .inserted⟩ :: vs'))) =
      live (stored (us ++ .cell ⟨c, .inserted⟩ :: vs)) := by
    simp only [stored_cons, stored_append, live_append, mark_live, us_stripped.cells,
      vs_stripped.cells, live_live, List.nil_append]
  have width_eq : width (mark :: (us' ++ .cell ⟨c, .inserted⟩ :: vs')) =
      width (us ++ .cell ⟨c, .inserted⟩ :: vs) := by
    rw [width, ← currentCount_live, cells_eq, currentCount_live, width]
  refine ⟨fun p => ?_, by rw [cells_node, cells_node, cells_eq]⟩
  have mark_forms : formsOf p mark = [] := formsOf_cell p _
  rw [formsOf_node, formsOf_node, width_eq, formsAt_cons, mark_forms, mark_room, formsAt_append,
    formsAt_append, formsAt_cons, formsAt_cons, us_stripped.forms, vs_stripped.forms,
    us_stripped.width_eq]
  rfl

/-- Where something is lost, the node of a typed character is marked. -/
theorem exists_turns_marked (c : Char)
    (edge : ∃ x, lost' x ∧ Among x start (us ++ .cell ⟨c, .inserted⟩ :: vs)) :
    ∃ v', Looks v' (.node kind (us ++ .cell ⟨c, .inserted⟩ :: vs)) ∧
      Turns lost lost' start (.node kind (us ++ vs)) v' ∧
      (0 < width vs → ∀ last, EndsWith (node kind (us ++ vs)).cells last →
        EndsWith v'.cells last) := by
  obtain ⟨us', us_stripped⟩ := exists_strippedParts us
  obtain ⟨vs', vs_stripped⟩ := exists_strippedParts vs
  have looks : Looks (.node kind (mark :: (us' ++ .cell ⟨c, .inserted⟩ :: vs')))
      (.node kind (us ++ .cell ⟨c, .inserted⟩ :: vs)) := looks_marked c us_stripped vs_stripped
  have width_eq := looks.room
  rw [room_node, room_node] at width_eq
  have forms_eq : formsAt start (mark :: (us' ++ .cell ⟨c, .inserted⟩ :: vs')) =
      formsAt start (us ++ .cell ⟨c, .inserted⟩ :: vs) := by
    have same := looks.forms start
    rw [formsOf_node, formsOf_node, List.cons.injEq, Rose.node.injEq] at same
    exact same.1.2
  refine ⟨_, looks, ⟨⟨_, _, rfl⟩, ?_, ?_, ?_⟩, ?_⟩
  · intro gap admitted
    exact admits_mark (us' ++ .cell ⟨c, .inserted⟩ :: vs') admitted
  · intro _
    obtain ⟨x, is_lost, low, high, outside⟩ := edge
    refine backed_node.mpr ⟨fun _ => ⟨x, is_lost, low, by rwa [width_eq], by rwa [forms_eq]⟩, ?_⟩
    refine backedEach_cons.mpr ⟨backed_cell _, backedEach_append.mpr ⟨?_, backedEach_cons.mpr
      ⟨backed_cell _, ?_⟩⟩⟩
    · exact backedEach_of_unmarked us_stripped.unmarked
    · exact backedEach_of_unmarked vs_stripped.unmarked
  · intro loose _ _
    exact .changed (c := ' ') (by simp [mark])
  · intro positive last ends
    rw [cells_node, stored_append, endsWith_append (stored_ne_nil positive)] at ends
    have positive' : 0 < width vs' := by rwa [vs_stripped.width_eq]
    rw [cells_node, stored_cons, stored_append, stored_cons, endsWith_append (by simp),
      endsWith_append (by simp), endsWith_append (stored_ne_nil positive')]
    exact vs_stripped.endsWith ends

/-- What is lost at the start of a node or right behind a character typed in it is lost in the node
itself and not in a child. -/
theorem among_typed (c : Char) (seam : start + width us = position) :
    Among (if start = position then position else position + 1) start
      (us ++ .cell ⟨c, .inserted⟩ :: vs) := by
  have one : (cell ⟨c, .inserted⟩).room = 1 := rfl
  by_cases at_start : start = position
  · rw [if_pos at_start]
    refine ⟨by omega, by omega, fun f mem => .inl ?_⟩
    have behind := (formsAt_inside mem).2.1
    omega
  · rw [if_neg at_start]
    refine ⟨by omega, ?_, fun f mem => ?_⟩
    · simp only [width_append, width_cons, one]
      omega
    · rw [formsAt_append, formsAt_cons, formsOf_cell, one, List.nil_append, List.mem_append] at mem
      rcases mem with mem | mem
      · have ahead := (formsAt_inside mem).2.2
        exact .inr (by omega)
      · have behind := (formsAt_inside mem).2.1
        exact .inl (by omega)

/-- A typed character in its node. -/
theorem exists_typed (kind : Kind) (c : Char) (seam : start + width us = position)
    (outside : ∀ f ∈ formsAt start (us ++ vs), (Form.span f).contains position = false)
    (low : ∀ x, lost x → x < position → lost' x)
    (high : ∀ x, lost x → position < x → lost' (x + 1))
    (here : lost position → if start = position then lost' position else lost' (position + 1)) :
    ∃ v', Looks v' (.node kind (us ++ .cell ⟨c, .inserted⟩ :: vs)) ∧
      Turns lost lost' start (.node kind (us ++ vs)) v' ∧
      (0 < width vs → Carries lost lost' start (.node kind (us ++ vs)) v') := by
  have typed_room : (cell ⟨c, .inserted⟩).room = 1 := rfl
  have carries {v' : Weave} (looks : Looks v' (.node kind (us ++ .cell ⟨c, .inserted⟩ :: vs)))
      (turns : Turns lost lost' start (.node kind (us ++ vs)) v') (positive : 0 < width vs)
      (tail : ∀ last, EndsWith (node kind (us ++ vs)).cells last → EndsWith v'.cells last) :
      Carries lost lost' start (.node kind (us ++ vs)) v' := by
    refine ⟨turns, ⟨_, _, rfl⟩, ?_, ?_, ?_, .inl tail⟩
    · rw [cells_node, stored_append]
      exact List.append_ne_nil_of_right_ne_nil _ (stored_ne_nil positive)
    · intro x near is_lost
      by_cases before : x < position
      · exact low x is_lost before
      · have at_start : start = position := by omega
        have x_eq : x = position := by omega
        rw [x_eq] at is_lost ⊢
        simpa [at_start] using here is_lost
    · intro x y late along is_lost
      rw [looks.room] at along
      simp only [room_node, width_append, width_cons, typed_room] at late along
      have next : y = x + 1 := by omega
      rw [next]
      exact high x is_lost (by omega)
  by_cases lost_here : lost position
  · have is_lost : lost' (if start = position then position else position + 1) := by
      rw [apply_ite lost']
      exact here lost_here
    obtain ⟨v', looks, turns, tail⟩ := exists_turns_marked c ⟨_, is_lost, among_typed c seam⟩
    exact ⟨v', looks, turns, fun positive => carries looks turns positive (tail positive)⟩
  · have turns : Turns lost lost' start (.node kind (us ++ vs))
        (.node kind (us ++ .cell ⟨c, .inserted⟩ :: vs)) :=
      turns_typed c seam lost_here outside low high
    refine ⟨_, .refl _, turns, fun positive => carries (.refl _) turns positive fun last ends => ?_⟩
    have solid := stored_ne_nil positive
    rw [cells_node, stored_append, endsWith_append solid] at ends
    rw [cells_node, stored_append, stored_cons, endsWith_append (by simp), endsWith_append solid]
    exact ends

/-! ## Deleting -/

/-- The marks of a node when one of its characters is replaced by a stretch without characters. -/
theorem Backed.strike {c : Cell} {ws : List Weave} (current : c.isCurrent = true)
    (none : width ws = 0) (seam : start + width us = position)
    (low : ∀ x, lost x → x ≤ position → lost' x)
    (high : ∀ x, lost (x + 1) → position ≤ x → lost' x) (edge : Marked ws → lost' position)
    (inner : BackedEach lost' position ws)
    (backed : Backed lost start (.node kind (us ++ .cell c :: vs))) :
    Backed lost' start (.node kind (us ++ ws ++ vs)) := by
  have one : width [.cell c] = 1 := by simp [room, current]
  have around : Backed lost start (Frame.fill ⟨kind, us, vs⟩ [.cell c]) := by
    simpa [Frame.fill] using backed
  refine around.fill (f := ⟨kind, us, vs⟩) seam.symm (fun x is_lost _ => by omega)
    (fun x near is_lost => low x is_lost near) ?_ ?_ inner
  · intro x y late along is_lost
    have next : x = y + 1 := by omega
    rw [next] at is_lost
    exact high y is_lost (by omega)
  · rwa [none]

/-- A typed character is gone when it is deleted. -/
theorem turns_untyped {c : Char} (seam : start + width us = position)
    (low : ∀ x, lost x → x ≤ position → lost' x)
    (high : ∀ x, lost (x + 1) → position ≤ x → lost' x) :
    Turns lost lost' start (.node kind (us ++ .cell ⟨c, .inserted⟩ :: vs))
      (.node kind (us ++ vs)) := by
  refine ⟨⟨_, _, rfl⟩, ?_, ?_, ?_⟩
  · intro gap admitted
    rw [front_node] at admitted ⊢
    rwa [frontOf_typed] at admitted
  · intro backed
    have struck : Backed lost' start (.node kind (us ++ [] ++ vs)) :=
      backed.strike rfl rfl seam low high (by rintro ⟨d, mem⟩; cases mem) backedEach_nil
    simpa using struck
  · intro loose _ good
    cases good with
    | @changed _ _ _ d marked =>
      refine .changed (c := d) ?_
      simpa using marked
    | shaped shape each =>
      refine .shaped shape.untype fun w mem => each w ?_
      simp only [List.mem_append, List.mem_cons] at mem ⊢
      tauto

/-- A kept character marks its node when it is deleted. -/
theorem turns_deleted {c : Char} (seam : start + width us = position)
    (low : ∀ x, lost x → x ≤ position → lost' x)
    (high : ∀ x, lost (x + 1) → position ≤ x → lost' x) (here : lost' position) :
    Turns lost lost' start (.node kind (us ++ .cell ⟨c, .kept⟩ :: vs))
      (.node kind (us ++ .cell ⟨c, .deleted⟩ :: vs)) := by
  refine ⟨⟨_, _, rfl⟩, fun gap admitted => admits_lost admitted, ?_, ?_⟩
  · intro backed
    have struck : Backed lost' start (.node kind (us ++ [.cell ⟨c, .deleted⟩] ++ vs)) :=
      backed.strike rfl rfl seam low high (fun _ => here)
        (backedEach_cons.mpr ⟨backed_cell _, backedEach_nil⟩)
    simpa using struck
  · intro loose _ _
    exact .changed (c := c) (by simp)

/-- A deleted character in its node. -/
theorem exists_deleted (kind : Kind) (vs : List Weave) {c : Cell} (current : c.isCurrent = true)
    (seam : start + width us = position) (low : ∀ x, lost x → x ≤ position → lost' x)
    (high : ∀ x, lost (x + 1) → position ≤ x → lost' x) (here : c.status = .kept → lost' position) :
    ∃ v', Looks v' (.node kind (us ++ vs)) ∧
      Carries lost lost' start (.node kind (us ++ .cell c :: vs)) v' := by
  have one : (cell c).room = 1 := by simp [room, current]
  have carries {v' : Weave} (looks : Looks v' (.node kind (us ++ vs)))
      (turns : Turns lost lost' start (.node kind (us ++ .cell c :: vs)) v')
      (tail : (∀ last, EndsWith (node kind (us ++ .cell c :: vs)).cells last →
        EndsWith v'.cells last) ∨ lost' (start + v'.room)) :
      Carries lost lost' start (.node kind (us ++ .cell c :: vs)) v' := by
    refine ⟨turns, ⟨_, _, rfl⟩, by simp, fun x near is_lost => low x is_lost (by omega), ?_, tail⟩
    intro x y late along is_lost
    rw [looks.room] at along
    simp only [room_node, width_append, width_cons, one] at late along
    have next : x = y + 1 := by omega
    rw [next] at is_lost
    exact high y is_lost (by omega)
  have same_end (ws : List Weave) (solid : stored vs ≠ []) (last : Char) :
      EndsWith (node kind (us ++ ws ++ vs)).cells last ↔ EndsWith (stored vs) last := by
    rw [cells_node, stored_append, endsWith_append solid]
  obtain ⟨c, status⟩ := c
  cases status with
  | deleted => cases current
  | inserted =>
    refine ⟨_, .refl _, carries (.refl _) (turns_untyped seam low high) (.inl fun last ends => ?_)⟩
    by_cases solid : stored vs = []
    · rw [cells_node, stored_append, stored_cons, solid, cells_cell] at ends
      simp [EndsWith] at ends
    · have mid := (same_end [.cell ⟨c, .inserted⟩] solid last).mp (by simpa using ends)
      simpa using (same_end [] solid last).mpr mid
  | kept =>
    have no_room : (cell ⟨c, .deleted⟩).room = 0 := rfl
    have looks : Looks (.node kind (us ++ .cell ⟨c, .deleted⟩ :: vs)) (.node kind (us ++ vs)) := by
      constructor
      · intro p
        rw [formsOf_node, formsOf_node, formsAt_append, formsAt_append, formsAt_cons, formsOf_cell,
          no_room, width_append, width_append, width_cons, no_room, Nat.zero_add]
        rfl
      · simp [live, Cell.isCurrent]
    refine ⟨_, looks, carries looks (turns_deleted seam low high (here rfl)) ?_⟩
    by_cases solid : stored vs = []
    · have empty : width vs = 0 := by rw [width, solid]; rfl
      refine .inr ?_
      rw [looks.room, room_node, width_append, empty, Nat.add_zero, seam]
      exact here rfl
    · refine .inl fun last ends => ?_
      have mid := (same_end [.cell ⟨c, .kept⟩] solid last).mp (by simpa using ends)
      simpa using (same_end [.cell ⟨c, .deleted⟩] solid last).mpr mid

end FormEdit.Weave
