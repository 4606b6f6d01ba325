import FormEdit.Proofs.Weave.Basic

/-!
# Making room in a weave

Typing a character changes a few cells of one node. In the weave nothing else changes, while in the
tree every span behind the change has to move and every span around it to stretch. `Focus.room` says
that the two agree: the tree that has made room holds the forms of the changed weave.
-/

namespace FormEdit

open Rose Buffer

namespace Form

@[simp] theorem span_moved (distance : Int) (f : Form) :
    (Form.moved distance f).span = f.span.moved distance := by
  simp [Form.moved, Form.span]

end Form

namespace Branch

theorem form_moved (distance : Int) (b : Branch) :
    form (moved distance b) = (form b).moved distance := by
  simp only [form, moved, Form.moved, map_map]
  rfl

/-- Whether a branch can be moved shows in its form. -/
theorem movable_of_form {distance : Int} {b : Branch}
    (all : ∀ tag ∈ (form b).preorder, 0 ≤ (tag.span.start : Int) + distance ∧
      (tag.span.stop : Int) + distance < positionLimit) : Movable distance b := by
  intro entry mem
  exact all entry.2.tag (tag_mem_form mem)

end Branch

namespace Weave

open Branch FormEdit.Tree

variable {position n n' : Nat} {distance : Int} {gs : List Frame}
  {fs : List (Rose.Frame (Handle × Node))}

theorem movable_of_mem {b : Branch} {ws : List Weave} (mem : Branch.form b ∈ formsAt position ws)
    (low : 0 ≤ (position : Int) + distance)
    (high : (position + width ws : Int) + distance < positionLimit) : Movable distance b := by
  obtain ⟨nested, start, stop⟩ := formsAt_inside mem
  refine movable_of_form fun tag htag => ?_
  obtain ⟨start', stop'⟩ := nested.preorder_inside tag htag
  omega

/-- A frame of a tree has the kind, the span and the children of a frame of a weave, whose node
starts at `start` and has a hole of the width `n`. -/
structure Stands (start : Nat) (g : Frame) (n : Nat) (f : Rose.Frame (Handle × Node)) : Prop where
  kind_eq : f.value.2.kind = g.kind
  span_eq : f.value.2.span = Span.sized start (width g.before + n + width g.after)
  before_eq : f.before.map Branch.form = formsAt start g.before
  after_eq : f.after.map Branch.form = formsAt (start + width g.before + n) g.after

theorem tags_nil_iff : tags fs = tagsAt position [] n ↔ fs = [] := by
  simp [tags, tagsAt]

theorem tags_cons_iff {g : Frame} : tags fs = tagsAt position (g :: gs) n ↔
    ∃ f fs', fs = f :: fs' ∧ Stands (position + currentCount (left gs)) g n f ∧
      tags fs' = tagsAt position gs (width g.before + n + width g.after) := by
  constructor
  · intro tags_eq
    cases fs with
    | nil => simp [tags, tagsAt] at tags_eq
    | cons f fs =>
      simp only [tags, List.map_cons, tagsAt, List.cons.injEq, Rose.Frame.map, Rose.Frame.mk.injEq]
        at tags_eq
      obtain ⟨⟨tag, before, after⟩, rest⟩ := tags_eq
      obtain ⟨kind_eq, span_eq⟩ := Tag.mk.inj tag
      exact ⟨f, fs, rfl, ⟨kind_eq, span_eq, before, after⟩, rest⟩
  · rintro ⟨f, fs, rfl, ⟨kind_eq, span_eq, before, after⟩, rest⟩
    have tag : f.value.2.tag =
        ⟨g.kind, Span.sized (position + currentCount (left gs))
          (width g.before + n + width g.after)⟩ := by
      rw [Node.tag, kind_eq, span_eq]
    have here : Rose.Frame.map (fun entry => entry.2.tag) f =
        ⟨f.value.2.tag, f.before.map Branch.form, f.after.map Branch.form⟩ := rfl
    rw [tags, List.map_cons, here, tag, before, after, tagsAt, ← rest, tags]

/-- A wider hole makes its node wider by as much. -/
theorem grows_out (grows : (n' : Int) = n + distance) (g : Frame) :
    ((width g.before + n' + width g.after : Nat) : Int) =
      (width g.before + n + width g.after : Nat) + distance := by
  push_cast
  omega

namespace Stands

variable {start : Nat} {g : Frame} {f : Rose.Frame (Handle × Node)}

/-- The frame makes room when the width of its hole changes. -/
theorem room (stands : Stands start g n f) (grows : (n' : Int) = n + distance) :
    Stands start g n' (roomFrame distance f) := by
  refine ⟨stands.kind_eq, ?_, stands.before_eq, ?_⟩
  · simp only [roomFrame, Node.stretched]
    rw [stands.span_eq]
    refine Span.ext rfl ?_
    simp only [Span.stretched, Span.sized]
    omega
  · have moves : formsAt (start + width g.before + n') g.after =
        (formsAt (start + width g.before + n) g.after).map (Form.moved distance) := by
      rw [formsAt_moved _ (start + width g.before + n')]
      congr 2
      push_cast
      omega
    rw [moves, ← stands.after_eq, roomFrame, List.map_map, List.map_map]
    exact List.map_congr_left fun b _ => form_moved distance b

/-- A node in the frame is the form of its weave in the other one. -/
theorem formsOf_fill {b : Branch} {w : Weave} (stands : Stands start g w.room f)
    (form : formsOf (start + width g.before) w = [Branch.form b]) :
    formsOf start (g.fill [w]) = [Branch.form (f.fill b)] := by
  have tag : f.value.2.tag = ⟨g.kind, Span.sized start (width (g.before ++ [w] ++ g.after))⟩ := by
    rw [Node.tag, stands.kind_eq, stands.span_eq]
    simp [Nat.add_assoc]
  have parts : formsAt start (g.before ++ [w] ++ g.after) =
      f.before.map Branch.form ++ Branch.form b :: f.after.map Branch.form := by
    rw [formsAt_append, formsAt_append, formsAt_singleton, form, stands.before_eq, stands.after_eq]
    simp [Nat.add_assoc]
  rw [Frame.fill, formsOf_node, parts, ← tag]
  simp only [Branch.form, map_fill]
  rfl

/-- Nothing in the frame leaves the range of positions as long as its node stays in it. -/
theorem roomy (stands : Stands start g n f) (grows : (n' : Int) = n + distance)
    (fits : start + (width g.before + n' + width g.after) < positionLimit) :
    Branch.Stretchable distance f.value.2 ∧ ∀ b ∈ f.after, Branch.Movable distance b := by
  constructor
  · rw [Stretchable, stands.span_eq]
    simp only [Span.sized]
    push_cast
    omega
  · intro b mem
    have listed : Branch.form b ∈ formsAt (start + width g.before + n) g.after := by
      rw [← stands.after_eq]
      exact List.mem_map.mpr ⟨b, mem, rfl⟩
    exact movable_of_mem listed (by push_cast; omega) (by push_cast; omega)

end Stands

/-- The frames around a hole make room when its width changes. -/
theorem tags_room (tags_eq : tags fs = tagsAt position gs n) (grows : (n' : Int) = n + distance) :
    tags (fs.map (roomFrame distance)) = tagsAt position gs n' := by
  induction gs generalizing fs n n' with
  | nil =>
    obtain rfl := tags_nil_iff.mp tags_eq
    rfl
  | cons g gs ih =>
    obtain ⟨f, fs, rfl, stands, rest⟩ := tags_cons_iff.mp tags_eq
    exact tags_cons_iff.mpr ⟨_, _, rfl, stands.room grows, ih rest (grows_out grows g)⟩

/-- Nothing around a hole leaves the range of positions as long as the whole text stays in it. -/
theorem roomy (tags_eq : tags fs = tagsAt position gs n) (grows : (n' : Int) = n + distance)
    (fits : position + (currentCount (left gs) + n' + currentCount (right gs)) < positionLimit) :
    Roomy distance fs := by
  induction gs generalizing fs n n' with
  | nil =>
    obtain rfl := tags_nil_iff.mp tags_eq
    simp [Roomy]
  | cons g gs ih =>
    obtain ⟨f, fs, rfl, stands, rest⟩ := tags_cons_iff.mp tags_eq
    simp only [left, right, currentCount_append] at fits
    have before_width : currentCount (stored g.before) = width g.before := rfl
    have after_width : currentCount (stored g.after) = width g.after := rfl
    have outer := ih rest (grows_out grows g) (by omega)
    exact List.forall_mem_cons.mpr ⟨stands.roomy grows (by omega), outer⟩

/-- A node of a tree in its place, and the weave it stands for in its place: `fs` and `gs` are what
stands around the two, and the whole weave starts at a position. -/
structure Focus (t : Tree) (position : Nat) (fs : List (Rose.Frame (Handle × Node))) (b : Branch)
    (gs : List Frame) (w : Weave) : Prop where
  holds : Holds t (Rose.plug fs b)
  form : formsOf (position + currentCount (left gs)) w = [Branch.form b]
  tags_eq : tags fs = tagsAt position gs w.room

section

variable {t : Tree} {b : Branch} {w : Weave}

/-- Whatever has a place in the tree has one in the weave. -/
theorem exists_focus (holds : Holds t (Rose.plug fs b))
    (form : formsOf position w = [Branch.form (Rose.plug fs b)]) :
    ∃ gs v, wrap gs v = w ∧ Focus t position fs b gs v := by
  rw [form_plug] at form
  obtain ⟨gs, v, wrapped, here, around⟩ := exists_frames form
  exact ⟨gs, v, wrapped, holds, here, around.symm⟩

/-- A node spans the room of its weave. -/
theorem Focus.span_eq (focus : Focus t position fs b gs w) :
    b.value.2.span = Span.sized (position + currentCount (left gs)) w.room := by
  obtain ⟨-, start, stop⟩ := nests w _ (Branch.form b) (by rw [focus.form]; simp)
  rw [span_form] at start stop
  exact Span.ext start stop

theorem Focus.whole (focus : Focus t position fs b gs w) :
    formsOf position (wrap gs w) = [Branch.form (Rose.plug fs b)] := by
  have inner : formsAt (position + currentCount (left gs)) [w] = [Branch.form b] := by
    rw [formsAt_singleton, focus.form]
  have plugged := formsAt_plug inner
  rw [plug_singleton, formsAt_singleton, width_cons, width_nil, Nat.add_zero, ← focus.tags_eq,
    ← form_plug] at plugged
  exact plugged

/-- The node around a node. -/
theorem Focus.out {f : Rose.Frame (Handle × Node)} (focus : Focus t position (f :: fs) b gs w) :
    ∃ g gs', gs = g :: gs' ∧ Focus t position fs (f.fill b) gs' (g.fill [w]) := by
  obtain ⟨holds, form, tags_eq⟩ := focus
  cases gs with
  | nil => cases tags_nil_iff.mp tags_eq
  | cons g gs =>
    obtain ⟨f', fs', same, stands, rest⟩ := tags_cons_iff.mp tags_eq
    obtain ⟨rfl, rfl⟩ := List.cons.inj same
    refine ⟨g, gs, rfl, holds, ?_, ?_⟩
    · have here : position + currentCount (left gs) + width g.before =
          position + currentCount (left (g :: gs)) := by
        rw [left, currentCount_append, width, Nat.add_assoc]
      exact stands.formsOf_fill (here ▸ form)
    · rw [rest]
      simp [Frame.fill, Nat.add_assoc]

/-- A node somewhere around a node. -/
theorem Focus.climb {inner outer : List (Rose.Frame (Handle × Node))}
    (focus : Focus t position (inner ++ outer) b gs w) :
    ∃ gs₁ gs₂, gs = gs₁ ++ gs₂ ∧ Focus t position outer (Rose.plug inner b) gs₂ (wrap gs₁ w) := by
  induction inner generalizing b gs w with
  | nil => exact ⟨[], gs, rfl, focus⟩
  | cons f inner ih =>
    obtain ⟨g, gs', rfl, around⟩ := focus.out
    obtain ⟨gs₁, gs₂, rfl, found⟩ := ih around
    exact ⟨g :: gs₁, gs₂, rfl, found⟩

end

/-- The children ahead of the seam stay and those behind it move. -/
theorem forms_movedFrom {cs : List Branch} {us vs : List Weave} {start here there seam : Nat}
    (children : cs.map Branch.form = formsAt start us ++ formsAt here vs)
    (ahead : ∀ f ∈ formsAt start us, (Form.span f).start < seam) (behind : seam ≤ here)
    (along : (there : Int) = here + distance) :
    (cs.map (movedFrom seam distance)).map Branch.form =
      formsAt start us ++ formsAt there vs := by
  have each : (cs.map (movedFrom seam distance)).map Branch.form =
      (cs.map Branch.form).map fun f => if seam ≤ f.span.start then f.moved distance else f := by
    rw [List.map_map, List.map_map]
    refine List.map_congr_left fun c _ => ?_
    simp only [Function.comp_apply, movedFrom, span_form]
    split
    · exact form_moved distance c
    · rfl
  have moves : formsAt there vs = (formsAt here vs).map (Form.moved distance) := by
    rw [formsAt_moved here there]
    congr 2
    omega
  rw [each, children, List.map_append, moves]
  congr 1
  · conv_rhs => rw [← List.map_id (formsAt start us)]
    refine List.map_congr_left fun f hf => ?_
    have early := ahead f hf
    simp only [id, if_neg (show ¬seam ≤ f.span.start by omega)]
  · refine List.map_congr_left fun f hf => ?_
    have late := (formsAt_inside hf).2.1
    simp only [if_pos (show seam ≤ f.span.start by omega)]

/-- A node whose cells change between its parts `us` and `vs`: the tree makes the same room. -/
theorem Focus.room {t : Tree} {h : Handle} {node : Node} {cs : List Branch} {kind : Kind}
    {us vs : List Weave} {old new : List Cell} {start seam : Nat}
    (focus : Focus t position fs (.node (h, node) cs) gs (.node kind (us ++ old.map cell ++ vs)))
    (start_eq : start = position + currentCount (left gs))
    (grows : (currentCount new : Int) = currentCount old + distance)
    (ahead : ∀ f ∈ formsAt start us, (Form.span f).start < seam)
    (behind : seam ≤ start + width us + currentCount old)
    (fits : position + (currentCount (left gs) + width (us ++ new.map cell ++ vs) +
      currentCount (right gs)) < positionLimit) :
    ∃ t₁ t₂ t₃ fs' b, t.stretch h distance = .ok t₁ ∧
      t₁.moveChildrenFrom h seam distance = .ok t₂ ∧ t₂.moveSuccessors h distance = .ok t₃ ∧
      Branch.handle b = h ∧ Focus t₃ position fs' b gs (.node kind (us ++ new.map cell ++ vs)) := by
  obtain ⟨holds, form, tags_eq⟩ := focus
  rw [← start_eq] at form
  simp only [room_node, width_append, width_map_cell] at tags_eq fits
  have wider : ((width us + currentCount new + width vs : Nat) : Int) =
      (width us + currentCount old + width vs : Nat) + distance := by
    push_cast
    omega
  rw [formsOf_node] at form
  simp only [width_append, width_map_cell, formsAt_append, formsAt_map_cell, List.append_nil,
    Branch.form, Rose.map_node, List.cons.injEq, and_true, Rose.node.injEq] at form
  obtain ⟨tag, children⟩ := form
  obtain ⟨kind_eq, span_eq⟩ := Tag.mk.inj tag
  have stretchable : Stretchable distance node := by
    rw [Stretchable, ← span_eq]
    simp only [Span.sized]
    push_cast
    omega
  have movable : ∀ c ∈ cs, seam ≤ c.value.2.span.start → Movable distance c := by
    intro c hc late
    have listed : Branch.form c ∈ cs.map (Rose.map fun entry => entry.2.tag) :=
      List.mem_map.mpr ⟨c, hc, rfl⟩
    rw [← children, List.mem_append] at listed
    rcases listed with listed | listed
    · have early := ahead _ listed
      rw [span_form] at early
      omega
    · exact movable_of_mem listed (by push_cast; omega) (by push_cast; omega)
  obtain ⟨t₁, t₂, t₃, stretched, moved, successors, altered⟩ :=
    holds.bears.makeRoom stretchable movable (roomy tags_eq wider fits)
  refine ⟨t₁, t₂, t₃, _, _, stretched, moved, successors, rfl, altered.holds holds, ?_,
    by simpa only [room_node, width_append, width_map_cell] using tags_room tags_eq wider⟩
  have forms_eq : (cs.map (movedFrom seam distance)).map Branch.form =
      formsAt start us ++ formsAt (start + (width us + currentCount new)) vs :=
    forms_movedFrom children.symm ahead (by omega) (by push_cast; omega)
  have span' : Span.sized start (width us + currentCount new + width vs) =
      node.span.stretched distance := by
    rw [← span_eq]
    refine Span.ext rfl ?_
    simp only [Span.stretched, Span.sized]
    omega
  rw [← start_eq, formsOf_node]
  simp only [width_append, width_map_cell, formsAt_append, formsAt_map_cell, List.append_nil,
    Branch.form, Rose.map_node]
  rw [show (cs.map (movedFrom seam distance)).map (Rose.map fun entry => entry.2.tag) =
    (cs.map (movedFrom seam distance)).map Branch.form from rfl, forms_eq]
  simp only [Node.tag, Node.stretched, kind_eq, span']

/-! ## Where a change falls -/

/-- A node that started before a position and does not contain it has ended. -/
theorem node_passed {kind : Kind} {parts : List Weave} {start : Nat} (after : start ≤ position)
    (outside : ∀ f ∈ formsOf start (.node kind parts), (Form.span f).contains position = false) :
    start + (node kind parts).room ≤ position := by
  rw [formsOf_node] at outside
  have missed := Span.contains_eq_false.mp (outside _ (List.mem_singleton_self _))
  rw [room_node]
  exact missed after

/-- A position in a node that is inside of none of its children falls between two parts. -/
theorem exists_seam {parts : List Weave} {start : Nat} (after : start ≤ position)
    (before : position ≤ start + width parts)
    (outside : ∀ f ∈ formsAt start parts, (Form.span f).contains position = false) :
    ∃ us vs, parts = us ++ vs ∧ start + width us = position ∧
      ∀ f ∈ formsAt start us, (Form.span f).start < position := by
  induction parts generalizing start with
  | nil => exact ⟨[], [], rfl, by simp only [width_nil] at before ⊢; omega, by simp⟩
  | cons w parts ih =>
    rcases Nat.eq_or_lt_of_le after with here | later
    · exact ⟨[], w :: parts, rfl, by simpa using here, by simp⟩
    · rw [width_cons] at before
      rw [formsAt_cons] at outside
      have passed : start + w.room ≤ position := by
        cases w with
        | cell c =>
          simp only [room, cells_cell, currentCount_cons, currentCount_nil]
          split <;> omega
        | node kind ps =>
          exact node_passed after fun f hf => outside f (List.mem_append_left _ hf)
      obtain ⟨us, vs, rfl, seam, ahead⟩ := ih passed (by omega)
        fun f hf => outside f (List.mem_append_right _ hf)
      refine ⟨w :: us, vs, rfl, by rw [width_cons]; omega, ?_⟩
      intro f hf
      rw [formsAt_cons, List.mem_append] at hf
      rcases hf with hf | hf
      · have first := (nests w start f hf).2.1
        omega
      · exact ahead f hf

/-- A character of a node that is inside of none of its children is a cell of its own. -/
theorem exists_cell {parts : List Weave} {start : Nat} (after : start ≤ position)
    (before : position < start + width parts)
    (outside : ∀ f ∈ formsAt start parts, (Form.span f).contains position = false) :
    ∃ us c vs, parts = us ++ .cell c :: vs ∧ start + width us = position ∧ c.isCurrent = true := by
  induction parts generalizing start with
  | nil => simp only [width_nil] at before; omega
  | cons w parts ih =>
    rw [width_cons] at before
    rw [formsAt_cons] at outside
    by_cases passed : start + w.room ≤ position
    · obtain ⟨us, c, vs, rfl, seam, current⟩ := ih passed (by omega)
        fun f hf => outside f (List.mem_append_right _ hf)
      exact ⟨w :: us, c, vs, rfl, by rw [width_cons]; omega, current⟩
    · cases w with
      | cell c =>
        simp only [room, cells_cell, currentCount_cons, currentCount_nil] at passed
        cases current : c.isCurrent with
        | false => simp only [current, Bool.false_eq_true, if_false] at passed; omega
        | true =>
          simp only [current, if_true] at passed
          exact ⟨[], c, parts, rfl, by rw [width_nil]; omega, current⟩
      | node kind ps =>
        exact absurd (node_passed after fun f hf => outside f (List.mem_append_left _ hf)) passed

/-! ## Shapes -/

/-- The forms of two weaves have the same kinds in the same places, wherever the weaves start. -/
def Alike (w w' : Weave) : Prop :=
  ∀ p p', (formsOf p w).map Form.shape = (formsOf p' w').map Form.shape

theorem shape_formsAt (p p' : Nat) (ws : List Weave) :
    (formsAt p ws).map Form.shape = (formsAt p' ws).map Form.shape := by
  rw [formsAt_moved p p', List.map_map]
  exact List.map_congr_left fun f _ => (Form.shape_moved _ f).symm

/-- Cells do not show in the shape of a node. -/
theorem alike_node {kind : Kind} {parts parts' : List Weave}
    (same : ∀ p p', (formsAt p parts).map Form.shape = (formsAt p' parts').map Form.shape) :
    Alike (.node kind parts) (.node kind parts') := by
  intro p p'
  have each : (formsAt p parts).map (Rose.map Tag.kind) =
      (formsAt p' parts').map (Rose.map Tag.kind) :=
    same p p'
  simp only [formsOf_node, List.map_cons, List.map_nil, Form.shape, Rose.map_node, each]

theorem Alike.wrap {w w' : Weave} (alike : Alike w w') (gs : List Frame) :
    Alike (Weave.wrap gs w) (Weave.wrap gs w') := by
  induction gs generalizing w w' with
  | nil => exact alike
  | cons g gs ih =>
    refine ih (alike_node fun p p' => ?_)
    simp only [formsAt_append, formsAt_singleton, List.map_append]
    rw [shape_formsAt p p' g.before, alike (p + width g.before) (p' + width g.before),
      shape_formsAt _ (p' + width (g.before ++ [w'])) g.after]

theorem alike_cells {kind : Kind} {us vs : List Weave} (old new : List Cell) :
    Alike (.node kind (us ++ old.map cell ++ vs)) (.node kind (us ++ new.map cell ++ vs)) := by
  refine alike_node fun p p' => ?_
  simp only [formsAt_append, formsAt_map_cell, List.append_nil, List.map_append]
  rw [shape_formsAt p p' us, shape_formsAt _ (p' + width (us ++ new.map cell)) vs]

end Weave

end FormEdit
