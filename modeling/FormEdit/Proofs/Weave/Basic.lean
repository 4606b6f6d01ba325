import FormEdit.Proofs.Buffer.Places
import FormEdit.Proofs.Tree.Enclosing

/-!
# Texts woven with their nodes

A weave is a stored cell, or a node over the weaves it was read from. The cells of a weave in order
are a stretch of storage; counting the current ones among them places its nodes. So a weave says at
once what is stored, what the tree looks like and which cell belongs to which node, and the spans of
its forms are nested whatever its cells are: `nested_formsOf`.
-/

namespace FormEdit

open Buffer

inductive Weave where
  | cell (cell : Cell)
  | node (kind : Kind) (parts : List Weave)

namespace Weave

/-- What holds of cells, and of a node whenever it holds of its parts, holds of every weave. -/
@[elab_as_elim]
theorem induction {motive : Weave → Prop} (cell : ∀ c, motive (.cell c))
    (node : ∀ kind parts, (∀ w ∈ parts, motive w) → motive (.node kind parts)) (w : Weave) :
    motive w := by
  refine Weave.rec (motive_1 := motive) (motive_2 := fun ws => ∀ w ∈ ws, motive w) cell node ?_ ?_ w
  · intro w hw
    cases hw
  · intro w ws hw hws v hv
    rcases List.mem_cons.mp hv with rfl | hv
    · exact hw
    · exact hws v hv

mutual

/-- The stored cells of a weave. -/
def cells : Weave → List Cell
  | .cell c => [c]
  | .node _ parts => cellsEach parts

/-- The stored cells of weaves one after the other. -/
def cellsEach : List Weave → List Cell
  | [] => []
  | w :: ws => cells w ++ cellsEach ws

end

/-- The stored cells of weaves one after the other. -/
def stored (ws : List Weave) : List Cell := ws.flatMap cells

@[simp] theorem cells_cell (c : Cell) : (cell c).cells = [c] := rfl

theorem cellsEach_eq (ws : List Weave) : cellsEach ws = stored ws := by
  induction ws with
  | nil => rfl
  | cons w ws ih => simp [cellsEach, stored, ih]

@[simp] theorem cells_node (kind : Kind) (parts : List Weave) :
    (node kind parts).cells = stored parts := by
  rw [cells, cellsEach_eq]

@[simp] theorem stored_nil : stored [] = [] := rfl

@[simp] theorem stored_cons (w : Weave) (ws : List Weave) :
    stored (w :: ws) = w.cells ++ stored ws := by
  simp [stored]

@[simp] theorem stored_append (us ws : List Weave) :
    stored (us ++ ws) = stored us ++ stored ws := by
  simp [stored]

@[simp] theorem stored_map_cell (cs : List Cell) : stored (cs.map cell) = cs := by
  induction cs with
  | nil => rfl
  | cons c cs ih => simp [ih]

/-- The number of current characters of weaves. -/
def width (ws : List Weave) : Nat := currentCount (stored ws)

@[simp] theorem width_nil : width [] = 0 := rfl

/-- The number of current characters of a weave. -/
def room (w : Weave) : Nat := currentCount w.cells

@[simp] theorem width_cons (w : Weave) (ws : List Weave) : width (w :: ws) = w.room + width ws := by
  simp [width, room]

@[simp] theorem width_append (us ws : List Weave) : width (us ++ ws) = width us + width ws := by
  simp [width]

@[simp] theorem room_node (kind : Kind) (parts : List Weave) :
    (node kind parts).room = width parts := by
  simp [width, room]

theorem stored_ne_nil {ws : List Weave} (positive : 0 < width ws) : stored ws ≠ [] := by
  intro none
  simp [width, none] at positive

@[simp] theorem width_map_cell (cs : List Cell) : width (cs.map cell) = currentCount cs := by
  rw [width, stored_map_cell]

mutual

/-- The forms of a weave that starts at a position: one if it is a node. -/
def formsOf : Nat → Weave → List Form
  | _, .cell _ => []
  | position, .node kind parts =>
    [.node ⟨kind, Span.sized position (width parts)⟩ (formsAt position parts)]

/-- The forms of weaves one after the other from a position on. -/
def formsAt : Nat → List Weave → List Form
  | _, [] => []
  | position, w :: ws => formsOf position w ++ formsAt (position + w.room) ws

end

@[simp] theorem formsAt_nil (position : Nat) : formsAt position [] = [] := by
  rw [formsAt]

theorem formsAt_cons (position : Nat) (w : Weave) (ws : List Weave) :
    formsAt position (w :: ws) = formsOf position w ++ formsAt (position + w.room) ws := by
  rw [formsAt]

@[simp] theorem formsOf_cell (position : Nat) (c : Cell) : formsOf position (cell c) = [] := by
  rw [formsOf]

theorem formsOf_node (position : Nat) (kind : Kind) (parts : List Weave) :
    formsOf position (node kind parts) =
      [.node ⟨kind, Span.sized position (width parts)⟩ (formsAt position parts)] := by
  rw [formsOf]

@[simp] theorem formsAt_singleton (position : Nat) (w : Weave) :
    formsAt position [w] = formsOf position w := by
  simp [formsAt_cons]

theorem formsAt_append (position : Nat) (us ws : List Weave) :
    formsAt position (us ++ ws) = formsAt position us ++ formsAt (position + width us) ws := by
  induction us generalizing position with
  | nil => simp
  | cons u us ih =>
    rw [List.cons_append, formsAt_cons, formsAt_cons, ih, width_cons, List.append_assoc,
      Nat.add_assoc]

@[simp] theorem formsAt_map_cell (position : Nat) (cs : List Cell) :
    formsAt position (cs.map cell) = [] := by
  induction cs generalizing position with
  | nil => simp
  | cons c cs ih => simp [formsAt_cons, ih]

/-! ## Nesting -/

/-- The form of a weave fills its room and is nested. -/
def Nests (w : Weave) : Prop :=
  ∀ position, ∀ f ∈ formsOf position w, f.Nested ∧
    (Form.span f).start = position ∧ (Form.span f).stop = position + w.room

theorem pairwise_formsOf (position : Nat) (w : Weave) (r : Form → Form → Prop) :
    (formsOf position w).Pairwise r := by
  cases w with
  | cell c => simp
  | node kind parts => simp [formsOf_node]

theorem nested_each {ws : List Weave} (nests : ∀ w ∈ ws, Nests w) (position : Nat) :
    (∀ f ∈ formsAt position ws, Form.Nested f ∧ position ≤ (Form.span f).start ∧
      (Form.span f).stop ≤ position + width ws) ∧
    (formsAt position ws).Pairwise fun c d => (Form.span c).stop ≤ (Form.span d).start := by
  induction ws generalizing position with
  | nil => simp
  | cons w ws ih =>
    have first := nests w (by simp) position
    obtain ⟨rest, order⟩ := ih (fun v hv => nests v (by simp [hv])) (position + w.room)
    rw [formsAt_cons]
    refine ⟨?_, List.pairwise_append.mpr ⟨pairwise_formsOf _ _ _, order, ?_⟩⟩
    · intro f hf
      rw [width_cons]
      rcases List.mem_append.mp hf with hf | hf
      · obtain ⟨nested, start, stop⟩ := first f hf
        exact ⟨nested, by omega, by omega⟩
      · obtain ⟨nested, start, stop⟩ := rest f hf
        exact ⟨nested, by omega, by omega⟩
    · intro f hf g hg
      obtain ⟨-, -, stop⟩ := first f hf
      obtain ⟨-, start, -⟩ := rest g hg
      omega

/-- The forms of a weave are nested, whatever its cells are. -/
theorem nests (w : Weave) : Nests w := by
  induction w using Weave.induction with
  | cell c => simp [Nests]
  | node kind parts ih =>
    intro position f hf
    rw [formsOf_node, List.mem_singleton] at hf
    subst hf
    obtain ⟨inside, order⟩ := nested_each ih position
    exact ⟨.node (fun f hf => (inside f hf).2) order fun f hf => (inside f hf).1, rfl,
      by rw [room_node]; rfl⟩

theorem nested_formsOf {w : Weave} {position : Nat} {f : Form} (mem : f ∈ formsOf position w) :
    f.Nested := (nests w position f mem).1

theorem formsAt_inside {ws : List Weave} {position : Nat} {f : Form}
    (mem : f ∈ formsAt position ws) :
    f.Nested ∧ position ≤ (Form.span f).start ∧ (Form.span f).stop ≤ position + width ws :=
  (nested_each (fun w _ => nests w) position).1 f mem

/-- The forms ahead of a seam do not start behind it. -/
theorem formsAt_start_lt {ws : List Weave} {start position : Nat}
    (seam : start + width ws = position) :
    ∀ f ∈ formsAt start ws, (Form.span f).start < position + 1 := by
  intro f mem
  obtain ⟨-, -, stop⟩ := formsAt_inside mem
  have order := f.span.start_le_stop
  omega

/-! ## Moving -/

end Weave

/-- The form at another place. -/
def Form.moved (distance : Int) (f : Form) : Form :=
  f.map fun tag => ⟨tag.kind, tag.span.moved distance⟩

theorem Form.shape_moved (distance : Int) (f : Form) : (Form.moved distance f).shape = f.shape := by
  simp only [Form.shape, Form.moved, Rose.map_map]
  rfl

namespace Weave

/-- Where a weave starts is all that the places of its forms depend on. -/
theorem formsOf_moved (w : Weave) : ∀ position position' : Nat,
    formsOf position' w = (formsOf position w).map (Form.moved (position' - position)) := by
  induction w using Weave.induction with
  | cell c => simp
  | node kind parts ih =>
    intro position position'
    have each (ws : List Weave) (sub : ∀ w ∈ ws, w ∈ parts) (p p' : Nat) (d : Int)
        (hd : d = p' - p) : formsAt p' ws = (formsAt p ws).map (Form.moved d) := by
      induction ws generalizing p p' with
      | nil => simp
      | cons w ws ihws =>
        have first := ih w (sub w (by simp)) p p'
        have rest := ihws (fun v hv => sub v (by simp [hv])) (p + w.room) (p' + w.room)
          (by omega)
        rw [formsAt_cons, formsAt_cons, List.map_append, first, rest, ← hd]
    rw [formsOf_node, formsOf_node, each parts (fun _ h => h) position position' _ rfl]
    simp only [List.map_cons, List.map_nil, Form.moved, Rose.map_node]
    congr 3
    ext
    · simp only [Span.sized, Span.moved]
      omega
    · simp only [Span.sized, Span.moved]
      omega

theorem formsAt_moved (position position' : Nat) (ws : List Weave) :
    formsAt position' ws = (formsAt position ws).map (Form.moved (position' - position)) := by
  induction ws generalizing position position' with
  | nil => simp
  | cons w ws ih =>
    rw [formsAt_cons, formsAt_cons, List.map_append, formsOf_moved w position position',
      ih (position + w.room) (position' + w.room)]
    congr 3
    omega

/-! ## Weaves around a hole -/

/-- A node with a stretch of its parts left out. -/
structure Frame where
  kind : Kind
  before : List Weave
  after : List Weave

/-- The node with other parts in the place left out. -/
def Frame.fill (f : Frame) (ws : List Weave) : Weave := .node f.kind (f.before ++ ws ++ f.after)

/-- Fills the hole of a weave given by its frames, the innermost one first. -/
def plug : List Frame → List Weave → List Weave
  | [], ws => ws
  | f :: fs, ws => plug fs [f.fill ws]

@[simp] theorem plug_nil (ws : List Weave) : plug [] ws = ws := rfl

@[simp] theorem plug_cons (f : Frame) (fs : List Frame) (ws : List Weave) :
    plug (f :: fs) ws = plug fs [f.fill ws] := rfl

/-- A weave inside of frames, the innermost one first. -/
def wrap : List Frame → Weave → Weave
  | [], w => w
  | f :: fs, w => wrap fs (f.fill [w])

theorem plug_singleton (fs : List Frame) (w : Weave) : plug fs [w] = [wrap fs w] := by
  induction fs generalizing w with
  | nil => rfl
  | cons f fs ih => exact ih (f.fill [w])

theorem plug_cons_wrap (f : Frame) (fs : List Frame) (ws : List Weave) :
    plug (f :: fs) ws = [wrap fs (f.fill ws)] :=
  plug_singleton fs (f.fill ws)

theorem wrap_append (fs gs : List Frame) (w : Weave) : wrap (fs ++ gs) w = wrap gs (wrap fs w) := by
  induction fs generalizing w with
  | nil => rfl
  | cons f fs ih => exact ih (f.fill [w])

/-- What is stored ahead of a hole. -/
def left : List Frame → List Cell
  | [] => []
  | f :: fs => left fs ++ stored f.before

/-- What is stored behind a hole. -/
def right : List Frame → List Cell
  | [] => []
  | f :: fs => stored f.after ++ right fs

theorem stored_plug (fs : List Frame) (ws : List Weave) :
    stored (plug fs ws) = left fs ++ stored ws ++ right fs := by
  induction fs generalizing ws with
  | nil => simp [left, right]
  | cons f fs ih => simp [ih, left, right, Frame.fill]

theorem cells_wrap (fs : List Frame) (w : Weave) :
    (wrap fs w).cells = left fs ++ w.cells ++ right fs := by
  have plugged := stored_plug fs [w]
  simpa [plug_singleton] using plugged

/-- The frames of the forms around a hole of a width, in weaves that start at a position. -/
def tagsAt (position : Nat) : List Frame → Nat → List (Rose.Frame Tag)
  | [], _ => []
  | f :: fs, n =>
    let start := position + currentCount (left fs)
    let whole := width f.before + n + width f.after
    ⟨⟨f.kind, Span.sized start whole⟩, formsAt start f.before,
      formsAt (start + width f.before + n) f.after⟩ :: tagsAt position fs whole

/-- The forms of a weave with a hole are those around it, plugged with the one in it. -/
theorem formsAt_plug {position : Nat} {fs : List Frame} {ws : List Weave} {f : Form}
    (inner : formsAt (position + currentCount (left fs)) ws = [f]) :
    formsAt position (plug fs ws) = [Rose.plug (tagsAt position fs (width ws)) f] := by
  induction fs generalizing ws f with
  | nil => simpa [left, tagsAt] using inner
  | cons g fs ih =>
    simp only [left, currentCount_append] at inner
    have outer : formsAt (position + currentCount (left fs)) [g.fill ws] =
        [Rose.Frame.fill ⟨⟨g.kind, Span.sized (position + currentCount (left fs))
            (width g.before + width ws + width g.after)⟩,
          formsAt (position + currentCount (left fs)) g.before,
          formsAt (position + currentCount (left fs) + width g.before + width ws) g.after⟩ f] := by
      have inner : formsAt (position + currentCount (left fs) + width g.before) ws = [f] := by
        rw [← inner, Nat.add_assoc]
        rfl
      rw [formsAt_singleton, Frame.fill, formsOf_node, formsAt_append, formsAt_append, inner]
      simp only [Rose.Frame.fill, width_append, List.append_assoc, List.cons_append,
        List.nil_append, Nat.add_assoc]
    rw [plug_cons, ih outer, tagsAt, Rose.plug_cons]
    congr 3
    simp [Frame.fill, Nat.add_assoc]

/-- A form among those of weaves is that of one of them. -/
theorem exists_part {position : Nat} {ws : List Weave} {as bs : List Form} {f : Form}
    (forms : formsAt position ws = as ++ f :: bs) :
    ∃ us w vs, ws = us ++ w :: vs ∧ formsAt position us = as ∧
      formsOf (position + width us) w = [f] ∧
      formsAt (position + width us + w.room) vs = bs := by
  induction ws generalizing position as with
  | nil => simp at forms
  | cons w ws ih =>
    rw [formsAt_cons] at forms
    cases w with
    | cell c =>
      simp only [formsOf_cell, List.nil_append] at forms
      obtain ⟨us, v, vs, rfl, before, here, after⟩ := ih forms
      refine ⟨.cell c :: us, v, vs, rfl, by simpa [formsAt_cons] using before, ?_, ?_⟩
      · rw [width_cons, ← Nat.add_assoc]
        exact here
      · rw [width_cons, ← Nat.add_assoc]
        exact after
    | node kind parts =>
      cases as with
      | nil =>
        rw [formsOf_node, List.cons_append, List.nil_append, List.nil_append, List.cons.injEq]
          at forms
        refine ⟨[], .node kind parts, ws, rfl, by simp, ?_, by simpa using forms.2⟩
        rw [formsOf_node, ← forms.1]
        rfl
      | cons a as =>
        rw [formsOf_node, List.cons_append, List.nil_append, List.cons_append, List.cons.injEq]
          at forms
        obtain ⟨us, v, vs, rfl, before, here, after⟩ := ih forms.2
        refine ⟨.node kind parts :: us, v, vs, rfl, ?_, ?_, ?_⟩
        · rw [formsAt_cons, formsOf_node, before, forms.1]
          rfl
        · rw [width_cons, ← Nat.add_assoc]
          exact here
        · rw [width_cons, ← Nat.add_assoc]
          exact after

/-- Wherever a form has a hole, so has its weave. -/
theorem exists_frames {position : Nat} {w : Weave} {tags : List (Rose.Frame Tag)} {f : Form}
    (forms : formsOf position w = [Rose.plug tags f]) :
    ∃ fs v, wrap fs v = w ∧ formsOf (position + currentCount (left fs)) v = [f] ∧
      tagsAt position fs v.room = tags := by
  induction tags generalizing f with
  | nil => exact ⟨[], w, rfl, by simpa [left] using forms, rfl⟩
  | cons tag tags ih =>
    obtain ⟨fs, v, plugged, here, around⟩ := ih forms
    cases v with
    | cell c => simp at here
    | node kind parts =>
      rw [formsOf_node, Rose.Frame.fill] at here
      simp only [List.cons.injEq, and_true, Rose.node.injEq] at here
      obtain ⟨us, v, vs, rfl, before, inner, after⟩ := exists_part here.2
      refine ⟨⟨kind, us, vs⟩ :: fs, v, ?_, ?_, ?_⟩
      · rw [← plugged]
        simp [wrap, Frame.fill]
      · rw [left, currentCount_append, ← Nat.add_assoc]
        exact inner
      · have whole : width (us ++ v :: vs) = width us + v.room + width vs := by
          rw [width_append, width_cons, Nat.add_assoc]
        rw [room_node, whole] at around
        rw [whole] at here
        rw [tagsAt, around, here.1, before, after]

end Weave

end FormEdit
