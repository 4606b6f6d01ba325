import FormEdit.Proofs.Buffer.Committed
import FormEdit.Proofs.Weave.Margins

/-!
# What a weave was read from

Typed characters taken out and deleted ones put back, a weave has the committed characters of its
cells (`stored_revived`), and its nodes are in the same places. A stroke changes nothing in it
(`revivedEach_cells`), so it stays good until a node is read again.
-/

namespace FormEdit.Weave

open Buffer Lexer FormEdit.Language

variable {loose : Bool} {kind : Kind} {w : Weave} {us ws parts : List Weave}

theorem settle_eq_keptCells (cells : List Cell) : settle cells = keptCells (shown cells) := by
  rw [keptCells, shown, List.map_map]
  rfl

mutual

/-- A weave as it was read: nothing is left of a typed character, and a deleted one is there
again. -/
def revived : Weave → List Weave
  | .cell c => if c.isCommitted then [keep c.char] else []
  | .node kind parts => [.node kind (revivedEach parts)]

/-- Weaves one after the other as they were read. -/
def revivedEach : List Weave → List Weave
  | [] => []
  | w :: ws => revived w ++ revivedEach ws

end

theorem revived_cell (c : Cell) :
    revived (.cell c) = if c.isCommitted then [keep c.char] else [] := by
  rw [revived]

theorem revived_node (kind : Kind) (parts : List Weave) :
    revived (.node kind parts) = [.node kind (revivedEach parts)] := by
  rw [revived]

@[simp] theorem revivedEach_nil : revivedEach [] = [] := by
  rw [revivedEach]

theorem revivedEach_cons (w : Weave) (ws : List Weave) :
    revivedEach (w :: ws) = revived w ++ revivedEach ws := by
  rw [revivedEach]

theorem revivedEach_append (us ws : List Weave) :
    revivedEach (us ++ ws) = revivedEach us ++ revivedEach ws := by
  induction us with
  | nil => simp
  | cons u us ih => rw [List.cons_append, revivedEach_cons, revivedEach_cons, ih, List.append_assoc]

/-- Of cells, the committed characters are left. -/
theorem revivedEach_cells (cells : List Cell) :
    revivedEach (cells.map cell) = (original cells).map keep := by
  induction cells with
  | nil => simp
  | cons c cells ih =>
    rw [List.map_cons, revivedEach_cons, ih, original_cons, revived_cell]
    split <;> simp

theorem stored_revivedEach (each : ∀ w ∈ ws, stored (revived w) = keptCells (original w.cells)) :
    stored (revivedEach ws) = keptCells (original (stored ws)) := by
  induction ws with
  | nil => simp [keptCells]
  | cons w ws ih =>
    rw [revivedEach_cons, stored_append, stored_cons, original_append, each w (by simp),
      ih fun w mem => each w (by simp [mem]), keptCells, keptCells, keptCells, List.map_append]

/-- The committed characters are left. -/
theorem stored_revived (w : Weave) : stored (revived w) = keptCells (original w.cells) := by
  induction w using Weave.induction with
  | cell c =>
    rw [revived_cell, cells_cell, original_cons]
    split <;> simp [keptCells, keep]
  | node kind parts ih =>
    rw [revived_node, stored_cons, stored_nil, List.append_nil, cells_node, cells_node]
    exact stored_revivedEach ih

theorem stored_revivedEach_eq (ws : List Weave) :
    stored (revivedEach ws) = keptCells (original (stored ws)) :=
  stored_revivedEach fun w _ => stored_revived w

theorem kept_revivedEach (ws : List Weave) : Kept (revivedEach ws) := by
  intro c mem
  rw [stored_revivedEach_eq] at mem
  obtain ⟨d, -, rfl⟩ := List.mem_map.mp mem
  rfl

theorem spelling_revivedEach (ws : List Weave) :
    spelling (revivedEach ws) = original (stored ws) := by
  rw [spelling, stored_revivedEach_eq, map_char_keptCells]

theorem shape_revivedEach (each : ∀ w ∈ ws, ∀ p p',
      (formsAt p (revived w)).map Form.shape = (formsOf p' w).map Form.shape) (p p' : Nat) :
    (formsAt p (revivedEach ws)).map Form.shape = (formsAt p' ws).map Form.shape := by
  induction ws generalizing p p' with
  | nil => simp
  | cons w ws ih =>
    rw [revivedEach_cons, formsAt_append, formsAt_cons, List.map_append, List.map_append,
      each w (by simp) p p', ih (fun w mem => each w (by simp [mem])) _ (p' + w.room)]

/-- Strokes do not show in the shape. -/
theorem shape_revived (w : Weave) : ∀ p p',
    (formsAt p (revived w)).map Form.shape = (formsOf p' w).map Form.shape := by
  induction w using Weave.induction with
  | cell c =>
    intro p p'
    rw [revived_cell]
    split <;> simp [keep]
  | node kind parts ih =>
    intro p p'
    rw [revived_node, formsAt_singleton]
    exact alike_node (shape_revivedEach ih) p p'

/-- Weaves without changes are as they were read. -/
theorem revived_of_kept (w : Weave) : Kept [w] → revived w = [w] := by
  induction w using Weave.induction with
  | cell c =>
    intro kept
    obtain ⟨c, status⟩ := c
    obtain rfl : status = .kept := kept ⟨c, status⟩ (by simp)
    rfl
  | node kind parts ih =>
    intro kept
    have each : ∀ ws : List Weave, (∀ w ∈ ws, w ∈ parts) → revivedEach ws = ws := by
      intro ws sub
      induction ws with
      | nil => simp
      | cons w ws ih' =>
        rw [revivedEach_cons, ih' fun w mem => sub w (by simp [mem]),
          ih w (sub w (by simp)) ((kept_node.mp kept).mem (sub w (by simp))), List.singleton_append]
    rw [revived_node, each parts fun _ mem => mem]

theorem revivedEach_of_kept (kept : Kept ws) : revivedEach ws = ws := by
  have whole := revived_of_kept (.node .list ws) (kept_node.mpr kept)
  rw [revived_node] at whole
  simpa using whole

/-! ## Around a hole -/

/-- A frame as it was read. -/
def Frame.revived (f : Frame) : Frame := ⟨f.kind, revivedEach f.before, revivedEach f.after⟩

theorem revived_wrap (gs : List Frame) (kind : Kind) (parts : List Weave) :
    revived (wrap gs (.node kind parts)) =
      [wrap (gs.map Frame.revived) (.node kind (revivedEach parts))] := by
  induction gs generalizing kind parts with
  | nil => exact revived_node kind parts
  | cons g gs ih =>
    have inner : revivedEach (g.before ++ [.node kind parts] ++ g.after) =
        revivedEach g.before ++ [.node kind (revivedEach parts)] ++ revivedEach g.after := by
      rw [revivedEach_append, revivedEach_append, revivedEach_cons, revived_node, revivedEach_nil,
        List.append_nil]
    rw [wrap, Frame.fill, ih, inner]
    rfl

theorem revived_wrap_fill (g : Frame) (gs : List Frame) (ws : List Weave) :
    revived (wrap gs (g.fill ws)) =
      [wrap (gs.map Frame.revived) (g.revived.fill (revivedEach ws))] := by
  rw [Frame.fill, revived_wrap, revivedEach_append, revivedEach_append]
  rfl

theorem left_revived (gs : List Frame) :
    left (gs.map Frame.revived) = keptCells (original (left gs)) := by
  induction gs with
  | nil => rfl
  | cons g gs ih =>
    rw [List.map_cons, left, left, ih, original_append, Frame.revived, stored_revivedEach_eq]
    simp [keptCells]

/-- A stretch of cells is as it was read if it has the same committed characters. -/
theorem revived_wrap_cells {old new : List Cell} (gs : List Frame)
    (same : original new = original old) :
    revived (wrap gs (.node kind (us ++ new.map cell ++ ws))) =
      revived (wrap gs (.node kind (us ++ old.map cell ++ ws))) := by
  rw [revived_wrap, revived_wrap]
  simp only [revivedEach_append, revivedEach_cells, same]

/-! ## Reading it -/

/-- What a weave was read from reads as the nodes that are left, up to the span of the root. -/
theorem reads_original {position : Nat} (good : Good true (.node kind (revivedEach parts))) :
    ∃ span, Reads position (original (stored parts))
      (.node ⟨kind, span⟩ (formsAt position (revivedEach parts))) := by
  have own := formsOf_node position kind (revivedEach parts)
  obtain ⟨span, reads⟩ := good.narrow (kept_revivedEach parts) own
  rw [spelling_revivedEach] at reads
  exact ⟨span, reads⟩

/-- Whatever the span of its root, what a weave was read from has the shape of the weave. -/
theorem shape_original (kind : Kind) (parts : List Weave) (position position' : Nat) (span : Span) :
    (formsOf position' (.node kind parts)).map Form.shape =
      [Form.shape (.node ⟨kind, span⟩ (formsAt position (revivedEach parts)))] := by
  have shape := shape_revived (.node kind parts) position position'
  rw [revived_node, formsAt_singleton, formsOf_node] at shape
  rw [← shape]
  simp [Form.shape]

/-! ## Reading a node again that has its edges still -/

theorem Spelled.solid_front (spelled : Spelled kind parts) :
    ∃ first, (spelling parts).head? = some first ∧ Text.isBlank first = false := by
  cases spelled with
  | list => exact ⟨'(', rfl, by decide⟩
  | quote => exact ⟨'\x27', rfl, by decide⟩
  | @atom cs nonempty all =>
    obtain ⟨c, cs, rfl⟩ := List.exists_cons_of_ne_nil nonempty
    exact ⟨c, rfl, isBlank_of_inAtom (all c (List.mem_cons_self ..))⟩

/-- A text that reads as a form and begins with a character of atoms is that atom. -/
theorem Composed.in_atom {position : Nat} {chars bs bs' : List Char} {f : Form} {v : Weave}
    {first last c : Char} (composed : Composed position chars f bs v bs' first last)
    (at_front : bs = []) (begins : inAtom first = true) (mem : c ∈ chars)
    (solid : Text.isBlank c = false) :
    inAtom c = true := by
  rw [composed.text, at_front, List.nil_append, List.mem_append] at mem
  rcases mem with mem | mem
  · obtain ⟨k, ps, rfl⟩ := is_node_of_form composed.form
    have kept := kept_node.mp composed.kept
    have head := composed.ends.head_eq
    rw [spelling_node] at head mem
    cases (composed.good.shape kept).1.spelled kept with
    | list =>
      cases head
      cases begins
    | quote =>
      cases head
      cases begins
    | atom nonempty all =>
      rw [spelling_keep] at mem
      exact all c mem
  · rw [composed.blank' c mem] at solid
    cases solid

/-- What is inside of another node of a good weave of kept cells is good. -/
theorem Good.inner {g : Frame} {gs : List Frame} (good : Good loose (Weave.wrap (g :: gs) w))
    (kept : Kept [Weave.wrap (g :: gs) w]) : Good false w := by
  induction gs generalizing g w with
  | nil =>
    have kept_parts : Kept (g.before ++ [w] ++ g.after) := kept_node.mp kept
    exact (Good.shape good kept_parts).2 w (by simp)
  | cons h gs ih =>
    have outer : Good false (g.fill [w]) := ih good kept
    obtain ⟨-, kept_fill, -⟩ :=
      kept_wrap.mp (show Kept [Weave.wrap (h :: gs) (g.fill [w])] from kept)
    exact (Good.shape outer (kept_node.mp kept_fill)).2 w (by simp)

/-- A node is read again from a text that has the first of its characters still and ends with its
last one: everything around it stays good. -/
theorem Good.renew {position : Nat} {g : Frame} {gs : List Frame} {k : Kind} {ps : List Weave}
    {chars : List Char} {f : Form} (good : Good loose (Weave.wrap (g :: gs) (.node k ps)))
    (kept : Kept [Weave.wrap (g :: gs) (.node k ps)]) (reads : Reads position chars f)
    (first : ∀ c, (spelling ps).head? = some c → c ∈ chars)
    (last : (spelling ps).getLast? = chars.getLast?) :
    ∃ ws, Good loose (Weave.wrap gs (g.fill ws)) ∧ Kept ws ∧ stored ws = keptCells chars ∧
      formsAt position ws = [f] := by
  obtain ⟨kept_left, kept_old, kept_right⟩ := kept_wrap.mp kept
  have good_old : Good false (.node k ps) := good.inner kept
  obtain ⟨first_old, last_old, ends⟩ := exists_ends kept_old good_old
  have solid_first : Text.isBlank first_old = false := by
    have kept_ps := kept_node.mp kept_old
    obtain ⟨c, head, solid⟩ := ((good_old.shape kept_ps).1.spelled kept_ps).solid_front
    have head' := ends.head_eq
    rw [spelling_node, head] at head'
    cases head'
    exact solid
  obtain ⟨bs, v, bs', first_new, last_new, composed⟩ := exists_composed reads
  obtain ⟨k', ps', v_eq⟩ := is_node_of_form composed.form
  refine ⟨pieces bs v bs', ?_, ?_, composed.stored_eq, composed.forms_eq⟩
  · refine Good.lift rfl v_eq ?_ composed.solid composed.blank composed.blank' ?_ (.inl ?_)
      composed.good good
    · intro none
      have final := ends.last_eq
      simp [none] at final
    · intro at_front z _ admitted
      rw [ends.front_eq] at admitted
      rw [composed.ends.front_eq]
      simp only [Gap.admits, Bool.not_eq_true', Bool.and_eq_false_iff] at admitted ⊢
      refine admitted.imp id fun not_atom => ?_
      by_contra begins
      have head := ends.head_eq
      rw [spelling_node] at head
      have inside := composed.in_atom at_front (by simpa using begins) (first _ head) solid_first
      rw [not_atom] at inside
      cases inside
    · intro z final
      rw [composed.stored_eq]
      have spelled : (spelling ps).getLast? = some z := by
        rw [cells_node] at final
        rw [spelling, List.getLast?_map, final]
        rfl
      rw [last] at spelled
      simp [EndsWith, keptCells, List.getLast?_map, spelled]
  · intro c mem
    rw [composed.stored_eq] at mem
    obtain ⟨d, -, rfl⟩ := List.mem_map.mp mem
    rfl

end FormEdit.Weave
