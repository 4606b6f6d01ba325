import FormEdit.Proofs.Buffer.Committed
import FormEdit.Proofs.Weave.Basic

/-!
# Nodes in the current and in the committed text

A node of a weave takes up a stretch of the current text and one of the committed text. When a node
changes, the nodes ahead of it stay where they are in both, those behind it move, and those around
it grow or shrink: `places_wrap` carries a property of places from before such a change to after it.
-/

namespace FormEdit.Weave

open Buffer

variable {p q : Nat} {us ws parts : List Weave}

/-- The number of committed characters of weaves. -/
def oldWidth (ws : List Weave) : Nat := (original (stored ws)).length

@[simp] theorem oldWidth_nil : oldWidth [] = 0 := rfl

@[simp] theorem oldWidth_append (us ws : List Weave) :
    oldWidth (us ++ ws) = oldWidth us + oldWidth ws := by
  simp [oldWidth]

theorem oldWidth_cons (w : Weave) (ws : List Weave) :
    oldWidth (w :: ws) = oldWidth [w] + oldWidth ws :=
  oldWidth_append [w] ws

@[simp] theorem oldWidth_node (kind : Kind) (parts : List Weave) :
    oldWidth [node kind parts] = oldWidth parts := by
  simp [oldWidth]

@[simp] theorem oldWidth_map_cell (cells : List Cell) :
    oldWidth (cells.map cell) = (original cells).length := by
  simp [oldWidth]

/-- Where a node stands in the current and in the committed text. -/
structure Place where
  start : Nat
  length : Nat
  oldStart : Nat
  oldLength : Nat

/-- The same place further on. -/
def Place.shift (x : Place) (distance oldDistance : Nat) : Place :=
  ⟨distance + x.start, x.length, oldDistance + x.oldStart, x.oldLength⟩

mutual

/-- The places of the nodes in a weave with `p` current and `q` committed characters ahead of it. -/
def placesOf : Nat → Nat → Weave → List Place
  | _, _, .cell _ => []
  | p, q, .node _ parts => ⟨p, width parts, q, oldWidth parts⟩ :: placesAt p q parts

/-- The places of the nodes in weaves one after the other. -/
def placesAt : Nat → Nat → List Weave → List Place
  | _, _, [] => []
  | p, q, w :: ws => placesOf p q w ++ placesAt (p + w.room) (q + oldWidth [w]) ws

end

@[simp] theorem placesOf_cell (c : Cell) : placesOf p q (.cell c) = [] := by
  rw [placesOf]

theorem placesOf_node (kind : Kind) (parts : List Weave) :
    placesOf p q (.node kind parts) =
      ⟨p, width parts, q, oldWidth parts⟩ :: placesAt p q parts := by
  rw [placesOf]

@[simp] theorem placesAt_nil : placesAt p q [] = [] := by
  rw [placesAt]

theorem placesAt_cons (w : Weave) (ws : List Weave) :
    placesAt p q (w :: ws) = placesOf p q w ++ placesAt (p + w.room) (q + oldWidth [w]) ws := by
  rw [placesAt]

@[simp] theorem placesAt_singleton (w : Weave) : placesAt p q [w] = placesOf p q w := by
  rw [placesAt_cons, placesAt_nil, List.append_nil]

theorem placesAt_append (us ws : List Weave) :
    placesAt p q (us ++ ws) = placesAt p q us ++ placesAt (p + width us) (q + oldWidth us) ws := by
  induction us generalizing p q with
  | nil => simp
  | cons u us ih =>
    rw [List.cons_append, placesAt_cons, placesAt_cons, ih, width_cons, oldWidth_cons u us,
      List.append_assoc, Nat.add_assoc, Nat.add_assoc]

@[simp] theorem placesAt_cells (cells : List Cell) : placesAt p q (cells.map cell) = [] := by
  induction cells generalizing p q with
  | nil => simp
  | cons c cells ih => rw [List.map_cons, placesAt_cons, ih, placesOf_cell, List.append_nil]

/-- Where weaves start is all that the places of their nodes depend on. -/
theorem placesOf_shift (w : Weave) : ∀ p q p' q' : Nat,
    placesOf (p' + p) (q' + q) w = (placesOf p q w).map (Place.shift · p' q') := by
  induction w using Weave.induction with
  | cell c => simp
  | node kind parts ih =>
    intro p q p' q'
    have each (ws : List Weave) (sub : ∀ w ∈ ws, w ∈ parts) (p q : Nat) :
        placesAt (p' + p) (q' + q) ws = (placesAt p q ws).map (Place.shift · p' q') := by
      induction ws generalizing p q with
      | nil => simp
      | cons w ws ihws =>
        rw [placesAt_cons, placesAt_cons, List.map_append, ih w (sub w (by simp)), Nat.add_assoc,
          Nat.add_assoc, ihws fun v mem => sub v (by simp [mem])]
    rw [placesOf_node, placesOf_node, List.map_cons, each parts fun _ mem => mem]
    rfl

theorem placesAt_shift (p' q' : Nat) (ws : List Weave) :
    placesAt (p' + p) (q' + q) ws = (placesAt p q ws).map (Place.shift · p' q') := by
  have inside := placesOf_shift (.node .list ws) p q p' q'
  rw [placesOf_node, placesOf_node, List.map_cons, List.cons.injEq] at inside
  exact inside.2

theorem mem_placesAt_start {x : Place} :
    x ∈ placesAt p q ws ↔ ∃ y ∈ placesAt 0 0 ws, y.shift p q = x := by
  have moved := placesAt_shift (p := 0) (q := 0) p q ws
  rw [Nat.add_zero, Nat.add_zero] at moved
  rw [moved, List.mem_map]

/-- The place lies inside of a stretch of the current text and one of the committed text. -/
structure Place.Within (x : Place) (p n q m : Nat) : Prop where
  start : p ≤ x.start
  stop : x.start + x.length ≤ p + n
  oldStart : q ≤ x.oldStart
  oldStop : x.oldStart + x.oldLength ≤ q + m

theorem placesAt_within {x : Place} (mem : x ∈ placesAt p q ws) :
    x.Within p (width ws) q (oldWidth ws) := by
  have each (w : Weave) : ∀ p q, x ∈ placesOf p q w → x.Within p w.room q (oldWidth [w]) := by
    induction w using Weave.induction with
    | cell c => simp
    | node kind parts ih =>
      intro p q mem
      have inner (ws : List Weave) (sub : ∀ w ∈ ws, w ∈ parts) (p q : Nat)
          (mem : x ∈ placesAt p q ws) : x.Within p (width ws) q (oldWidth ws) := by
        induction ws generalizing p q with
        | nil => simp at mem
        | cons w ws ihws =>
          rw [width_cons, oldWidth_cons]
          rw [placesAt_cons, List.mem_append] at mem
          rcases mem with mem | mem
          · obtain ⟨_, _, _, _⟩ := ih w (sub w (by simp)) p q mem
            constructor <;> omega
          · obtain ⟨_, _, _, _⟩ := ihws (fun v mem => sub v (by simp [mem])) _ _ mem
            constructor <;> omega
      rw [room_node, oldWidth_node]
      rw [placesOf_node, List.mem_cons] at mem
      rcases mem with rfl | mem
      · exact ⟨Nat.le_refl _, Nat.le_refl _, Nat.le_refl _, Nat.le_refl _⟩
      · exact inner parts (fun _ mem => mem) p q mem
  have whole := each (.node .list ws) p q (by rw [placesOf_node]; exact List.mem_cons_of_mem _ mem)
  rwa [room_node, oldWidth_node] at whole

/-! ## In a hole -/

/-- The nodes in a hole are among those of the whole weave, and not its root. -/
theorem places_hole {x : Place} {w : Weave} (gs : List Frame)
    (mem : x ∈ (placesOf (p + currentCount (left gs)) (q + (original (left gs)).length) w).tail) :
    x ∈ (placesOf p q (wrap gs w)).tail := by
  induction gs generalizing w with
  | nil => simpa [left, wrap] using mem
  | cons g gs ih =>
    refine ih ?_
    rw [left, currentCount_append, original_append, List.length_append, ← Nat.add_assoc,
      ← Nat.add_assoc] at mem
    rw [Frame.fill, placesOf_node, List.tail_cons, placesAt_append, placesAt_append,
      placesAt_singleton]
    exact List.mem_append_left _ (List.mem_append_right _ (List.mem_of_mem_tail mem))

/-- The node in a hole has its place. -/
theorem place_mem (g : Frame) (gs : List Frame) (kind : Kind) (parts : List Weave) :
    ⟨p + currentCount (left (g :: gs)), width parts, q + (original (left (g :: gs))).length,
      oldWidth parts⟩ ∈ (placesOf p q (wrap (g :: gs) (.node kind parts))).tail := by
  refine places_hole gs ?_
  rw [Frame.fill, placesOf_node, List.tail_cons, placesAt_append, placesAt_append,
    placesAt_singleton, placesOf_node, left, currentCount_append, original_append,
    List.length_append, ← Nat.add_assoc, ← Nat.add_assoc]
  exact List.mem_append_left _ (List.mem_append_right _ (List.mem_cons_self ..))

/-! ## Around a node that changes -/

/-- A property of places is carried over a change of one node: by the nodes ahead of it, behind it
and around it, and by those inside of it. The root itself is left out. -/
theorem places_wrap {P P' : Place → Prop} {kind : Kind} {parts parts' : List Weave} {s t : Nat}
    (gs : List Frame) (start : p + currentCount (left gs) = s)
    (oldStart : q + (original (left gs)).length = t)
    (ahead : ∀ x, x.start + x.length ≤ s → x.oldStart + x.oldLength ≤ t → P x → P' x)
    (behind : gs ≠ [] → ∀ x : Place, P (x.shift (s + width parts) (t + oldWidth parts)) →
      P' (x.shift (s + width parts') (t + oldWidth parts')))
    (around : gs ≠ [] → ∀ first old n m n' m', first + n = s → old + m = t →
      P ⟨first, n + width parts + n', old, m + oldWidth parts + m'⟩ →
      P' ⟨first, n + width parts' + n', old, m + oldWidth parts' + m'⟩)
    (inner : (∀ x ∈ placesAt s t parts, P x) → ∀ x ∈ placesAt s t parts', P' x)
    (each : ∀ x ∈ (placesOf p q (wrap gs (.node kind parts))).tail, P x) :
    ∀ x ∈ (placesOf p q (wrap gs (.node kind parts'))).tail, P' x := by
  induction gs generalizing kind parts parts' s t with
  | nil =>
    simp only [left, currentCount_nil, original_nil, List.length_nil, Nat.add_zero]
      at start oldStart
    subst start oldStart
    simp only [wrap, placesOf_node, List.tail_cons] at each ⊢
    exact inner each
  | cons g gs ih =>
    rw [left, currentCount_append, ← Nat.add_assoc] at start
    rw [left, original_append, List.length_append, ← Nat.add_assoc] at oldStart
    have width_eq : currentCount (stored g.before) = width g.before := rfl
    have oldWidth_eq : (original (stored g.before)).length = oldWidth g.before := rfl
    have widths (ws : List Weave) : width (g.before ++ [.node kind ws] ++ g.after) =
        width g.before + width ws + width g.after := by
      simp [Nat.add_assoc]
    have oldWidths (ws : List Weave) : oldWidth (g.before ++ [.node kind ws] ++ g.after) =
        oldWidth g.before + oldWidth ws + oldWidth g.after := by
      rw [oldWidth_append, oldWidth_append, oldWidth_node]
    have outer : ∀ x ∈ (placesOf p q (wrap gs
        (.node g.kind (g.before ++ [.node kind parts] ++ g.after)))).tail, P x := each
    refine ih rfl rfl ?_ ?_ ?_ ?_ outer
    · intro x stop oldStop
      exact ahead x (by omega) (by omega)
    · intro _ x
      have moved := behind (by simp) (x.shift (width g.after) (oldWidth g.after))
      simp only [Place.shift, widths, oldWidths, ← start, ← oldStart, width_eq, oldWidth_eq,
        ← Nat.add_assoc] at moved ⊢
      exact moved
    · intro _ first old n m n' m' first_eq old_eq
      have grown :=
        around (by simp) first old (n + width g.before) (m + oldWidth g.before) (width g.after + n')
          (oldWidth g.after + m') (by omega) (by omega)
      rw [widths, widths, oldWidths, oldWidths]
      simp only [← Nat.add_assoc] at grown ⊢
      exact grown
    · intro known x mem
      rw [placesAt_append, placesAt_append, width_append, oldWidth_append, placesAt_singleton,
        placesOf_node] at mem known
      simp only [width_cons, width_nil, room_node, oldWidth_node, Nat.add_zero, ← width_eq,
        ← oldWidth_eq, ← Nat.add_assoc, start, oldStart] at mem known
      rcases List.mem_append.mp mem with mem | mem
      · rcases List.mem_append.mp mem with mem | mem
        · obtain ⟨_, stop, _, oldStop⟩ := placesAt_within mem
          exact ahead x (by omega) (by omega) (known x (by simp [mem]))
        · rcases List.mem_cons.mp mem with rfl | mem
          · have own := around (by simp) s t 0 0 0 0 rfl rfl
            simp only [Nat.zero_add, Nat.add_zero] at own
            exact own (known _ (by simp))
          · exact inner (fun y mem => known y (by simp [mem])) x mem
      · obtain ⟨y, listed, rfl⟩ := mem_placesAt_start.mp mem
        exact behind (by simp) y
          (known _ (List.mem_append_right _ (mem_placesAt_start.mpr ⟨y, listed, rfl⟩)))

end FormEdit.Weave
