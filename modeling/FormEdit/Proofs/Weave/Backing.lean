import FormEdit.Proofs.Buffer.Losses
import FormEdit.Proofs.Weave.Lifting
import FormEdit.Proofs.Weave.Room

/-!
# Marks for lost characters

A deleted cell in a weave marks its node as changed. The marks need not stand where the deleted
characters are stored, but each of them is backed by a loss: a position in the range of the node,
its ends included, that is not strictly inside of one of its children. So where nothing is lost
there are no marks, and every node has its shape.

A change of one node carries through the nodes around it (`Carries.wrap`). Where it takes away the
last character of the node, the nodes that end there with it are marked as well.
-/

namespace FormEdit.Weave

open Buffer

variable {lost lost' : Nat → Prop} {position position' : Nat}

/-- One of the parts is a deleted cell. -/
def Marked (parts : List Weave) : Prop := ∃ c, .cell ⟨c, .deleted⟩ ∈ parts

/-- A position among the parts of a node that is not strictly inside of a child. -/
structure Among (x position : Nat) (parts : List Weave) : Prop where
  start : position ≤ x
  stop : x ≤ position + width parts
  outside : ∀ f ∈ formsAt position parts, x ≤ (Form.span f).start ∨ (Form.span f).stop ≤ x

mutual

/-- Every mark in a weave that starts at a position is backed by a loss. -/
def Backed (lost : Nat → Prop) : Nat → Weave → Prop
  | _, .cell _ => True
  | position, .node _ parts =>
    (Marked parts → ∃ x, lost x ∧ Among x position parts) ∧ BackedEach lost position parts

/-- `Backed` of weaves one after the other. -/
def BackedEach (lost : Nat → Prop) : Nat → List Weave → Prop
  | _, [] => True
  | position, w :: ws => Backed lost position w ∧ BackedEach lost (position + w.room) ws

end

@[simp] theorem backed_cell (c : Cell) : Backed lost position (.cell c) := by
  rw [Backed]
  trivial

theorem backed_node {kind : Kind} {parts : List Weave} : Backed lost position (.node kind parts) ↔
    (Marked parts → ∃ x, lost x ∧ Among x position parts) ∧ BackedEach lost position parts := by
  rw [Backed]

@[simp] theorem backedEach_nil : BackedEach lost position [] := by
  rw [BackedEach]
  trivial

theorem backedEach_cons {w : Weave} {ws : List Weave} : BackedEach lost position (w :: ws) ↔
    Backed lost position w ∧ BackedEach lost (position + w.room) ws := by
  rw [BackedEach]

theorem backedEach_append {us ws : List Weave} : BackedEach lost position (us ++ ws) ↔
    BackedEach lost position us ∧ BackedEach lost (position + width us) ws := by
  induction us generalizing position with
  | nil => simp
  | cons u us ih =>
    rw [List.cons_append, backedEach_cons, backedEach_cons, ih, width_cons, Nat.add_assoc,
      and_assoc]

/-- Each of several weaves is backed where it stands. -/
theorem backedEach_iff {ws : List Weave} : BackedEach lost position ws ↔
    ∀ us w vs, ws = us ++ w :: vs → Backed lost (position + width us) w := by
  constructor
  · rintro each us w vs rfl
    exact (backedEach_cons.mp (backedEach_append.mp each).2).1
  · intro each
    induction ws generalizing position with
    | nil => simp
    | cons w ws ih =>
      refine backedEach_cons.mpr ⟨each [] w ws rfl, ih fun us v vs split => ?_⟩
      have later := each (w :: us) v vs (by rw [split]; rfl)
      rwa [width_cons, ← Nat.add_assoc] at later

theorem backedEach_cells (cs : List Cell) : BackedEach lost position (cs.map cell) := by
  induction cs generalizing position with
  | nil => simp
  | cons c cs ih => exact backedEach_cons.mpr ⟨backed_cell c, ih⟩

/-- A weave stays backed where the losses move along with it. -/
def Follows (lost lost' : Nat → Prop) (w : Weave) : Prop :=
  ∀ position position', Backed lost position w →
    (∀ n ≤ w.room, lost (position + n) → lost' (position' + n)) → Backed lost' position' w

theorem backedEach_follows {ws : List Weave} (each : ∀ w ∈ ws, Follows lost lost' w)
    (backed : BackedEach lost position ws)
    (along : ∀ n ≤ width ws, lost (position + n) → lost' (position' + n)) :
    BackedEach lost' position' ws := by
  induction ws generalizing position position' with
  | nil => simp
  | cons w ws ih =>
    rw [backedEach_cons] at backed ⊢
    rw [width_cons] at along
    refine ⟨each w (by simp) _ _ backed.1 fun n hn => along n (by omega), ?_⟩
    refine ih (fun v hv => each v (by simp [hv])) backed.2 ?_
    intro n hn is_lost
    have := along (w.room + n) (by omega) (by rwa [← Nat.add_assoc])
    rwa [← Nat.add_assoc] at this

theorem follows (lost lost' : Nat → Prop) (w : Weave) : Follows lost lost' w := by
  induction w using Weave.induction with
  | cell c => simp [Follows]
  | node kind parts ih =>
    intro position position' backed along
    rw [backed_node] at backed ⊢
    rw [room_node] at along
    refine ⟨fun marked => ?_, backedEach_follows ih backed.2 along⟩
    obtain ⟨x, is_lost, start, stop, outside⟩ := backed.1 marked
    refine ⟨position' + (x - position), along _ (by omega) ?_, by omega, by omega, ?_⟩
    · rwa [Nat.add_sub_of_le start]
    · intro f mem
      rw [formsAt_moved position position'] at mem
      obtain ⟨g, listed, rfl⟩ := List.mem_map.mp mem
      have low := (formsAt_inside listed).2.1
      have apart := outside g listed
      have order := g.span.start_le_stop
      simp only [Form.span_moved, Span.moved]
      omega

theorem BackedEach.moved {ws : List Weave} (backed : BackedEach lost position ws)
    (along : ∀ n ≤ width ws, lost (position + n) → lost' (position' + n)) :
    BackedEach lost' position' ws :=
  backedEach_follows (fun w _ => follows lost lost' w) backed along

/-! ## Where there are no marks -/

theorem Shape.exists_kept {loose : Bool} {kind : Kind} {parts : List Weave}
    (shape : Shape loose kind parts) : ∃ c, .cell ⟨c, .kept⟩ ∈ parts := by
  obtain ⟨s, ran, complete⟩ := shape
  induction parts with
  | nil =>
    cases ran
    cases kind <;> cases complete
  | cons w parts ih =>
    rw [run_cons_eq_some] at ran
    obtain ⟨m, stepped, ran⟩ := ran
    cases w with
    | node k ps => cases kind <;> cases stepped
    | cell c =>
      obtain ⟨c, status⟩ := c
      cases status with
      | kept => exact ⟨c, by simp⟩
      | inserted =>
        cases stepped
        obtain ⟨c, mem⟩ := ih ran
        exact ⟨c, by simp [mem]⟩
      | deleted => cases stepped

theorem mem_stored {parts : List Weave} {c : Cell} (mem : .cell c ∈ parts) : c ∈ stored parts :=
  List.mem_flatMap.mpr ⟨.cell c, mem, by simp⟩

theorem Good.solid {loose : Bool} {kind : Kind} {parts : List Weave}
    (good : Good loose (.node kind parts)) : (node kind parts).cells ≠ [] := by
  rw [cells_node]
  cases good with
  | changed marked => exact List.ne_nil_of_mem (mem_stored marked)
  | shaped shape each =>
    obtain ⟨c, kept⟩ := shape.exists_kept
    exact List.ne_nil_of_mem (mem_stored kept)

/-- A good node without characters is marked. -/
theorem Good.lost_of_empty {loose : Bool} {kind : Kind} {parts : List Weave}
    (good : Good loose (.node kind parts)) (backed : Backed lost position (.node kind parts))
    (empty : (node kind parts).room = 0) : lost position := by
  rw [room_node] at empty
  cases good with
  | changed marked =>
    obtain ⟨x, is_lost, start, stop, -⟩ := (backed_node.mp backed).1 ⟨_, marked⟩
    have here : x = position := by omega
    rwa [here] at is_lost
  | shaped shape each =>
    obtain ⟨c, kept⟩ := shape.exists_kept
    have positive : 0 < width parts := List.countP_pos_iff.mpr ⟨_, mem_stored kept, rfl⟩
    omega

/-- The weaves have no marks. -/
def Unmarked (ws : List Weave) : Prop := ∀ c ∈ stored ws, c.isCurrent = true

theorem not_marked {parts : List Weave} (unmarked : Unmarked parts) : ¬Marked parts := by
  rintro ⟨c, mem⟩
  have current := unmarked _ (mem_stored mem)
  cases current

theorem Unmarked.mem {ws : List Weave} (unmarked : Unmarked ws) {w : Weave} (mem : w ∈ ws) :
    Unmarked [w] := by
  intro c inside
  exact unmarked c (List.mem_flatMap.mpr ⟨w, mem, by simpa using inside⟩)

theorem backed_of_unmarked {w : Weave} :
    ∀ {position : Nat}, Unmarked [w] → Backed lost position w := by
  induction w using Weave.induction with
  | cell c => simp
  | node kind parts ih =>
    intro position unmarked
    have inner : Unmarked parts := by simpa [Unmarked] using unmarked
    refine backed_node.mpr ⟨fun marked => absurd marked (not_marked inner), backedEach_iff.mpr ?_⟩
    rintro us w vs rfl
    exact ih w (by simp) (inner.mem (by simp))

theorem backedEach_of_unmarked {ws : List Weave} (unmarked : Unmarked ws) :
    BackedEach lost position ws := by
  refine backedEach_iff.mpr ?_
  rintro us w vs rfl
  exact backed_of_unmarked (unmarked.mem (by simp))

/-- Where nothing is lost there are no marks. -/
theorem unmarked_of_backed {w : Weave} (none : ∀ x, ¬lost x) : ∀ {position : Nat} {kind : Kind}
    {parts : List Weave}, w = .node kind parts → Backed lost position w → Unmarked parts := by
  induction w using Weave.induction with
  | cell c => rintro position kind parts ⟨⟩
  | node kind parts ih =>
    rintro position _ _ ⟨⟩ backed
    obtain ⟨own, each⟩ := backed_node.mp backed
    intro c mem
    obtain ⟨w, listed, inside⟩ := List.mem_flatMap.mp mem
    obtain ⟨us, vs, rfl⟩ := List.append_of_mem listed
    cases w with
    | node k ps =>
      exact ih _ listed rfl (backedEach_iff.mp each us _ vs rfl) c (by simpa using inside)
    | cell d =>
      obtain ⟨d, status⟩ := d
      rw [cells_cell, List.mem_singleton] at inside
      subst inside
      cases status with
      | kept => rfl
      | inserted => rfl
      | deleted =>
        obtain ⟨x, is_lost, -⟩ := own ⟨d, listed⟩
        exact absurd is_lost (none x)

end FormEdit.Weave
