import FormEdit.Proofs.Weave.Carrying
import FormEdit.Proofs.Weave.Margins

/-!
# Reading one node of a marked weave

A node whose characters read as a form on their own is replaced by that form, and its marks are
gone. The nodes around it stay as they are, marks included: what is lost around the node is still
lost.
-/

namespace FormEdit.Weave

open Buffer Lexer FormEdit.Language

variable {lost lost' : Nat → Prop} {position : Nat}

theorem EndsWith.keptCells_shown {cells : List Cell} {last : Char} (ends : EndsWith cells last) :
    EndsWith (keptCells (shown cells)) last := by
  obtain ⟨rest, rfl⟩ := List.getLast?_eq_some_iff.mp ends
  simp [EndsWith, keptCells, shown_cons, Cell.isCurrent]

theorem EndsWith.getLast_shown {cells : List Cell} {last : Char} (ends : EndsWith cells last) :
    (shown cells).getLast? = some last := by
  obtain ⟨rest, rfl⟩ := List.getLast?_eq_some_iff.mp ends
  simp [shown_cons, Cell.isCurrent]

/-- A node is replaced by one of the same room: the marks around it are backed as before. -/
theorem Backed.wrap {v v' : Weave} {k : Kind} {ps : List Weave} (fs : List Frame)
    (v_eq : v = .node k ps) (same : v'.room = v.room) (is_node : ∃ k ps, v' = .node k ps)
    (around : ∀ x, lost x → x ≤ position + currentCount (Weave.left fs) ∨
      position + currentCount (Weave.left fs) + v.room ≤ x → lost' x)
    (inner : Backed lost (position + currentCount (Weave.left fs)) v →
      Backed lost' (position + currentCount (Weave.left fs)) v')
    (backed : Backed lost position (Weave.wrap fs v)) :
    Backed lost' position (Weave.wrap fs v') := by
  induction fs generalizing v v' k ps with
  | nil =>
    simpa [Weave.left, Weave.wrap] using inner (by simpa [Weave.left, Weave.wrap] using backed)
  | cons f fs ih =>
    obtain ⟨k', ps', v'_eq⟩ := is_node
    have start_eq : position + currentCount (Weave.left (f :: fs)) =
        position + currentCount (Weave.left fs) + width f.before := by
      rw [Weave.left, currentCount_append, Nat.add_assoc]
      rfl
    rw [start_eq] at around inner
    refine ih (v := f.fill [v]) rfl (by rw [room_fill, room_fill, same]) ⟨_, _, rfl⟩ ?_ ?_ backed
    · intro x is_lost side
      rw [room_fill] at side
      exact around x is_lost (by omega)
    · intro outer
      have child : Backed lost (position + currentCount (Weave.left fs) + width f.before) v :=
        backedEach_iff.mp (backed_node.mp outer).2 f.before v f.after (by simp)
      refine outer.fill rfl (beside_node v_eq rfl)
        (fun x near is_lost => around x is_lost (.inl near))
        ?_ ?_ (backedEach_cons.mpr ⟨inner child, backedEach_nil⟩)
      · intro x y late along is_lost
        simp only [width_cons, width_nil] at late along
        have unmoved : y = x := by omega
        rw [unmoved]
        exact around x is_lost (.inr (by omega))
      · rintro ⟨c, mem⟩
        rw [List.mem_singleton, v'_eq] at mem
        cases mem

/-- A node is replaced by weaves without marks, of the same room. -/
theorem Backed.unmark {old : Weave} {k : Kind} {ps ws : List Weave} (g : Frame) (gs : List Frame)
    (old_eq : old = .node k ps) (same : width ws = old.room) (unmarked : Unmarked ws)
    (around : ∀ x, lost x → x ≤ position + currentCount (Weave.left (g :: gs)) ∨
      position + currentCount (Weave.left (g :: gs)) + old.room ≤ x → lost' x)
    (backed : Backed lost position (Weave.wrap (g :: gs) old)) :
    Backed lost' position (Weave.wrap gs (g.fill ws)) := by
  have start_eq : position + currentCount (Weave.left (g :: gs)) =
      position + currentCount (Weave.left gs) + width g.before := by
    rw [Weave.left, currentCount_append, Nat.add_assoc]
    rfl
  have one : width [old] = old.room := by simp
  have same_room : (g.fill ws).room = (g.fill [old]).room := by simp [Frame.fill, same]
  rw [start_eq] at around
  refine Backed.wrap gs (v := g.fill [old]) rfl same_room ⟨_, _, rfl⟩ ?_ ?_ backed
  · intro x is_lost side
    rw [room_fill] at side
    exact around x is_lost (by omega)
  · intro outer
    refine outer.fill rfl (beside_node old_eq rfl)
      (fun x near is_lost => around x is_lost (.inl near))
      ?_ (fun marked => absurd marked (not_marked unmarked)) (backedEach_of_unmarked unmarked)
    intro x y late along is_lost
    rw [one] at late along
    have unmoved : y = x := by omega
    rw [unmoved]
    exact around x is_lost (.inr late)

/-- A node that reads on its own and does not run into what stands ahead of it is replaced by what
it reads as. -/
theorem exists_reread {loose : Bool} {g : Frame} {gs : List Frame} {old : Weave} {k : Kind}
    {ps : List Weave} {f : Form} (old_eq : old = .node k ps)
    (good : Good loose (wrap (g :: gs) old)) (backed : Backed lost position (wrap (g :: gs) old))
    (reads : Reads (position + currentCount (left (g :: gs))) (shown old.cells) f)
    (parted : Parted (shown (left (g :: gs))) (shown old.cells))
    (around : ∀ x, lost x → x ≤ position + currentCount (left (g :: gs)) ∨
      position + currentCount (left (g :: gs)) + old.room ≤ x → lost' x) :
    ∃ w', Good loose w' ∧ Backed lost' position w' ∧
      live w'.cells =
        live (left (g :: gs)) ++ keptCells (shown old.cells) ++ live (right (g :: gs)) ∧
      formsOf position w' = [Rose.plug (tagsAt position (g :: gs) old.room) f] := by
  obtain ⟨bs, v, bs', first, last, composed⟩ := exists_composed reads
  obtain ⟨k', ps', v_eq⟩ := is_node_of_form composed.form
  have pieces_cells := composed.stored_eq
  have pieces_width : width (pieces bs v bs') = old.room := by
    rw [width, pieces_cells, currentCount_keptCells, length_shown]
    rfl
  have pieces_current : Unmarked (pieces bs v bs') := by
    rw [Unmarked, pieces_cells]
    intro c mem
    obtain ⟨d, -, rfl⟩ := List.mem_map.mp mem
    rfl
  refine ⟨wrap gs (g.fill (pieces bs v bs')), ?_, ?_, ?_, ?_⟩
  · have around : Good loose (Weave.wrap gs (g.fill [old])) := good
    refine Good.lift old_eq v_eq ?_ composed.solid composed.blank composed.blank' ?_ ?_
      composed.good around
    · intro none
      exact reads.nonempty (by rw [none]; rfl)
    · intro at_front z ends _
      rw [composed.ends.front_eq]
      have apart := parted z first ends.getLast_shown (composed.head_eq at_front)
      simp [Gap.admits, apart]
    · refine .inl fun z ends => ?_
      rw [pieces_cells]
      exact ends.keptCells_shown
  · exact backed.unmark g gs old_eq pieces_width pieces_current around
  · have fill_cells : (g.fill (pieces bs v bs')).cells =
        stored g.before ++ stored (pieces bs v bs') ++ stored g.after := by
      simp [Frame.fill]
    rw [cells_wrap, fill_cells, pieces_cells, left, right]
    have kept : live (keptCells (shown old.cells)) = keptCells (shown old.cells) :=
      live_eq_self (by rwa [← pieces_cells])
    simp only [live_append, kept, List.append_assoc]
  · have plugged : formsAt position (plug (g :: gs) (pieces bs v bs')) = _ :=
      formsAt_plug composed.forms_eq
    rwa [plug_cons_wrap, formsAt_singleton, pieces_width] at plugged

end FormEdit.Weave
