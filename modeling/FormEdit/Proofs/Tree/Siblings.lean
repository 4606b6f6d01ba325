import FormEdit.Proofs.Tree.Links
import FormEdit.Tree.Navigation

/-!
# Siblings

Every live handle is that of a node in its place, and the siblings before and behind a node are
those next to its place.
-/

namespace FormEdit.Tree

open Rose Branch Slots

variable {t : Tree} {b : Branch} {h k : Handle}

/-- A live handle is that of a node in its place. -/
theorem Holds.exists_hole (holds : Holds t b) (live : t.contains h = true) :
    ∃ fs c, b = plug fs c ∧ handle c = h := by
  obtain ⟨n, found⟩ := contains_eq_true.mp live
  exact Branch.exists_hole (holds.full h n found)

/-- A stored node whose handle is in a branch is the one that the branch has for it. -/
theorem Bears.mem_preorder {n : Node} (bears : Bears t b) (mem : h ∈ handles b)
    (stored : t.nodes.get? h = some n) : (h, n) ∈ b.preorder := by
  obtain ⟨⟨k, m⟩, listed, rfl⟩ := List.mem_map.mp mem
  obtain ⟨fs, c, rfl, value⟩ := exists_plug listed
  have found : t.nodes.get? (handle c) = some c.value.2 := bears.hole.value
  rw [handle, value, stored] at found
  cases found
  exact listed

theorem Holds.mem_preorder {n : Node} (holds : Holds t b) (stored : t.nodes.get? h = some n) :
    (h, n) ∈ b.preorder :=
  holds.bears.mem_preorder (holds.full h n stored) stored

theorem Bears.siblings_root (bears : Bears t b) :
    t.siblingBefore (handle b) = .ok none ∧ t.siblingAfter (handle b) = .ok none := by
  simp [siblingBefore, siblingAfter, bears.seat_root]

variable {fs : List (Frame (Handle × Node))} {f : Frame (Handle × Node)} {c : Branch}

theorem Bears.siblings_listed (bears : Bears t (plug (f :: fs) c)) :
    t.children f.value.1 = .ok (f.before.map handle ++ handle c :: f.after.map handle) := by
  have parent : Bears t (plug fs (f.fill c)) := bears
  have listed : t.children f.value.1 = .ok ((f.before ++ c :: f.after).map handle) :=
    parent.hole.children_ok
  rw [listed, List.map_append, List.map_cons]

/-- The sibling before a node is the last one before its place. -/
theorem Bears.siblingBefore_eq (bears : Bears t (plug (f :: fs) c)) :
    t.siblingBefore (handle c) = .ok (f.before.getLast?.map handle) := by
  rw [siblingBefore, bears.seat_hole, ok_bind]
  rcases List.eq_nil_or_concat f.before with none_before | ⟨before, e, before_eq⟩
  · simp [none_before]
  · simp [bears.siblings_listed, before_eq]

/-- The sibling behind a node is the first one behind its place. -/
theorem Bears.siblingAfter_eq (bears : Bears t (plug (f :: fs) c)) :
    t.siblingAfter (handle c) = .ok (f.after.head?.map handle) := by
  rw [siblingAfter, bears.seat_hole, ok_bind]
  simp only [bears.siblings_listed, ok_bind, pure_eq_ok]
  rw [List.getElem?_append_right (by simp), List.length_map, Nat.add_sub_cancel_left]
  cases f.after <;> rfl

theorem contains_of_seat {seat : Option (Handle × Nat)} (found : t.seat h = .ok seat) :
    t.contains h = true := by
  obtain ⟨parent, up, -⟩ := bind_eq_ok.mp found
  obtain ⟨n, stored, -⟩ := bind_eq_ok.mp up
  exact contains_eq_true.mpr ⟨n, get_eq_ok.mp stored⟩

/-- A node with a parent stands in a frame. -/
theorem Holds.exists_frame {parent : Handle} (holds : Holds t b)
    (above : t.parent h = .ok (some parent)) :
    ∃ fs value before c after, b = plug fs (.node value (before ++ c :: after)) ∧ handle c = h ∧
      value.1 = parent := by
  obtain ⟨n, found, up⟩ := bind_eq_ok.mp above
  obtain ⟨fs, c, rfl, rfl⟩ := Branch.exists_hole (holds.full h n (Slots.get_eq_ok.mp found))
  have parent_eq := holds.hole.parent_ok.symm.trans above
  cases fs with
  | nil => cases parent_eq
  | cons f fs =>
    obtain ⟨value, before, after⟩ := f
    cases parent_eq
    exact ⟨fs, value, before, c, after, rfl, rfl, rfl⟩

/-- Siblings next to each other are so among the children of a node in its place. -/
theorem Holds.exists_siblings {earlier later : Handle} (holds : Holds t b)
    (siblings : t.siblingBefore later = .ok (some earlier) ∨
      t.siblingAfter earlier = .ok (some later)) :
    ∃ fs value before e l after, b = plug fs (.node value (before ++ e :: l :: after)) ∧
      handle e = earlier ∧ handle l = later := by
  rcases siblings with found | found
  · obtain ⟨seat, is_seat, -⟩ := bind_eq_ok.mp found
    obtain ⟨fs, l, rfl, rfl⟩ := holds.exists_hole (contains_of_seat is_seat)
    cases fs with
    | nil =>
      rw [plug_nil] at holds
      rw [holds.bears.siblings_root.1] at found
      cases found
    | cons f fs =>
      rw [holds.bears.siblingBefore_eq, Except.ok.injEq] at found
      obtain ⟨e, is_last, rfl⟩ := Option.map_eq_some_iff.mp found
      obtain ⟨before, before_eq⟩ := List.getLast?_eq_some_iff.mp is_last
      refine ⟨fs, f.value, before, e, l, f.after, ?_, rfl, rfl⟩
      rw [plug_cons, Frame.fill, before_eq, List.append_assoc]
      rfl
  · obtain ⟨seat, is_seat, -⟩ := bind_eq_ok.mp found
    obtain ⟨fs, e, rfl, rfl⟩ := holds.exists_hole (contains_of_seat is_seat)
    cases fs with
    | nil =>
      rw [plug_nil] at holds
      rw [holds.bears.siblings_root.2] at found
      cases found
    | cons f fs =>
      rw [holds.bears.siblingAfter_eq, Except.ok.injEq] at found
      obtain ⟨l, is_first, rfl⟩ := Option.map_eq_some_iff.mp found
      obtain ⟨after, after_eq⟩ := List.head?_eq_some_iff.mp is_first
      refine ⟨fs, f.value, f.before, e, l, after, ?_, rfl, rfl⟩
      rw [plug_cons, Frame.fill, after_eq]

end FormEdit.Tree
