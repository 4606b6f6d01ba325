import FormEdit.Document.Typing
import FormEdit.Proofs.Document.Rereading
import FormEdit.Proofs.Weave.Room

/-!
# Where a typed character goes

A character is typed into, or deleted from, the innermost node around it. A character outside of the
root is first taken into the root together with everything in between. Either way the node is then
found in the weave of the document with the position in none of its children, and the tree makes the
room that the weave asks for.
-/

namespace FormEdit.Document

open Rose Buffer Branch Weave FormEdit.Tree

variable {d : Document} {b : Branch} {position count : Nat}

/-- The node that a change at a position belongs to, in a weave between `before` and `behind`. -/
structure Site (t : Tree) (position count : Nat) (before : List Cell) (w : Weave)
    (fs : List (Rose.Frame (Handle × Node))) (b : Branch) (gs : List Weave.Frame) (kind : Kind)
    (parts : List Weave) : Prop where
  wrapped : wrap gs (.node kind parts) = w
  focus : Focus t (currentCount before) fs b gs (.node kind parts)
  after : currentCount before + currentCount (left gs) ≤ position
  enough : position + count ≤ currentCount before + currentCount (left gs) + width parts
  outside : ∀ f ∈ formsAt (currentCount before + currentCount (left gs)) parts,
    (Form.span f).contains position = false

theorem nodeAround_inside {before : List Cell} {w : Weave} (holds : Holds d.tree b)
    (form : formsOf (currentCount before) w = [Branch.form b]) (single : count ≤ 1)
    (inside : b.value.2.span.contains position = true) :
    ∃ fs node gs kind parts, d.nodeAround position count = .ok (handle node, d) ∧
      Site d.tree position count before w fs node gs kind parts ∧
      position < currentCount before + currentCount (left gs) + width parts := by
  have nested : (Branch.form b).Nested := nested_formsOf (by rw [form]; simp)
  rcases holds.bears.enclosing nested position with
    ⟨missed, -⟩ | ⟨fs, node, found, rfl, contains, none⟩
  · rw [missed] at inside
    cases inside
  · obtain ⟨gs, v, wrapped, focus⟩ := exists_focus holds form
    cases v with
    | cell c => exact absurd focus.form (by simp)
    | node kind parts =>
      have node_form := focus.form
      rw [formsOf_node] at node_form
      obtain ⟨tag, cs⟩ := node
      simp only [Branch.form, Rose.map_node, List.cons.injEq, and_true, Rose.node.injEq]
        at node_form
      obtain ⟨tag_eq, children⟩ := node_form
      have span_eq := congrArg Tag.span tag_eq
      simp only [Node.tag] at span_eq
      obtain ⟨after, before⟩ := Span.contains_iff.mp contains
      simp only [value_node, ← span_eq, Span.sized] at after before
      refine ⟨fs, _, gs, kind, parts, ?_, ⟨wrapped, focus, after, by omega, ?_⟩, before⟩
      · simp [nodeAround, found, handle]
      · intro f hf
        rw [children] at hf
        obtain ⟨c, hc, rfl⟩ := List.mem_map.mp hf
        have := none c hc
        rwa [← span_form] at this

/-- The cells beside the root that a change outside of it takes in. -/
theorem exists_reach {before behind : List Cell} {span : Span} {n : Nat} (single : count ≤ 1)
    (span_eq : span = Span.sized (currentCount before) n)
    (outside : span.contains position = false)
    (enough : position + count ≤ currentCount before + n + currentCount behind) :
    ∃ before' la ra behind', before = before' ++ la ∧ behind = ra ++ behind' ∧
      span.cover (Span.sized position count) =
        Span.sized (currentCount before') (currentCount la + n + currentCount ra) ∧
      currentCount before' ≤ position ∧
      position + count ≤ currentCount before' + (currentCount la + n + currentCount ra) := by
  subst span_eq
  rw [Span.contains_eq_false] at outside
  simp only [Span.sized] at outside
  by_cases ahead : position < currentCount before
  · obtain ⟨before', la, rfl, start, -⟩ := exists_firstSplit before (Nat.le_of_lt ahead)
    rw [currentCount_append] at ahead
    refine ⟨before', la, [], behind, rfl, rfl, Span.ext ?_ ?_, by omega, ?_⟩
    all_goals simp only [Span.cover, Span.sized, currentCount_append, currentCount_nil]
    all_goals omega
  · have within : position + count - (currentCount before + n) ≤ currentCount behind := by omega
    obtain ⟨ra, behind', rfl, stop, -⟩ := exists_firstSplit behind within
    refine ⟨before, [], ra, behind', by simp, rfl, Span.ext ?_ ?_, by omega, ?_⟩
    all_goals simp only [Span.cover, Span.sized, currentCount_nil]
    all_goals omega

theorem nodeAround_outside {before : List Cell} (behind : List Cell) {kind : Kind}
    {parts : List Weave} (holds : Holds d.tree b)
    (form : formsOf (currentCount before) (.node kind parts) = [Branch.form b]) (single : count ≤ 1)
    (outside : b.value.2.span.contains position = false)
    (enough : position + count ≤ currentCount before + width parts + currentCount behind) :
    ∃ before' la ra behind' tree node, before = before' ++ la ∧ behind = ra ++ behind' ∧
      d.nodeAround position count = .ok (handle node, { d with tree := tree, widened := true }) ∧
      Site tree position count before' (.node kind (la.map cell ++ parts ++ ra.map cell)) [] node []
        kind (la.map cell ++ parts ++ ra.map cell) ∧
      b.value.2.span.cover (Span.sized position count) =
        Span.sized (currentCount before') (width (la.map cell ++ parts ++ ra.map cell)) := by
  have nested : (Branch.form b).Nested := nested_formsOf (by rw [form]; simp)
  have missed : d.tree.enclosing position = .ok [] := by
    rcases holds.bears.enclosing nested position with ⟨-, missed⟩ | ⟨fs, node, -, rfl, contains, -⟩
    · exact missed
    · have within := hole_inside nested
      rw [Span.contains_iff] at contains
      have := Span.contains_eq_false.mp outside (by omega)
      omega
  have span : d.tree.span d.root = .ok b.value.2.span := span_root holds
  obtain ⟨⟨h, n⟩, cs⟩ := b
  have root_eq : d.root = h := holds.root.symm
  rw [formsOf_node] at form
  simp only [Branch.form, Rose.map_node, List.cons.injEq, and_true, Rose.node.injEq] at form
  obtain ⟨tag_eq, children⟩ := form
  have span_eq := congrArg Tag.span tag_eq
  have kind_eq := congrArg Tag.kind tag_eq
  simp only [Node.tag] at span_eq kind_eq
  obtain ⟨before', la, ra, behind', rfl, rfl, cover, low, high⟩ :=
    exists_reach single span_eq.symm outside enough
  have top : Holds d.tree (Rose.plug [] (.node (h, n) cs)) := holds
  obtain ⟨t', set, holds'⟩ := top.setSpan (n.span.cover (Span.sized position count))
  have width_eq : width (la.map cell ++ parts ++ ra.map cell) =
      currentCount la + width parts + currentCount ra := by
    simp only [width_append, width_map_cell]
  have forms_eq : formsAt (currentCount before') (la.map cell ++ parts ++ ra.map cell) =
      cs.map (Rose.map fun entry => entry.2.tag) := by
    rw [← children, currentCount_append]
    simp only [formsAt_append, formsAt_map_cell, List.nil_append, List.append_nil, width_map_cell]
  rw [root_eq] at span
  refine ⟨before', la, ra, behind', t', _, rfl, rfl, ?_, ⟨rfl, ⟨holds', ?_, rfl⟩, ?_, ?_, ?_⟩, ?_⟩
  · simp only [nodeAround, missed, ok_bind, List.getLast?_nil, root_eq, span, value_node, set,
      pure_eq_ok, handle_node]
  · rw [left, currentCount_nil, Nat.add_zero, formsOf_node, forms_eq, width_eq]
    simp only [Branch.form, Rose.map_node, Node.tag, cover, kind_eq]
  · simpa [left] using low
  · rw [left, currentCount_nil, width_eq]
    exact high
  · -- The children lie inside of the root, which does not contain the position.
    intro f hf
    rw [left, currentCount_nil, Nat.add_zero, forms_eq, ← children] at hf
    obtain ⟨-, start, stop⟩ := formsAt_inside hf
    rw [Span.contains_eq_false] at outside ⊢
    simp only [value_node, ← span_eq, Span.sized] at outside
    omega
  · rw [width_eq]
    exact cover

/-- The room that a change takes. -/
theorem makeRoom_spec {fs : List (Rose.Frame (Handle × Node))} {gs : List Weave.Frame} {start : Nat}
    {kind : Kind} {us vs : List Weave} {old new : List Cell} {seam : Nat} {distance : Int}
    (focus : Focus d.tree start fs b gs (.node kind (us ++ old.map cell ++ vs)))
    (grows : (currentCount new : Int) = currentCount old + distance)
    (ahead : ∀ f ∈ formsAt (start + currentCount (left gs)) us, (Form.span f).start < seam)
    (behind : seam ≤ start + currentCount (left gs) + width us + currentCount old)
    (fits : start + (currentCount (left gs) + width (us ++ new.map cell ++ vs) +
      currentCount (right gs)) < positionLimit) :
    ∃ tree fs' b', d.makeRoom (handle b) seam distance = .ok { d with tree := tree } ∧
      handle b' = handle b ∧
      Focus tree start fs' b' gs (.node kind (us ++ new.map cell ++ vs)) := by
  obtain ⟨⟨h, n⟩, cs⟩ := b
  obtain ⟨t₁, t₂, t₃, fs', b', stretched, moved, successors, handle_eq, focus'⟩ :=
    focus.room rfl grows ahead behind fits
  refine ⟨t₃, fs', b', ?_, handle_eq, focus'⟩
  simp only [makeRoom, handle_node, stretched, ok_bind, moved, successors, pure_eq_ok]

end FormEdit.Document
