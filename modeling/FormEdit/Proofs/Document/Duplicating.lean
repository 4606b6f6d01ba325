import FormEdit.Proofs.Document.Rearranging
import FormEdit.Proofs.Tree.Routes

/-!
# Copying siblings

A child of a list is copied whatever stands around it, comments included: it begins and ends at the
edges of tokens, and the blank keeps it and its copy apart, so everything is read as before and the
list has one more child. The child of a quote is never copied, since a quote takes no second one.
-/

namespace FormEdit

open Rose Buffer Branch FormEdit.Language FormEdit.Tree

namespace Rose

variable {α : Type}

/-- Entry `index` of a list is put in once more behind itself. -/
def repeatAt : Nat → List α → List α
  | 0, a :: rest => a :: a :: rest
  | index + 1, a :: rest => a :: repeatAt index rest
  | _, [] => []

theorem repeatAt_length (before : List α) (a : α) (after : List α) :
    repeatAt before.length (before ++ a :: after) = before ++ a :: a :: after := by
  induction before with
  | nil => rfl
  | cons x before ih => rw [List.cons_append, List.length_cons, repeatAt, ih, List.cons_append]

/-- A child of the node at a route is put in once more behind itself. -/
def repeatUnder (index : Nat) : Route → Rose α → Rose α :=
  changeAt fun t => .node t.value (repeatAt index t.children)

theorem repeatUnder_plug (fs : List (Frame α)) (a : α) (before : List (Rose α)) (t : Rose α)
    (after : List (Rose α)) :
    repeatUnder before.length (routeOf fs) (plug fs (.node a (before ++ t :: after))) =
      plug fs (.node a (before ++ t :: t :: after)) := by
  rw [repeatUnder, changeAt_plug, value_node, children_node, repeatAt_length]

end Rose

namespace Document

variable {d : Document} {fs fs' : List (Frame (Handle × Node))} {value : Handle × Node}
  {before after : List Branch} {c c' : Branch}

/-- Making room moves spans only. -/
theorem shape_roomTags (distance : Int) (g : Frame Tag) :
    (roomTags distance g).map Tag.kind = g.map Tag.kind := by
  simp only [roomTags, Frame.map, List.map_map, Frame.mk.injEq, true_and]
  exact List.map_congr_left fun f _ => Form.shape_moved distance f

/-- The tree with the copy: its kinds are those of the old one, with the child repeated. -/
theorem shape_copied {count : Nat} {span : Span} (is_list : value.2.kind = .list)
    (tags_eq : tags fs' = (tags fs).map (roomTags count))
    (form : Branch.form c' = .node ⟨.list, span⟩
      (before.map Branch.form ++ copied (Branch.form c) (after.map Branch.form))) :
    (Branch.form (plug fs' c')).shape = repeatUnder before.length (routeOf fs)
      (Branch.form (plug fs (.node value (before ++ c :: after)))).shape := by
  have route_eq : routeOf ((tags fs).map (Frame.map Tag.kind)) = routeOf fs := by
    rw [routeOf_map, tags, routeOf_map]
  have length : ((before.map Branch.form).map (Rose.map Tag.kind)).length = before.length := by simp
  have frames_eq : ((tags fs).map (roomTags count)).map (Frame.map Tag.kind) =
      (tags fs).map (Frame.map Tag.kind) := by
    rw [List.map_map]
    exact List.map_congr_left fun g _ => shape_roomTags count g
  have still (f : Form) : (Form.moved ((Branch.form c).span.length + 1 : Nat) f).map Tag.kind =
      f.map Tag.kind := Form.shape_moved _ f
  have behind : (after.map Branch.form).map (Rose.map Tag.kind ∘
      Form.moved ((Branch.form c).span.length + 1 : Nat)) =
      (after.map Branch.form).map (Rose.map Tag.kind) := List.map_congr_left fun f _ => still f
  simp only [form_plug, form, form_node, is_list, Form.shape, map_plug, map_node, tags_eq,
    frames_eq, copied, List.map_append, List.map_cons, List.map_map (f := Form.moved _),
    still, behind]
  rw [← route_eq, ← length, repeatUnder_plug]

theorem duplicate_eq (holds : Holds d.tree (plug fs (.node value (before ++ c :: after)))) :
    d.duplicate parenthesised (handle c) = (do
      let (root, d) ← d.copyChild parenthesised value.1 (handle c)
      pure (.ok root, d)) := by
  have at_c : Holds d.tree (plug (⟨value, before, after⟩ :: fs) c) := holds
  have parent : d.tree.parent (handle c) = .ok (some value.1) := at_c.hole.parent_ok
  rw [Document.duplicate, if_pos at_c.hole.contains, parent, ok_bind]

/-- In a document without pending changes that is in step with its text, comments and all, a child
of a list is copied behind itself, with a blank in between, and nothing else changes but positions.
A child of a quote is not copied, and nothing changes at all. -/
theorem children_of_lists_are_copied (d : Document) (linked : d.WellLinked)
    (settled : d.isSettled = true) (in_step : d.InStep) {h parent : Handle}
    (fits : (Rearrangement.duplicate h).Fits d) (above : d.tree.parent h = .ok (some parent)) :
    ∃ span n, d.tree.span h = .ok span ∧ d.tree.node parent = .ok n ∧
      (n.kind = .list ∧ (∃ root d', d.duplicate parenthesised h = .ok (.ok (some root), d') ∧
          d'.text.current = d.text.current.take span.stop ++ ' ' ::
            (d.text.current.drop span.start).take span.length ++ d.text.current.drop span.stop ∧
          ∃ route index f f', d.tree.route h = .ok (route ++ [index]) ∧
            d.tree.form d.root = .ok f ∧ d'.tree.form d'.root = .ok f' ∧
            f'.shape = repeatUnder index route f.shape) ∨
        n.kind = .quote ∧ d.duplicate parenthesised h = .ok (.ok none, d)) := by
  have short : d.text.currentLength < positionLimit :=
    Nat.lt_of_le_of_lt (Nat.le_add_right _ _) fits
  obtain ⟨b, resting⟩ := exists_resting linked settled in_step short
  obtain ⟨fs, value, before, c, after, rfl, rfl, rfl⟩ := resting.holds.exists_frame above
  have at_c : Holds d.tree (plug (⟨value, before, after⟩ :: fs) c) := resting.holds
  have span_c : d.tree.span (handle c) = .ok c.value.2.span := at_c.hole.span_eq
  have node : d.tree.node value.1 = .ok value.2 := resting.holds.hole.node_eq
  have growth : (Rearrangement.duplicate (handle c)).growth d = c.value.2.span.length + 1 := by
    rw [Rearrangement.growth, span_c]
  rw [Rearrangement.Fits, growth] at fits
  obtain ⟨text, tree, copying⟩ := resting.laid.exists_copying fits
  have duplicate := duplicate_eq resting.holds
  refine ⟨c.value.2.span, value.2, span_c, node, ?_⟩
  by_cases is_list : value.2.kind = .list
  · obtain ⟨root, d', fs', c', span, ran, current, -, resting', tags_eq, form⟩ :=
      copying.accepted resting fits is_list
    refine .inl ⟨is_list, root, d', by rw [duplicate, ran]; rfl, current, routeOf fs, before.length,
      _, _, at_c.bears.route, resting.holds.form, resting'.holds.form,
      shape_copied is_list tags_eq form⟩
  · have parses := resting.parses
    rw [form_plug, form_node] at parses
    rcases parses.parent_cases (by simp) with list | ⟨f, ahead, rest, -, quote, -⟩
    · exact absurd list is_list
    · refine .inr ⟨quote, ?_⟩
      rw [duplicate, copying.declined_by_quote resting fits is_list]
      rfl

/-- The copy of the `a` stands ahead of the comment. -/
theorem commentedPair_repeats_its_head : commentedPair.WellLinked ∧ commentedPair.isSettled = true ∧
    commentedPair.InStep ∧ commentedPair.tree.parent ⟨1, 0⟩ = .ok (some ⟨0, 0⟩) ∧
    ∃ root d', commentedPair.duplicate parenthesised ⟨1, 0⟩ = .ok (.ok (some root), d') ∧
      d'.text.current = "(a a ;b\n(c))".toList ∧
      ∃ route index f f', commentedPair.tree.route ⟨1, 0⟩ = .ok (route ++ [index]) ∧
        commentedPair.tree.form commentedPair.root = .ok f ∧ d'.tree.form d'.root = .ok f' ∧
        f'.shape = repeatUnder index route f.shape := by
  have settled : commentedPair.isSettled = true := by decide
  have above : commentedPair.tree.parent ⟨1, 0⟩ = .ok (some ⟨0, 0⟩) := by decide +kernel
  have is_span : commentedPair.tree.span ⟨1, 0⟩ = .ok (Span.sized 1 1) := by decide +kernel
  have fits : (Rearrangement.duplicate ⟨1, 0⟩).Fits commentedPair := by
    rw [Rearrangement.Fits, Rearrangement.growth, is_span]
    decide
  obtain ⟨span, n, same, node, copied | quoted⟩ := children_of_lists_are_copied commentedPair
    commentedPair_linked settled commentedPair_inStep fits above
  · obtain ⟨-, root, d', ran, text, shape⟩ := copied
    cases is_span.symm.trans same
    exact ⟨commentedPair_linked, settled, commentedPair_inStep, above, root, d', ran, text, shape⟩
  · have kind : (commentedPair.tree.node ⟨0, 0⟩).map Node.kind = .ok .list := by decide +kernel
    rw [node] at kind
    cases quoted.1.symm.trans (Except.ok.inj kind)

end Document

end FormEdit
