import FormEdit.Proofs.Tree.Planting

/-!
# The innermost node around a position

In a tree whose spans are nested the search from the root inwards ends at the one node that contains
the position and has no child that does.
-/

namespace FormEdit

open Rose

/-- Every child lies inside of its parent, and siblings stand one behind the other. -/
inductive Form.Nested : Form → Prop
  | node {tag : Tag} {parts : List Form}
      (inside : ∀ c ∈ parts, tag.span.start ≤ (Form.span c).start ∧
        (Form.span c).stop ≤ tag.span.stop)
      (order : parts.Pairwise fun c d => (Form.span c).stop ≤ (Form.span d).start)
      (each : ∀ c ∈ parts, Nested c) : Nested (.node tag parts)

theorem Span.contains_iff {s : Span} {position : Nat} :
    s.contains position = true ↔ s.start ≤ position ∧ position < s.stop := by
  simp [contains]

theorem Span.contains_eq_false {s : Span} {position : Nat} :
    s.contains position = false ↔ (s.start ≤ position → s.stop ≤ position) := by
  simp [contains]

/-- What is in a hole of a nested form is nested, and it lies inside of the form. -/
theorem Form.Nested.hole {fs : List (Frame Tag)} {f : Form} (nested : Nested (plug fs f)) :
    f.Nested ∧ (Form.span (plug fs f)).start ≤ f.span.start ∧
      f.span.stop ≤ (Form.span (plug fs f)).stop := by
  induction fs generalizing f with
  | nil => exact ⟨nested, Nat.le_refl _, Nat.le_refl _⟩
  | cons g fs ih =>
    obtain ⟨inner, start, stop⟩ := ih nested
    obtain ⟨inside, -, each⟩ := inner
    obtain ⟨first, last⟩ := inside f (by simp)
    exact ⟨each f (by simp), Nat.le_trans start first, Nat.le_trans last stop⟩

/-- Everything in a nested form lies inside of it. -/
theorem Form.Nested.preorder_inside {f : Form} (nested : f.Nested) :
    ∀ tag ∈ f.preorder, f.span.start ≤ tag.span.start ∧ tag.span.stop ≤ f.span.stop := by
  induction nested with
  | @node tag parts inside order each ih =>
    intro inner mem
    rw [preorder_node, List.mem_cons] at mem
    rcases mem with rfl | mem
    · exact ⟨Nat.le_refl _, Nat.le_refl _⟩
    · obtain ⟨c, hc, mem⟩ := List.mem_flatMap.mp mem
      obtain ⟨start, stop⟩ := inside c hc
      obtain ⟨start', stop'⟩ := ih c hc inner mem
      exact ⟨Nat.le_trans start start', Nat.le_trans stop' stop⟩

theorem Form.nested_node {tag : Tag} {parts : List Form} : Nested (.node tag parts) ↔
    (∀ c ∈ parts, tag.span.start ≤ (Form.span c).start ∧ (Form.span c).stop ≤ tag.span.stop) ∧
    (parts.Pairwise fun c d => (Form.span c).stop ≤ (Form.span d).start) ∧ ∀ c ∈ parts,
    Nested c := by
  constructor
  · rintro ⟨inside, order, each⟩
    exact ⟨inside, order, each⟩
  · rintro ⟨inside, order, each⟩
    exact .node inside order each

/-- A branch is nested if its children lie inside of it, one behind the other, and are nested. -/
theorem Branch.nested_iff {b : Branch} : (form b).Nested ↔
    (∀ c ∈ b.children, b.value.2.span.start ≤ c.value.2.span.start ∧
      c.value.2.span.stop ≤ b.value.2.span.stop) ∧
    (b.children.Pairwise fun c d => c.value.2.span.stop ≤ d.value.2.span.start) ∧
    ∀ c ∈ b.children, (form c).Nested := by
  rcases b with ⟨⟨h, n⟩, cs⟩
  have form_eq : form (.node (h, n) cs) = .node n.tag (cs.map form) := by simp [form]
  rw [form_eq, Form.nested_node]
  simp only [List.forall_mem_map, List.pairwise_map, span_form]
  rfl

/-- Every node of a nested branch lies inside of the first one. -/
theorem Branch.preorder_inside {b : Branch} (nested : (form b).Nested) {e : Handle × Node}
    (mem : e ∈ b.preorder) :
    b.value.2.span.start ≤ e.2.span.start ∧ e.2.span.stop ≤ b.value.2.span.stop := by
  have inside := nested.preorder_inside e.2.tag (tag_mem_form mem)
  rwa [span_form] at inside

theorem Branch.hole_inside {b : Branch} {fs : List (Frame (Handle × Node))}
    (nested : (form (plug fs b)).Nested) :
    (plug fs b).value.2.span.start ≤ b.value.2.span.start ∧
      b.value.2.span.stop ≤ (plug fs b).value.2.span.stop := by
  rw [Tree.form_plug] at nested
  have inside := nested.hole.2
  rwa [← Tree.form_plug, span_form, span_form] at inside

namespace Tree

open Branch Slots

variable {t : Tree} {b : Branch} {fs : List (Frame (Handle × Node))} {position : Nat}

/-- The search among siblings finds the one that contains the position. -/
theorem childAt_spec (position : Nat) {parent : Option Handle} {cs : List Branch}
    (linked : ∀ c ∈ cs, Linked t.nodes parent c)
    (order : cs.Pairwise fun c d => c.value.2.span.stop ≤ d.value.2.span.start) :
    (t.childAt position (cs.map handle) = .ok none ∧
      ∀ c ∈ cs, c.value.2.span.contains position = false) ∨
    ∃ before c after, cs = before ++ c :: after ∧
      t.childAt position (cs.map handle) = .ok (some (handle c)) ∧
      c.value.2.span.contains position = true := by
  induction cs with
  | nil => exact .inl ⟨rfl, by simp⟩
  | cons c cs ih =>
    have span : t.span (handle c) = .ok c.value.2.span := (linked c (by simp)).span_eq
    obtain ⟨later, order⟩ := List.pairwise_cons.mp order
    by_cases started : c.value.2.span.start ≤ position
    · by_cases inside : c.value.2.span.contains position = true
      · refine .inr ⟨[], c, cs, rfl, ?_, inside⟩
        simp [childAt, span, started, inside]
      · rcases ih (fun d hd => linked d (by simp [hd])) order with
          ⟨ran, none⟩ | ⟨before, d, after, split, ran, found⟩
        · refine .inl ⟨by simp [childAt, span, started, inside, ran], ?_⟩
          intro d hd
          rcases List.mem_cons.mp hd with rfl | hd
          · simpa using inside
          · exact none d hd
        · refine .inr ⟨c :: before, d, after, by simp [split], ?_, found⟩
          simp [childAt, span, started, inside, ran]
    · refine .inl ⟨by simp [childAt, span, started], ?_⟩
      intro d hd
      have start : position < d.value.2.span.start := by
        rcases List.mem_cons.mp hd with rfl | hd
        · omega
        · have := later d hd
          have := c.value.2.span.start_le_stop
          omega
      simp only [Span.contains, Bool.and_eq_false_iff, decide_eq_false_iff_not]
      exact .inl (by omega)

/-- The nodes on the way down to a hole, from the root on, and the one that stands in it. -/
def wayTo (fs : List (Frame (Handle × Node))) (b : Branch) : List (Handle × Node) :=
  (fs.map Frame.value).reverse ++ [b.value]

@[simp] theorem wayTo_cons (f : Frame (Handle × Node)) (fs : List (Frame (Handle × Node)))
    (b : Branch) :
    wayTo (f :: fs) b = wayTo fs (f.fill b) ++ [b.value] := by
  simp [wayTo, Frame.fill]

@[simp] theorem getLast?_wayTo (fs : List (Frame (Handle × Node))) (b : Branch) :
    (wayTo fs b).getLast? = some b.value := by
  simp [wayTo]

/-- The search goes down to a node of which no child contains the position. -/
theorem Linked.inward {steps : Nat} {parent : Option Handle} (linked : Linked t.nodes parent b)
    (position : Nat) (nested : (Branch.form b).Nested) (enough : (handles b).length ≤ steps) :
    ∃ gs c, t.inward position steps (handle b) = .ok ((wayTo gs c).map Prod.fst) ∧ b = plug gs c ∧
      (c = b ∨ c.value.2.span.contains position = true) ∧
      ∀ d ∈ c.children, d.value.2.span.contains position = false := by
  induction steps generalizing b parent with
  | zero =>
    rcases b with ⟨⟨h, n⟩, cs⟩
    simp [handles_node] at enough
  | succ steps ih =>
    rcases b with ⟨⟨h, n⟩, cs⟩
    have children : t.children h = .ok (cs.map handle) := linked.children_ok
    obtain ⟨-, order, each⟩ := Branch.nested_iff.mp nested
    have below : ∀ c ∈ cs, Linked t.nodes (some h) c := linked.child
    rcases childAt_spec position below order with
      ⟨ran, none⟩ | ⟨before, c, after, split, ran, found⟩
    · refine ⟨[], .node (h, n) cs, ?_, rfl, .inl rfl, none⟩
      simp [Tree.inward, children, ran, wayTo]
    · subst split
      have smaller : (handles c).length ≤ steps := by
        simp only [handles_node, List.flatMap_append, List.flatMap_cons, List.length_cons,
          List.length_append] at enough
        omega
      obtain ⟨gs, d, ran', plugged, reached, alone⟩ :=
        ih (below c (by simp)) (each c (by simp)) smaller
      refine ⟨gs ++ [⟨(h, n), before, after⟩], d, ?_, ?_, ?_, alone⟩
      · simp only [handle_node, Tree.inward, children, ok_bind, ran, ran', pure_eq_ok]
        simp [wayTo]
      · rw [plug_append, ← plugged]
        rfl
      · rcases reached with rfl | reached
        · exact .inr found
        · exact .inr reached

/-- The nodes that the search passes are those around the innermost one that contains the position,
if the root does. -/
theorem Bears.enclosing (bears : Bears t b) (nested : (Branch.form b).Nested) (position : Nat) :
    (b.value.2.span.contains position = false ∧ t.enclosing position = .ok []) ∨
    ∃ fs c, t.enclosing position = .ok ((wayTo fs c).map Prod.fst) ∧ b = plug fs c ∧
      c.value.2.span.contains position = true ∧
      ∀ d ∈ c.children, d.value.2.span.contains position = false := by
  have span : t.span t.root = .ok b.value.2.span := by
    rw [← bears.root]
    exact bears.linked.span_eq
  by_cases contained : b.value.2.span.contains position = true
  · right
    have enough : (handles b).length ≤ reach t.nodes := by
      have := bears.size_le
      simp only [reach]
      omega
    obtain ⟨fs, c, ran, plugged, reached, alone⟩ := bears.linked.inward position nested enough
    refine ⟨fs, c, ?_, plugged, ?_, alone⟩
    · rw [Tree.enclosing, span, ok_bind, if_pos contained, ← bears.root]
      exact ran
    · rcases reached with rfl | reached
      · exact contained
      · exact reached
  · left
    refine ⟨by simpa using contained, ?_⟩
    rw [Tree.enclosing, span, ok_bind, if_neg contained]
    rfl

end Tree

end FormEdit
