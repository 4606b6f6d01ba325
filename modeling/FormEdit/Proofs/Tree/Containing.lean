import FormEdit.Proofs.Tree.Agreement
import FormEdit.Proofs.Tree.Enclosing
import Mathlib.Data.List.Chain

/-!
# The nodes that contain a position

`Tree.Ordered` says of the nodes that the root reaches, one at a time, that their children lie
inside of them, one behind the other; empty nodes may stand anywhere. For the branch under the root
this means that it is nested (`Bears.nested`). Then what stands around an innermost node that
contains a position falls into three parts: the nodes around it contain the position too, those
before them end at it or before it, those after them start behind it (`Parts`). So the search from
the root misses no node: `enclosing_finds_all`.
-/

namespace FormEdit

open Rose

namespace Tree

open Branch Slots

/-- Every node that the root reaches has its children inside of it, one behind the other. -/
structure Ordered (t : Tree) : Prop where
  inside : ∀ h n, Reaches t t.root h → t.nodes.get? h = some n →
    ∀ c ∈ n.children, ∀ m, t.nodes.get? c = some m → n.span.start ≤ m.span.start ∧
    m.span.stop ≤ n.span.stop
  order : ∀ h n, Reaches t t.root h → t.nodes.get? h = some n →
    n.children.Pairwise fun c d =>
      ∀ m l, t.nodes.get? c = some m → t.nodes.get? d = some l → m.span.stop ≤ l.span.start

variable {t : Tree} {b c : Branch} {fs : List (Frame (Handle × Node))} {f : Frame (Handle × Node)}
  {h : Handle} {position : Nat}

theorem Bears.ordered (bears : Bears t b) (nested : (Branch.form b).Nested) : Ordered t := by
  have local_order : ∀ h n, Reaches t t.root h → t.nodes.get? h = some n → ∃ c,
    Linked t.nodes n.parent c ∧
      n = c.value.2 ∧ (Branch.form c).Nested := by
    intro h n reached found
    obtain ⟨fs, c, rfl, rfl⟩ := Branch.exists_hole (bears.mem_of_reaches reached)
    cases bears.hole.value.symm.trans found
    rw [form_plug] at nested
    exact ⟨c, bears.hole.parent_eq ▸ bears.hole, rfl, nested.hole.1⟩
  constructor
  · intro h n reached found child listed m live
    obtain ⟨c, linked, rfl, nested⟩ := local_order h n reached found
    rw [linked.children_eq] at listed
    obtain ⟨d, mem, rfl⟩ := List.mem_map.mp listed
    cases (linked.child d mem).value.symm.trans live
    exact (Branch.nested_iff.mp nested).1 d mem
  · intro h n reached found
    obtain ⟨c, linked, rfl, nested⟩ := local_order h n reached found
    rw [linked.children_eq, List.pairwise_map]
    refine (Branch.nested_iff.mp nested).2.1.imp_of_mem ?_
    intro d e mem mem' apart m l live live'
    cases (linked.child d mem).value.symm.trans live
    cases (linked.child e mem').value.symm.trans live'
    exact apart

theorem Bears.nested (bears : Bears t b) (ordered : Ordered t) : (Branch.form b).Nested := by
  have at_hole : ∀ c fs, b = plug fs c → (Branch.form c).Nested := by
    intro c
    induction c using Rose.induction with
    | node value cs ih =>
      rintro fs rfl
      have linked := bears.hole
      have reached : Reaches t t.root value.1 :=
        bears.reaches_iff.mpr (mem_handles_plug.mpr (.inl (handle_mem (.node value cs))))
      have found : t.nodes.get? value.1 = some value.2 := linked.value
      have children : value.2.children = cs.map handle := linked.children_eq
      rw [Branch.nested_iff]
      refine ⟨?_, ?_, ?_⟩
      · intro c mem
        have listed : handle c ∈ value.2.children := children ▸ List.mem_map_of_mem mem
        exact ordered.inside value.1 value.2 reached found (handle c) listed c.value.2
          (linked.child c mem).value
      · have order := ordered.order value.1 value.2 reached found
        rw [children, List.pairwise_map] at order
        refine order.imp_of_mem ?_
        intro c d mem mem' apart
        exact apart c.value.2 d.value.2 (linked.child c mem).value (linked.child d mem').value
      · intro c mem
        obtain ⟨before, after, rfl⟩ := List.append_of_mem mem
        exact ih c mem (⟨value, before, after⟩ :: fs) rfl
  exact at_hole b [] rfl

end Tree

/-- A position divides what stands in a frame: the node itself contains it, what stands before the
hole ends there at the latest, and what stands after the hole starts later. -/
structure Parts (position : Nat) (f : Frame (Handle × Node)) : Prop where
  value : f.value.2.span.contains position = true
  before : ∀ b ∈ f.before, ∀ e ∈ b.preorder, e.2.span.stop ≤ position
  after : ∀ b ∈ f.after, ∀ e ∈ b.preorder, position < e.2.span.start

namespace Tree

open Branch Slots

variable {t : Tree} {b c : Branch} {fs : List (Frame (Handle × Node))} {f : Frame (Handle × Node)}
  {h : Handle} {position : Nat}

theorem parts_of_contains (nested : (Branch.form (f.fill c)).Nested)
    (contains : c.value.2.span.contains position = true) : Parts position f := by
  obtain ⟨inside, order, each⟩ := Branch.nested_iff.mp nested
  obtain ⟨-, later, apart⟩ := List.pairwise_append.mp order
  have within := inside c (by simp [Frame.fill])
  rw [Span.contains_iff] at contains
  constructor
  · have start : f.value.2.span.start ≤ c.value.2.span.start := within.1
    have stop : c.value.2.span.stop ≤ f.value.2.span.stop := within.2
    rw [Span.contains_iff]
    omega
  · intro b mem e listed
    have ahead := apart b mem c List.mem_cons_self
    have deeper := Branch.preorder_inside (each b (by simp [Frame.fill, mem])) listed
    omega
  · intro b mem e listed
    have behind := (List.pairwise_cons.mp later).1 b mem
    have deeper := Branch.preorder_inside (each b (by simp [Frame.fill, mem])) listed
    omega

/-- Around a node that contains a position every frame is divided by it. -/
theorem parts_around (nested : (Branch.form (plug fs c)).Nested)
    (contains : c.value.2.span.contains position = true) : ∀ f ∈ fs, Parts position f := by
  induction fs generalizing c with
  | nil => simp
  | cons g fs ih =>
    have filled : (Branch.form (g.fill c)).Nested := by
      rw [plug_cons, form_plug] at nested
      exact nested.hole.1
    have here := parts_of_contains filled contains
    intro f mem
    rcases List.mem_cons.mp mem with rfl | mem
    · exact here
    · exact ih nested here.value f mem

theorem mem_wayTo {e : Handle × Node} : e ∈ wayTo fs c ↔ e = c.value ∨ ∃ f ∈ fs, e = f.value := by
  simp [wayTo, or_comm, eq_comm]

/-- The nodes that contain a position are those on the way to an innermost one. -/
theorem mem_wayTo_iff {e : Handle × Node} (nested : (Branch.form (plug fs c)).Nested)
    (contains : c.value.2.span.contains position = true)
    (alone : ∀ d ∈ c.children, d.value.2.span.contains position = false) :
    e ∈ wayTo fs c ↔ e ∈ (plug fs c).preorder ∧ e.2.span.contains position = true := by
  have parts := parts_around nested contains
  rw [mem_wayTo, (preorder_plug fs c).mem_iff, List.mem_append]
  constructor
  · rintro (rfl | ⟨f, framed, rfl⟩)
    · exact ⟨.inl (value_mem_preorder c), contains⟩
    · exact ⟨.inr (List.mem_flatMap.mpr ⟨f, framed, List.mem_cons_self⟩), (parts f framed).value⟩
  · rintro ⟨mem | mem, inside⟩
    · rw [Span.contains_iff] at inside
      rcases c with ⟨value, cs⟩
      rw [preorder_node, List.mem_cons] at mem
      rcases mem with rfl | mem
      · exact .inl rfl
      · obtain ⟨d, child, listed⟩ := List.mem_flatMap.mp mem
        have nested_d : (Branch.form d).Nested := by
          rw [form_plug] at nested
          exact (Branch.nested_iff.mp nested.hole.1).2.2 d child
        have deeper := Branch.preorder_inside nested_d listed
        have missed := Span.contains_eq_false.mp (alone d child)
        omega
    · rw [Span.contains_iff] at inside
      obtain ⟨f, framed, mem⟩ := List.mem_flatMap.mp mem
      rw [Frame.around, List.mem_cons, List.mem_append] at mem
      rcases mem with rfl | mem | mem
      · exact .inr ⟨f, framed, rfl⟩
      · obtain ⟨b, sibling, listed⟩ := List.mem_flatMap.mp mem
        have ended := (parts f framed).before b sibling e listed
        omega
      · obtain ⟨b, sibling, listed⟩ := List.mem_flatMap.mp mem
        have begins := (parts f framed).after b sibling e listed
        omega

theorem frames_sublist (fs : List (Frame (Handle × Node))) :
    (fs.map Frame.value).reverse.Sublist (ahead fs) := by
  induction fs with
  | nil => exact .slnil
  | cons f fs ih =>
    have last : [f.value].Sublist (f.value :: f.before.flatMap preorder) := by simp
    simpa [ahead] using ih.append last

/-- No node is passed twice on the way to a hole. -/
theorem Bears.wayTo_nodup (bears : Bears t (plug fs c)) : ((wayTo fs c).map Prod.fst).Nodup := by
  refine List.Nodup.sublist ?_ bears.nodup
  apply List.Sublist.map
  rw [preorder_plug_eq, List.append_assoc]
  apply (frames_sublist fs).append
  exact (List.singleton_sublist.mpr (value_mem_preorder c)).trans (List.sublist_append_left _ _)

/-- On the way to a hole each node is the parent of the next one. -/
theorem Bears.wayTo_parents (bears : Bears t (plug fs c)) :
    ((wayTo fs c).map Prod.fst).IsChain fun h k => t.parent k = .ok (some h) := by
  induction fs generalizing c with
  | nil => exact .singleton _
  | cons f fs ih =>
    have up : t.parent (handle c) = .ok (some f.value.1) := bears.hole.parent_ok
    have above := ih (c := f.fill c) bears
    rw [wayTo_cons, List.map_append]
    apply above.append (.singleton _)
    intro h last k first
    rw [List.getLast?_map, getLast?_wayTo, Option.map_some, Option.mem_some] at last
    cases first
    rw [← last]
    exact up

/-- The way to a hole begins at the root. -/
theorem Bears.wayTo_head (bears : Bears t (plug fs c)) :
    ((wayTo fs c).map Prod.fst).head? = some t.root := by
  induction fs generalizing c with
  | nil => exact congrArg some bears.root
  | cons f fs ih =>
    have above := ih (c := f.fill c) bears
    rw [wayTo_cons, List.map_append, List.head?_append, above]
    rfl

/-- In a tree whose links agree and whose spans are nested, the search for a position finds every
node that the root reaches and that contains the position, and no others. It passes each of them
once, from the root down, each being the parent of the next; it finds none if and only if the root
does not contain the position. -/
theorem enclosing_finds_all (agrees : Agrees t) (ordered : Ordered t) (position : Nat) :
    ∃ path, t.enclosing position = .ok path ∧
      (∀ h, h ∈ path ↔
        Reaches t t.root h ∧ ∃ n, t.nodes.get? h = some n ∧ n.span.contains position = true) ∧
      path.Nodup ∧ (∀ h ∈ path.head?, h = t.root) ∧
      (path.IsChain fun h k => t.parent k = .ok (some h)) ∧
      (path = [] ↔ ∃ span, t.span t.root = .ok span ∧ span.contains position = false) := by
  obtain ⟨b, bears⟩ := agrees.bears
  have nested := bears.nested ordered
  have span : t.span t.root = .ok b.value.2.span := by
    rw [← bears.root]
    exact bears.linked.span_eq
  -- The root contains what any of its nodes contains.
  have from_root {e : Handle × Node} (mem : e ∈ b.preorder)
    (inside : e.2.span.contains position = true) :
      b.value.2.span.contains position = true := by
    have within := Branch.preorder_inside nested mem
    rw [Span.contains_iff] at inside ⊢
    omega
  rcases bears.enclosing nested position with ⟨missed, ran⟩ | ⟨fs, c, ran, rfl, contains, alone⟩
  · refine ⟨[], ran, ?_, .nil, by simp, .nil, by simp [span, missed]⟩
    intro h
    refine iff_of_false (by simp) ?_
    rintro ⟨reached, n, found, inside⟩
    have mem := bears.mem_preorder (bears.mem_of_reaches reached) found
    rw [from_root mem inside] at missed
    cases missed
  · refine ⟨(wayTo fs c).map Prod.fst, ran, ?_, bears.wayTo_nodup, ?_, bears.wayTo_parents, ?_⟩
    · intro h
      rw [bears.reaches_iff, List.mem_map]
      constructor
      · rintro ⟨e, passed, rfl⟩
        obtain ⟨mem, inside⟩ := (mem_wayTo_iff nested contains alone).mp passed
        exact ⟨List.mem_map_of_mem mem, e.2, bears.get?_of_mem mem, inside⟩
      · rintro ⟨mem, n, found, inside⟩
        have listed := bears.mem_preorder mem found
        exact ⟨(h, n), (mem_wayTo_iff nested contains alone).mpr ⟨listed, inside⟩, rfl⟩
    · intro h first
      rw [bears.wayTo_head, Option.mem_some] at first
      exact first.symm
    · have mem : c.value ∈ (plug fs c).preorder :=
        ((mem_wayTo_iff nested contains alone).mp (mem_wayTo.mpr (.inl rfl))).1
      have root_contains := from_root mem contains
      simp [span, root_contains, wayTo]

theorem ofForm_ordered {f : Form} (nested : f.Nested) (ids : IdSource) :
    Ordered (ofForm f ids).1 := by
  obtain ⟨b, holds, rfl⟩ := ofForm_holds f ids
  exact holds.bears.ordered nested

/-- A list with two atoms and a list inside of it, and empty lists ahead of, between and behind
them. -/
def hollowList : Form :=
  let empty (position : Nat) : Form := .leaf ⟨.list, Span.empty position⟩
  .node ⟨.list, Span.sized 2 7⟩ [empty 2,
    .node ⟨.list, Span.sized 2 3⟩ [.leaf ⟨.atom "x", Span.sized 2 1⟩, empty 4,
      .leaf ⟨.atom "y", Span.sized 4 1⟩], empty 5, .leaf ⟨.atom "z", Span.sized 6 2⟩]

theorem hollowList_nested : hollowList.Nested := by
  simp [hollowList, Rose.leaf, Form.nested_node, Form.span, Span.sized, Span.empty]

/-- The search for the place of `y` is not led astray by the empty list at the same place. -/
theorem hollowList_search :
    Agrees (ofForm hollowList .fromOne).1 ∧ Ordered (ofForm hollowList .fromOne).1 ∧
    ∃ path, (ofForm hollowList .fromOne).1.enclosing 4 = .ok path ∧
    path = [⟨0, 0⟩, ⟨2, 0⟩, ⟨5, 0⟩] ∧
      path.IsChain fun h k => (ofForm hollowList .fromOne).1.parent k = .ok (some h) := by
  have agrees := ofForm_agrees hollowList .fromOne
  have ordered := ofForm_ordered hollowList_nested .fromOne
  obtain ⟨path, ran, -, -, -, chain, -⟩ := enclosing_finds_all agrees ordered 4
  have passed : (ofForm hollowList .fromOne).1.enclosing 4 = .ok [⟨0, 0⟩, ⟨2, 0⟩, ⟨5, 0⟩] := by
    decide
  cases ran.symm.trans passed
  exact ⟨agrees, ordered, _, passed, rfl, chain⟩

end Tree

end FormEdit
