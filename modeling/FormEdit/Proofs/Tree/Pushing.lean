import FormEdit.Proofs.Tree.Containing
import FormEdit.Proofs.Tree.Replacing

/-!
# Edges pushed by an edit

A character that comes or goes at a position pushes the edges of spans that lie behind the position
and leaves those at it or before it alone. Making room at the innermost node around the position
visits only some nodes: it stretches the nodes around the position and moves what stands behind it
on every level. As a position divides what stands around it (`Parts`), this is the same push for
every node: `making_room_pushes_edges`.
-/

namespace FormEdit

open Rose

/-- Where an edge of a span goes when the text behind a position moves. -/
def pushEdge (position : Nat) (distance : Int) (edge : Nat) : Nat :=
  if position < edge then (edge + distance).toNat else edge

/-- Edges keep their order, since no text is moved past the position. -/
theorem pushEdge_mono {position : Nat} {distance : Int} (low : -1 ≤ distance) {edge edge' : Nat}
    (le : edge ≤ edge') : pushEdge position distance edge ≤ pushEdge position distance edge' := by
  unfold pushEdge
  split <;> split <;> omega

theorem pushEdge_one (position : Nat) :
    pushEdge position 1 = fun edge => if position < edge then edge + 1 else edge := by
  funext edge
  unfold pushEdge
  split <;> omega

theorem pushEdge_neg_one (position : Nat) :
    pushEdge position (-1) = fun edge => if position < edge then edge - 1 else edge := by
  funext edge
  unfold pushEdge
  split <;> omega

/-- The span is not empty, and there is a position behind it. -/
def Span.Spacious (s : Span) : Prop := s.start < s.stop ∧ s.stop + 1 < positionLimit

/-- A span behind the position moves and one around it stretches. -/
def Span.pushed (position : Nat) (distance : Int) (s : Span) : Span :=
  if position < s.start then s.moved distance else if position < s.stop then
    s.stretched distance else s

@[simp] theorem Span.start_pushed (position : Nat) (distance : Int) (s : Span) :
    (s.pushed position distance).start = pushEdge position distance s.start := by
  unfold pushed pushEdge
  split
  · rfl
  · split <;> rfl

theorem Span.stop_pushed {position : Nat} {distance : Int} (low : -1 ≤ distance) (s : Span) :
    (s.pushed position distance).stop = pushEdge position distance s.stop := by
  have order := s.start_le_stop
  unfold pushed pushEdge
  by_cases behind : position < s.start
  · have later : position < s.stop := by omega
    rw [if_pos behind, if_pos later]
    rfl
  · rw [if_neg behind]
    by_cases around : position < s.stop
    · rw [if_pos around, if_pos around, stretched]
      apply max_eq_right
      omega
    · rw [if_neg around, if_neg around]

def Node.pushed (position : Nat) (distance : Int) (n : Node) : Node :=
  { n with span := n.span.pushed position distance }

theorem Node.pushed_of_contains {n : Node} {position : Nat}
    (contains : n.span.contains position = true) (distance : Int) :
    n.pushed position distance = n.stretched distance := by
  obtain ⟨start, stop⟩ := Span.contains_iff.mp contains
  simp [pushed, stretched, Span.pushed, Nat.not_lt_of_le start, stop]

/-- A node with its handle after a push. -/
def pushEntry (position : Nat) (distance : Int) (e : Handle × Node) : Handle × Node :=
  (e.1, e.2.pushed position distance)

namespace Branch

variable {b : Branch} {position : Nat} {distance : Int}

/-- The branch with the edges of all its nodes pushed. -/
def pushed (position : Nat) (distance : Int) (b : Branch) : Branch :=
  b.map (pushEntry position distance)

@[simp] theorem value_pushed (position : Nat) (distance : Int) (b : Branch) :
    (pushed position distance b).value = pushEntry position distance b.value :=
  value_map _ b

@[simp] theorem children_pushed (position : Nat) (distance : Int) (b : Branch) :
    (pushed position distance b).children = b.children.map (pushed position distance) :=
  children_map _ b

theorem pushed_of_behind (behind : ∀ e ∈ b.preorder, position < e.2.span.start) :
    pushed position distance b = moved distance b := by
  apply map_congr_left
  intro e mem
  have later := behind e mem
  simp [pushEntry, Node.pushed, Node.moved, Span.pushed, later]

theorem pushed_of_ahead (ahead : ∀ e ∈ b.preorder, e.2.span.stop ≤ position) :
    pushed position distance b = b := by
  apply map_eq_self
  intro e mem
  have ended := ahead e mem
  have order := e.2.span.start_le_stop
  have neither : ¬position < e.2.span.start ∧ ¬position < e.2.span.stop := by omega
  simp [pushEntry, Node.pushed, Span.pushed, neither]

theorem nested_pushed (nested : (form b).Nested) (low : -1 ≤ distance) :
    (form (pushed position distance b)).Nested := by
  induction b using Rose.induction with
  | node value cs ih =>
    obtain ⟨inside, order, each⟩ := nested_iff.mp nested
    have start (c : Branch) : (pushed position distance c).value.2.span.start =
        pushEdge position distance c.value.2.span.start := by simp [pushEntry, Node.pushed]
    have stop (c : Branch) : (pushed position distance c).value.2.span.stop =
        pushEdge position distance c.value.2.span.stop := by
        simp [pushEntry, Node.pushed, Span.stop_pushed low]
    rw [nested_iff, children_pushed, List.forall_mem_map, List.pairwise_map, List.forall_mem_map]
    simp only [start, stop]
    refine ⟨?_, ?_, ?_⟩
    · intro c mem
      exact ⟨pushEdge_mono low (inside c mem).1, pushEdge_mono low (inside c mem).2⟩
    · exact order.imp (pushEdge_mono low)
    · intro c mem
      exact ih c mem (each c mem)

theorem stretchable_of_spacious {n : Node} (spacious : n.span.Spacious) (low : -1 ≤ distance)
    (high : distance ≤ 1) :
    Stretchable distance n := by
  unfold Span.Spacious at spacious
  unfold Stretchable
  omega

/-- What stands behind a position has room in front of it. -/
theorem movable_of_behind (spacious : ∀ e ∈ b.preorder, e.2.span.Spacious)
    (behind : ∀ e ∈ b.preorder, position < e.2.span.start) (low : -1 ≤ distance)
    (high : distance ≤ 1) :
    Movable distance b := by
  intro e mem
  have later := behind e mem
  have bound := (spacious e mem).2
  omega

/-- The branch stands behind the position as a whole, or starts ahead of it and ends there at the
latest. -/
inductive Aside (position : Nat) (b : Branch) : Prop
  | behind (each : ∀ e ∈ b.preorder, position < e.2.span.start)
  | ahead (start : b.value.2.span.start < position) (each : ∀ e ∈ b.preorder,
      e.2.span.stop ≤ position)

/-- An empty node at the position would be neither. -/
theorem aside_of_missed (nested : (form b).Nested) (spacious : b.value.2.span.Spacious)
    (missed : b.value.2.span.contains position = false) : Aside position b := by
  rw [Span.contains_eq_false] at missed
  have filled := spacious.1
  by_cases behind : position < b.value.2.span.start
  · apply Aside.behind
    intro e mem
    exact Nat.lt_of_lt_of_le behind (preorder_inside nested mem).1
  · apply Aside.ahead
    · omega
    · intro e mem
      have inside := preorder_inside nested mem
      omega

variable {seam : Nat}

/-- Starting at the seam is as good as standing behind the position. -/
theorem Aside.movedFrom_eq (aside : Aside position b) (first : position ≤ seam)
    (last : seam ≤ position + 1) :
    Tree.movedFrom seam distance b = pushed position distance b := by
  unfold Tree.movedFrom
  cases aside with
  | behind each =>
    have start := each b.value (value_mem_preorder b)
    rw [if_pos (by omega), pushed_of_behind each]
  | ahead start each => rw [if_neg (by omega), pushed_of_ahead each]

theorem Aside.movable (aside : Aside position b) (spacious : ∀ e ∈ b.preorder, e.2.span.Spacious)
    (first : position ≤ seam) (late : seam ≤ b.value.2.span.start) (low : -1 ≤ distance)
    (high : distance ≤ 1) :
    Movable distance b := by
  cases aside with
  | behind each => exact movable_of_behind spacious each low high
  | ahead start each => omega

end Branch

/-- Making room in a frame that the position divides pushes the edges in it. -/
theorem Parts.roomFrame_eq {position : Nat} {f : Frame (Handle × Node)} (parts : Parts position f)
    (distance : Int) : roomFrame distance f = f.map (pushEntry position distance) := by
  have value : pushEntry position distance f.value = (f.value.1, f.value.2.stretched distance) := by
    rw [pushEntry, Node.pushed_of_contains parts.value]
  have ahead : f.before.map (Rose.map (pushEntry position distance)) = f.before := by
    conv_rhs => rw [← List.map_id f.before]
    exact List.map_congr_left fun b mem => Branch.pushed_of_ahead (parts.before b mem)
  have behind : f.after.map (Rose.map (pushEntry position distance)) =
      f.after.map (Branch.moved distance) :=
    List.map_congr_left fun b mem => Branch.pushed_of_behind (parts.after b mem)
  rw [roomFrame, Frame.map, value, ahead, behind]

/-- Nothing in a divided frame is in the way of room for one character. -/
theorem Parts.roomy {position : Nat} {distance : Int} {f : Frame (Handle × Node)}
    (parts : Parts position f) (spacious : ∀ e ∈ f.around, e.2.span.Spacious) (low : -1 ≤ distance)
    (high : distance ≤ 1) :
    Branch.Stretchable distance f.value.2 ∧ ∀ b ∈ f.after, Branch.Movable distance b := by
  constructor
  · exact Branch.stretchable_of_spacious (spacious f.value List.mem_cons_self) low high
  · intro b mem
    refine Branch.movable_of_behind ?_ (parts.after b mem) low high
    intro e listed
    apply spacious e
    exact List.mem_cons_of_mem _ (List.mem_append_right _ (List.mem_flatMap.mpr ⟨b, mem, listed⟩))

namespace Tree

open Branch Slots

/-- The nodes that the root reaches are not empty, and there is a position behind each of them. -/
def Filled (t : Tree) : Prop :=
  ∀ h n, Reaches t t.root h → t.nodes.get? h = some n → n.span.Spacious

/-- The edges of all nodes that the root reaches have gone where a map takes them. Nothing else has
changed, and links and order are as they should be. -/
structure Pushes (t : Tree) (edge : Nat → Nat) (t' : Tree) : Prop where
  agrees : Agrees t'
  ordered : Ordered t'
  root : t'.root = t.root
  reached : ∀ h n, Reaches t t.root h → t.nodes.get? h = some n →
    ∃ span, t'.nodes.get? h = some { n with span := span } ∧
      span.start = edge n.span.start ∧ span.stop = edge n.span.stop
  others : ∀ h, ¬Reaches t t.root h → t'.nodes.get? h = t.nodes.get? h

variable {t t' : Tree} {b : Branch} {fs : List (Frame (Handle × Node))} {h : Handle} {n : Node}
  {cs : List Branch} {position seam : Nat} {distance : Int}

theorem Filled.spacious (filled : Filled t) (bears : Bears t b) :
    ∀ e ∈ b.preorder, e.2.span.Spacious := by
  intro e mem
  have reached : Reaches t t.root e.1 := bears.reaches_iff.mpr (List.mem_map_of_mem mem)
  exact filled e.1 e.2 reached (bears.get?_of_mem mem)

theorem Bears.filled (bears : Bears t b) (spacious : ∀ e ∈ b.preorder, e.2.span.Spacious) :
    Filled t := by
  intro h n reached found
  exact spacious (h, n) (bears.mem_preorder (bears.mem_of_reaches reached) found)

/-- Links do not depend on spans. -/
theorem Agrees.alike (agrees : Agrees t) (alike : Alike t' t) : Agrees t' := by
  obtain ⟨same, root⟩ := alike
  have respan : Change (t.nodes, .fromOne) (t'.nodes, .fromOne) := .respan same
  obtain ⟨sound, counted⟩ := respan.counted agrees.sound agrees.counted
  have live : ∀ {k m}, t.nodes.get? k = some m → ∃ m', t'.nodes.get? k = some m' ∧
      m'.bare = m.bare := by
    intro k m found
    obtain ⟨m', found', equal⟩ := get?_of_bare same.symm found
    exact ⟨m', found', equal.symm⟩
  have parent {m m' : Node} (equal : m'.bare = m.bare) : m'.parent = m.parent :=
    (congrArg Node.parent equal :)
  have children {m m' : Node} (equal : m'.bare = m.bare) : m'.children = m.children :=
    (congrArg Node.children equal :)
  refine ⟨sound, counted, ?_, ?_⟩
  · obtain ⟨n, found, top⟩ := agrees.top
    obtain ⟨n', found', equal⟩ := live found
    exact ⟨n', root ▸ found', (parent equal).trans top⟩
  · intro k n' found'
    obtain ⟨n, found, equal⟩ := get?_of_bare same found'
    obtain ⟨down, up, once⟩ := agrees.each k n found
    constructor
    · intro c listed
      obtain ⟨m, there, names⟩ := down c (children equal ▸ listed)
      obtain ⟨m', there', equal'⟩ := live there
      exact ⟨m', there', (parent equal').trans names⟩
    · intro p above
      obtain ⟨m, there, names⟩ := up p ((parent equal).symm.trans above)
      obtain ⟨m', there', equal'⟩ := live there
      exact ⟨m', there', (children equal').symm ▸ names⟩
    · exact (children equal).symm ▸ once

/-- A branch whose edges are pushed in their places. -/
theorem Altered.pushes (altered : Altered t b t' (pushed position distance b)) (bears : Bears t b)
    (nested : (Branch.form b).Nested) (agrees : Agrees t') (low : -1 ≤ distance) :
    Pushes t (pushEdge position distance) t' where
  agrees := agrees
  ordered := altered.bears.ordered (nested_pushed nested low)
  root := by
    rw [← altered.bears.root, ← bears.root, handle, handle, pushed, value_map]
    rfl
  reached := by
    intro h n reached found
    have mem := bears.mem_preorder (bears.mem_of_reaches reached) found
    have mem' : pushEntry position distance (h, n) ∈ (pushed position distance b).preorder := by
      rw [pushed, preorder_map]
      exact List.mem_map_of_mem mem
    exact ⟨n.span.pushed position distance, altered.bears.get?_of_mem mem', Span.start_pushed _ _ _,
      Span.stop_pushed low _⟩
  others := by
    intro h unreached
    rw [bears.reaches_iff] at unreached
    exact altered.others h unreached

/-- The position divides everything around a node and everything in it, and the node contains the
position. -/
structure Divided (position : Nat) (fs : List (Frame (Handle × Node))) (b : Branch) : Prop where
  frames : ∀ f ∈ fs, Parts position f
  value : b.value.2.span.contains position = true
  children : ∀ c ∈ b.children, Aside position c

/-- This is so at the innermost node around the position. -/
theorem divided_of_alone (nested : (Branch.form (plug fs b)).Nested)
    (spacious : ∀ e ∈ (plug fs b).preorder, e.2.span.Spacious)
    (contains : b.value.2.span.contains position = true)
    (alone : ∀ c ∈ b.children, c.value.2.span.contains position = false) :
    Divided position fs b where
  frames := parts_around nested contains
  value := contains
  children := by
    intro c listed
    rw [form_plug] at nested
    apply aside_of_missed ((Branch.nested_iff.mp nested.hole.1).2.2 c listed) _ (alone c listed)
    apply spacious c.value
    apply (preorder_plug fs b).mem_iff.mpr
    apply List.mem_append_left
    rcases b with ⟨value, cs⟩
    rw [preorder_node]
    exact List.mem_cons_of_mem _ (List.mem_flatMap.mpr ⟨c, listed, value_mem_preorder c⟩)

/-- What making room leaves is the branch with its edges pushed. -/
theorem Divided.plug_eq (divided : Divided position fs (.node (h, n) cs)) (first : position ≤ seam)
    (last : seam ≤ position + 1) :
    plug (fs.map (roomFrame distance))
      (.node (h, n.stretched distance) (cs.map (movedFrom seam distance))) =
      pushed position distance (plug fs (.node (h, n) cs)) := by
  have frames : fs.map (roomFrame distance) = fs.map (Frame.map (pushEntry position distance)) :=
    List.map_congr_left fun f framed => (divided.frames f framed).roomFrame_eq distance
  have contains : n.span.contains position = true := divided.value
  have value : (h, n.stretched distance) = pushEntry position distance (h, n) := by
    rw [pushEntry, Node.pushed_of_contains contains]
  have children : cs.map (movedFrom seam distance) =
      cs.map (Rose.map (pushEntry position distance)) :=
    List.map_congr_left fun c listed => (divided.children c listed).movedFrom_eq first last
  rw [pushed, map_plug, map_node, frames, value, children]

/-- Making room at a node that a position divides pushes every edge behind the position. -/
theorem Bears.makeRoom_pushed (bears : Bears t (plug fs (.node (h, n) cs)))
    (divided : Divided position fs (.node (h, n) cs))
    (spacious : ∀ e ∈ (plug fs (.node (h, n) cs)).preorder, e.2.span.Spacious) (low : -1 ≤ distance)
    (high : distance ≤ 1) (first : position ≤ seam) (last : seam ≤ position + 1) :
    ∃ t₁ t₂ t₃, t.stretch h distance = .ok t₁ ∧ t₁.moveChildrenFrom h seam distance = .ok t₂ ∧
      t₂.moveSuccessors h distance = .ok t₃ ∧
      Altered t (plug fs (.node (h, n) cs)) t₃
        (pushed position distance (plug fs (.node (h, n) cs))) := by
  simp only [(preorder_plug fs _).mem_iff, List.mem_append, or_imp, forall_and, preorder_node,
    List.mem_cons, List.mem_flatMap, forall_eq] at spacious
  obtain ⟨⟨here, below⟩, outer⟩ := spacious
  have stretchable : Stretchable distance n := stretchable_of_spacious here low high
  have movable : ∀ c ∈ cs, seam ≤ c.value.2.span.start → Movable distance c := by
    intro c listed late
    refine (divided.children c listed).movable ?_ first late low high
    intro e mem
    exact below e ⟨c, listed, mem⟩
  have roomy : Roomy distance fs := by
    intro f framed
    refine (divided.frames f framed).roomy ?_ low high
    intro e mem
    exact outer e (List.mem_flatMap.mpr ⟨f, framed, mem⟩)
  obtain ⟨t₁, t₂, t₃, ran₁, ran₂, ran₃, altered⟩ := bears.makeRoom stretchable movable roomy
  rw [divided.plug_eq first last] at altered
  exact ⟨t₁, t₂, t₃, ran₁, ran₂, ran₃, altered⟩

/-- In a tree whose links agree and whose nodes are not empty, inside each other and in order, let a
position be given that the root contains. Making room for one character at the innermost node around
the position adds one to every edge that lies behind the position, and taking room for one character
away takes one from every such edge. Neither fails, and the other edges stay. -/
theorem making_room_pushes_edges (agrees : Agrees t) (ordered : Ordered t) (filled : Filled t)
    {span : Span} (whole : t.span t.root = .ok span) (contains : span.contains position = true) :
    ∃ path h, t.enclosing position = .ok path ∧ path.getLast? = some h ∧
      (∃ t₁ t₂ t', t.stretch h 1 = .ok t₁ ∧ t₁.moveChildrenFrom h position 1 = .ok t₂ ∧
        t₂.moveSuccessors h 1 = .ok t' ∧
        Pushes t (fun edge => if position < edge then edge + 1 else edge) t') ∧
      ∃ t₁ t₂ t', t.stretch h (-1) = .ok t₁ ∧ t₁.moveChildrenFrom h (position + 1) (-1) = .ok t₂ ∧
        t₂.moveSuccessors h (-1) = .ok t' ∧
        Pushes t (fun edge => if position < edge then edge - 1 else edge) t' := by
  obtain ⟨b, bears⟩ := agrees.bears
  have nested := bears.nested ordered
  rcases bears.enclosing nested position with
    ⟨missed, -⟩ | ⟨fs, ⟨⟨h, n⟩, cs⟩, ran, rfl, inside, alone⟩
  · rw [← bears.root, bears.linked.span_eq] at whole
    cases whole
    rw [contains] at missed
    cases missed
  have divided := divided_of_alone nested (filled.spacious bears) inside alone
  have last : ((wayTo fs (.node (h, n) cs)).map Prod.fst).getLast? = some h := by
    rw [List.getLast?_map, getLast?_wayTo]
    rfl
  have pushes {distance : Int} (low : -1 ≤ distance) (high : distance ≤ 1) {seam : Nat}
    (first : position ≤ seam)
      (last : seam ≤ position + 1) : ∃ t₁ t₂ t', t.stretch h distance = .ok t₁ ∧
        t₁.moveChildrenFrom h seam distance = .ok t₂ ∧ t₂.moveSuccessors h distance = .ok t' ∧
        Pushes t (pushEdge position distance) t' := by
    obtain ⟨t₁, t₂, t', ran₁, ran₂, ran₃, altered⟩ :=
      bears.makeRoom_pushed divided (filled.spacious bears) low high first last
    -- No step touches a link, so links agree as before, those of nodes out of reach included.
    have alike :=
      ((moveAround_kept ran₃).trans (moveChildrenFrom_kept ran₂)).trans (stretch_kept ran₁)
    exact ⟨t₁, t₂, t', ran₁, ran₂, ran₃, altered.pushes bears nested (agrees.alike alike) low⟩
  refine ⟨_, h, ran, last, ?_, ?_⟩
  · rw [← pushEdge_one]
    exact pushes (by decide) (Int.le_refl 1) (Nat.le_refl position) (Nat.le_succ position)
  · rw [← pushEdge_neg_one]
    exact pushes (Int.le_refl (-1)) (by decide) (Nat.le_succ position) (Nat.le_refl (position + 1))

theorem ofForm_filled {f : Form} (spacious : ∀ tag ∈ f.preorder, tag.span.Spacious)
    (ids : IdSource) :
    Filled (ofForm f ids).1 := by
  obtain ⟨b, holds, rfl⟩ := ofForm_holds f ids
  apply holds.bears.filled
  intro e mem
  apply spacious e.2.tag
  rw [Branch.form, preorder_map]
  exact List.mem_map_of_mem mem

/-- The form of `(a (b c) d)`. -/
def tightList : Form :=
  .node ⟨.list, Span.sized 0 11⟩ [.leaf ⟨.atom "a", Span.sized 1 1⟩, .node ⟨.list, Span.sized 3 5⟩
    [.leaf ⟨.atom "b", Span.sized 4 1⟩, .leaf ⟨.atom "c", Span.sized 6 1⟩],
    .leaf ⟨.atom "d", Span.sized 9 1⟩]

theorem tightList_nested : tightList.Nested := by
  simp [tightList, Rose.leaf, Form.nested_node, Form.span, Span.sized]

theorem tightList_spacious : ∀ tag ∈ tightList.preorder, tag.span.Spacious := by
  simp [tightList, Rose.leaf, Span.Spacious, Span.sized, positionLimit]

/-- The blank behind `b` belongs to the inner list, so `b` stays as it is. -/
theorem tightList_makes_room :
    Agrees (ofForm tightList .fromOne).1 ∧ Ordered (ofForm tightList .fromOne).1 ∧
    Filled (ofForm tightList .fromOne).1 ∧
    (ofForm tightList .fromOne).1.span (ofForm tightList .fromOne).1.root = .ok (Span.sized 0 11) ∧
    ∃ t₁ t₂ t', (ofForm tightList .fromOne).1.stretch ⟨2, 0⟩ 1 = .ok t₁ ∧
      t₁.moveChildrenFrom ⟨2, 0⟩ 5 1 = .ok t₂ ∧ t₂.moveSuccessors ⟨2, 0⟩ 1 = .ok t' ∧
      Pushes (ofForm tightList .fromOne).1 (fun edge => if 5 < edge then edge + 1 else edge) t' ∧
      t'.span ⟨3, 0⟩ = .ok (Span.sized 4 1) ∧ t'.span ⟨4, 0⟩ = .ok (Span.sized 7 1) := by
  have agrees := ofForm_agrees tightList .fromOne
  have ordered := ofForm_ordered tightList_nested .fromOne
  have filled := ofForm_filled tightList_spacious .fromOne
  have whole : (ofForm tightList .fromOne).1.span (ofForm tightList .fromOne).1.root =
      .ok (Span.sized 0 11) := by
    decide
  have inside : (Span.sized 0 11).contains 5 = true := by decide
  obtain ⟨path, h, ran, last, ⟨t₁, t₂, t', ran₁, ran₂, ran₃, pushes⟩, -⟩ :=
    making_room_pushes_edges agrees ordered filled whole inside
  have passed : (ofForm tightList .fromOne).1.enclosing 5 = .ok [⟨0, 0⟩, ⟨2, 0⟩] := by decide
  cases ran.symm.trans passed
  obtain rfl : (⟨2, 0⟩ : Handle) = h := Option.some.inj last
  have seen : (do
      let t₁ ← (ofForm tightList .fromOne).1.stretch ⟨2, 0⟩ 1
      let t₂ ← t₁.moveChildrenFrom ⟨2, 0⟩ 5 1
      let t' ← t₂.moveSuccessors ⟨2, 0⟩ 1
      pure (t'.span ⟨3, 0⟩, t'.span ⟨4, 0⟩)) =
          (.ok (.ok (Span.sized 4 1), .ok (Span.sized 7 1)) : Checked _) := by
    decide +kernel
  rw [ran₁, ok_bind, ran₂, ok_bind, ran₃, ok_bind, pure_eq_ok, Except.ok.injEq, Prod.mk.injEq]
    at seen
  exact ⟨agrees, ordered, filled, whole, t₁, t₂, t', ran₁, ran₂, ran₃, pushes, seen⟩

end Tree

end FormEdit
