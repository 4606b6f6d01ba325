import FormEdit.Proofs.Tree.Links

/-!
# Making room in a tree

What moving nodes does to the branch that a tree holds: a subtree moves as a whole, and making room
at a node moves what stands behind it on every level and stretches what stands around it. Nothing
goes wrong as long as no node is moved out of the range of positions (`Movable`, `Stretchable`).
-/

namespace FormEdit

open Rose

namespace Span

/-- Both ends moved by a distance. -/
def moved (s : Span) (distance : Int) : Span :=
  ⟨(s.start + distance).toNat, (s.stop + distance).toNat, by have := s.start_le_stop; omega⟩

/-- The end moved by a distance, though not past the start. -/
def stretched (s : Span) (distance : Int) : Span :=
  ⟨s.start, max s.start (s.stop + distance).toNat, Nat.le_max_left _ _⟩

@[ext] theorem ext {s t : Span} (start : s.start = t.start) (stop : s.stop = t.stop) : s = t := by
  cases s
  cases t
  simp_all

theorem shiftPosition_ok {position : Nat} {distance : Int} (low : 0 ≤ (position : Int) + distance)
    (high : (position : Int) + distance < positionLimit) :
    shiftPosition position distance = .ok (position + distance).toNat :=
  if_pos ⟨low, high⟩

theorem make_ok {start stop : Nat} (order : start ≤ stop) :
    make start stop = .ok ⟨start, stop, order⟩ :=
  dif_pos order

theorem shift_ok {s : Span} {distance : Int} (low : 0 ≤ (s.start : Int) + distance)
    (high : (s.stop : Int) + distance < positionLimit) :
    s.shift distance = .ok (s.moved distance) := by
  have order := s.start_le_stop
  rw [shift, shiftPosition_ok low (by omega), ok_bind, shiftPosition_ok (by omega) high, ok_bind,
    make_ok (by omega)]
  rfl

theorem stretch_ok {s : Span} {distance : Int} (low : (s.start : Int) ≤ s.stop + distance)
    (high : (s.stop : Int) + distance < positionLimit) :
    s.stretch distance = .ok (s.stretched distance) := by
  rw [stretch, shiftPosition_ok (by omega) high, ok_bind, make_ok (by omega)]
  congr 1
  ext
  · rfl
  · simp only [stretched]
    omega

end Span

def Node.moved (n : Node) (distance : Int) : Node := { n with span := n.span.moved distance }

def Node.stretched (n : Node) (distance : Int) : Node :=
  { n with span := n.span.stretched distance }

namespace Branch

/-- The whole branch moved. -/
def moved (distance : Int) (b : Branch) : Branch :=
  b.map fun entry => (entry.1, entry.2.moved distance)

@[simp] theorem handle_moved (distance : Int) (b : Branch) :
    handle (moved distance b) = handle b := by
  simp [handle, moved]

@[simp] theorem handles_moved (distance : Int) (b : Branch) :
    handles (moved distance b) = handles b := by
  simp only [handles, moved, preorder_map, List.map_map]
  rfl

/-- No node is moved out of the range of positions. -/
def Movable (distance : Int) (b : Branch) : Prop :=
  ∀ entry ∈ b.preorder, 0 ≤ (entry.2.span.start : Int) + distance ∧
    (entry.2.span.stop : Int) + distance < positionLimit

/-- The node is not stretched past its start or out of the range of positions. -/
def Stretchable (distance : Int) (n : Node) : Prop :=
  (n.span.start : Int) ≤ n.span.stop + distance ∧ (n.span.stop : Int) + distance < positionLimit

end Branch

namespace Tree

open Branch Slots

variable {s s' : Slots Node} {t : Tree} {b : Branch} {distance : Int}
  {fs : List (Frame (Handle × Node))}

theorem Linked.moved {parent : Option Handle} (linked : Linked s parent b)
    (all : ∀ k ∈ handles b, s'.get? k = (s.get? k).map (Node.moved · distance)) :
    Linked s' parent (moved distance b) := by
  induction linked with
  | @node parent h n cs found up down each ih =>
    rw [handles_node] at all
    simp only [Branch.moved, map_node]
    refine .node (n := n.moved distance) ?_ up ?_ ?_
    · rw [all h (by simp), found]
      rfl
    · rw [List.map_map]
      refine down.trans (List.map_congr_left fun c hc => ?_)
      exact (handle_moved distance c).symm
    · intro c' hc'
      obtain ⟨c, hc, rfl⟩ := List.mem_map.mp hc'
      refine ih c hc fun k hk => all k ?_
      simp only [List.mem_cons, List.mem_flatMap]
      exact .inr ⟨c, hc, hk⟩

/-- The branches wait to be moved: they stand in the store apart from each other, and no node of
them is moved out of the range of positions. -/
structure Waiting (s : Slots Node) (distance : Int) (bs : List Branch) : Prop where
  linked : ∀ b ∈ bs, ∃ parent, Linked s parent b
  nodup : (bs.flatMap handles).Nodup
  movable : ∀ b ∈ bs, Movable distance b

theorem perm_handles_waiting (cs bs : List Branch) :
    (cs.flatMap handles ++ bs.flatMap handles).Perm ((cs.reverse ++ bs).flatMap handles) := by
  rw [List.flatMap_append]
  exact List.Perm.append_right _ ((List.reverse_perm cs).symm.flatMap_right _)

/-- When the first node has moved, its children wait in front of the others, the last one first. -/
theorem Waiting.next {h : Handle} {n : Node} {cs bs : List Branch}
    (waiting : Waiting s distance (.node (h, n) cs :: bs)) :
    h ∉ (cs.reverse ++ bs).flatMap handles ∧
      Waiting (s.set h (n.moved distance)) distance (cs.reverse ++ bs) := by
  have perm := perm_handles_waiting cs bs
  have nodup := waiting.nodup
  simp only [List.flatMap_cons, handles_node, List.cons_append, List.nodup_cons] at nodup
  have outside : h ∉ (cs.reverse ++ bs).flatMap handles := fun mem =>
    nodup.1 (perm.mem_iff.mpr mem)
  refine ⟨outside, ?_, perm.nodup_iff.mp nodup.2, ?_⟩
  · intro b hb
    have apart : ∀ k ∈ handles b, (s.set h (n.moved distance)).get? k = s.get? k := by
      intro k hk
      refine get?_set_ne ?_ _
      rintro rfl
      exact outside (List.mem_flatMap.mpr ⟨b, hb, hk⟩)
    rcases List.mem_append.mp hb with hb | hb
    · obtain ⟨parent, here⟩ := waiting.linked _ List.mem_cons_self
      exact ⟨_, (here.child b (by simpa using hb)).congr apart⟩
    · obtain ⟨parent, there⟩ := waiting.linked b (by simp [hb])
      exact ⟨parent, there.congr apart⟩
  · intro b hb
    rcases List.mem_append.mp hb with hb | hb
    · intro entry he
      refine waiting.movable _ List.mem_cons_self entry ?_
      simp only [preorder_node, List.mem_cons, List.mem_flatMap]
      exact .inr ⟨b, by simpa using hb, he⟩
    · exact waiting.movable b (by simp [hb])

/-- The nodes that wait and those under them move, and no others. -/
theorem Waiting.moveAll_ok {steps : Nat} {bs : List Branch} (waiting : Waiting s distance bs)
    (enough : (bs.flatMap handles).length ≤ steps) :
    ∃ s', moveAll distance steps s (bs.map handle) = .ok s' ∧
      (∀ k ∈ bs.flatMap handles, s'.get? k = (s.get? k).map (Node.moved · distance)) ∧
      ∀ k, k ∉ bs.flatMap handles → s'.get? k = s.get? k := by
  induction steps generalizing s bs with
  | zero =>
    cases bs with
    | nil => exact ⟨s, rfl, by simp, by simp⟩
    | cons b bs =>
      rcases b with ⟨⟨h, n⟩, cs⟩
      simp [handles_node] at enough
  | succ steps ih =>
    cases bs with
    | nil => exact ⟨s, rfl, by simp, by simp⟩
    | cons b bs =>
      rcases b with ⟨⟨h, n⟩, cs⟩
      obtain ⟨parent, here⟩ := waiting.linked _ List.mem_cons_self
      have found : s.get? h = some n := here.value
      obtain ⟨low, high⟩ := waiting.movable _ List.mem_cons_self (h, n) (by simp)
      have stack : n.children.reverse ++ bs.map handle = (cs.reverse ++ bs).map handle := by
        have down : n.children = cs.map handle := here.children_eq
        simp [down]
      have perm := perm_handles_waiting cs bs
      obtain ⟨outside, waiting'⟩ := waiting.next
      simp only [List.flatMap_cons, handles_node, List.cons_append, List.length_cons] at enough ⊢
      obtain ⟨s', moved, inside, others⟩ := ih waiting' (by rw [← perm.length_eq]; omega)
      refine ⟨s', ?_, ?_, ?_⟩
      · rw [List.map_cons, handle_node, moveAll, get_eq_ok.mpr found, ok_bind,
          Span.shift_ok low high, ok_bind, stack]
        exact moved
      · intro k hk
        rw [List.mem_cons] at hk
        by_cases same : k = h
        · subst same
          rw [others k outside, get?_set_self found, found]
          rfl
        · rw [inside k (perm.mem_iff.mp (hk.resolve_left same)), get?_set_ne same]
      · intro k hk
        rw [List.mem_cons, not_or] at hk
        rw [others k fun hk' => hk.2 (perm.mem_iff.mpr hk'), get?_set_ne hk.1]

theorem sound_of_bare (same : s'.bare = s.bare) (sound : s.Sound) : s'.Sound := by
  obtain ⟨slots, free, size⟩ := s
  obtain ⟨slots', free', size'⟩ := s'
  simp only [bare, Slots.mk.injEq] at same
  obtain ⟨slots_eq, rfl, rfl⟩ := same
  refine ⟨sound.nodup, ?_⟩
  intro index free
  obtain ⟨generation, vacant⟩ := sound.vacant index free
  have at_index := congrArg (fun a => a[index]?) slots_eq
  simp only [Array.getElem?_map] at at_index vacant
  rw [vacant] at at_index
  cases found : slots'[index]? with
  | none => simp [found] at at_index
  | some slot =>
    obtain ⟨g, value⟩ := slot
    simp only [found, Option.map_some, Option.map_none, Option.some.injEq, Slot.mk.injEq,
      Option.map_eq_none_iff] at at_index
    exact ⟨g, by simp [at_index.2]⟩

theorem reach_le_movingReach (s : Slots Node) (distance : Int) : reach s ≤ movingReach s distance :=
  Nat.le_mul_of_pos_right _ (Nat.succ_pos _)

/-- A branch moves as a whole. -/
theorem Bears.move (bears : Bears t (plug fs b)) (movable : Movable distance b) :
    ∃ t', t.move (handle b) distance = .ok t' ∧
      Altered t (plug fs b) t' (plug fs (moved distance b)) := by
  have size : (handles b).length ≤ t.nodes.slots.size :=
    length_le_size bears.apart.1 bears.hole.live
  have enough : (handles b).length ≤ movingReach t.nodes distance := by
    refine Nat.le_trans ?_ (reach_le_movingReach t.nodes distance)
    simp only [reach]
    omega
  have waiting : Waiting t.nodes distance [b] :=
    ⟨by simpa using ⟨_, bears.hole⟩, by simpa using bears.apart.1, by simpa using movable⟩
  obtain ⟨s', ran, inside, others⟩ := waiting.moveAll_ok (by simpa using enough)
  simp only [List.flatMap_cons, List.flatMap_nil, List.append_nil, List.map_cons,
    List.map_nil] at ran inside others
  have moved_eq : t.move (handle b) distance = .ok { t with nodes := s' } := by
    rw [Tree.move, ran]
    rfl
  refine ⟨{ t with nodes := s' }, moved_eq, ?_⟩
  refine bears.replace (sound_of_bare (move_kept moved_eq).1 bears.sound) rfl others
    (handles_moved distance b) ?_
  exact bears.hole.moved inside

/-- Giving a node another span changes nothing else. -/
theorem Bears.setSpan {h : Handle} {n : Node} {cs : List Branch}
    (bears : Bears t (plug fs (.node (h, n) cs))) (span : Span) :
    ∃ t', t.setSpan h span = .ok t' ∧
      Altered t (plug fs (.node (h, n) cs)) t'
        (plug fs (.node (h, { n with span := span }) cs)) := by
  have found : t.nodes.get? h = some n := bears.hole.value
  refine ⟨{ t with nodes := t.nodes.set h { n with span := span } }, ?_, ?_⟩
  · rw [Tree.setSpan, modify_eq_ok found]
    rfl
  · refine bears.replace (bears.sound.set _ _) rfl ?_ (by simp [handles_node]) ?_
    · intro k hk
      rw [handles_node, List.mem_cons, not_or] at hk
      exact get?_set_ne hk.1 _
    · have inner := bears.apart.1
      rw [handles_node, List.nodup_cons] at inner
      refine .node (get?_set_self found _) bears.hole.parent_eq bears.hole.children_eq ?_
      intro c hc
      refine (bears.hole.child c hc).congr fun k hk => get?_set_ne ?_ _
      rintro rfl
      exact inner.1 (List.mem_flatMap.mpr ⟨c, hc, hk⟩)

theorem Holds.setSpan {h : Handle} {n : Node} {cs : List Branch}
    (holds : Holds t (plug fs (.node (h, n) cs))) (span : Span) :
    ∃ t', t.setSpan h span = .ok t' ∧
      Holds t' (plug fs (.node (h, { n with span := span }) cs)) := by
  obtain ⟨t', set, altered⟩ := holds.bears.setSpan span
  exact ⟨t', set, altered.holds holds⟩

theorem Bears.stretch {h : Handle} {n : Node} {cs : List Branch}
    (bears : Bears t (plug fs (.node (h, n) cs))) (stretchable : Stretchable distance n) :
    ∃ t', t.stretch h distance = .ok t' ∧
      Altered t (plug fs (.node (h, n) cs)) t' (plug fs (.node (h, n.stretched distance) cs)) := by
  obtain ⟨t', set, altered⟩ := bears.setSpan (n.span.stretched distance)
  refine ⟨t', ?_, altered⟩
  have found : t.node h = .ok n := bears.hole.node_eq
  rw [Tree.stretch, found, ok_bind, Span.stretch_ok stretchable.1 stretchable.2, ok_bind]
  exact set

/-- The later ones among the children of a node move one after the other. -/
theorem Bears.moveEach {value : Handle × Node} {before after : List Branch}
    (bears : Bears t (plug fs (.node value (before ++ after))))
    (movable : ∀ b ∈ after, Movable distance b) :
    ∃ t', (after.map handle).foldlM (fun t later => t.move later distance) t = .ok t' ∧
      Altered t (plug fs (.node value (before ++ after))) t'
        (plug fs (.node value (before ++ after.map (moved distance)))) := by
  induction after generalizing t before with
  | nil => exact ⟨t, rfl, bears.unaltered⟩
  | cons b after ih =>
    have at_b : Bears t (plug (⟨value, before, after⟩ :: fs) b) := bears
    obtain ⟨t₁, first, altered₁⟩ := at_b.move (movable b (by simp))
    have bears₁ : Bears t₁ (plug fs (.node value ((before ++ [moved distance b]) ++ after))) := by
      simpa [Frame.fill] using altered₁.bears
    obtain ⟨t₂, rest, altered₂⟩ := ih bears₁ fun c hc => movable c (by simp [hc])
    refine ⟨t₂, ?_, altered₁.trans ?_⟩
    · rw [List.map_cons, List.foldlM_cons, first, ok_bind, rest]
    · simpa [Frame.fill] using altered₂

/-- A child moves if it starts at a position or after it. -/
def movedFrom (position : Nat) (distance : Int) (b : Branch) : Branch :=
  if position ≤ b.value.2.span.start then moved distance b else b

theorem Bears.moveChildrenFrom_each {position : Nat} {value : Handle × Node}
    {before after : List Branch} (bears : Bears t (plug fs (.node value (before ++ after))))
    (movable : ∀ b ∈ after, position ≤ b.value.2.span.start → Movable distance b) :
    ∃ t', (after.map handle).foldlM
        (fun t child => do
          let span ← t.span child
          if position ≤ span.start then t.move child distance else pure t) t = .ok t' ∧
      Altered t (plug fs (.node value (before ++ after))) t'
        (plug fs (.node value (before ++ after.map (movedFrom position distance)))) := by
  induction after generalizing t before with
  | nil => exact ⟨t, rfl, bears.unaltered⟩
  | cons b after ih =>
    have at_b : Bears t (plug (⟨value, before, after⟩ :: fs) b) := bears
    have span : t.span (handle b) = .ok b.value.2.span := at_b.hole.span_eq
    have one : ∃ t₁, (if position ≤ b.value.2.span.start then t.move (handle b) distance
          else pure t) = .ok t₁ ∧
        Altered t (plug fs (.node value (before ++ b :: after))) t₁
          (plug fs (.node value ((before ++ [movedFrom position distance b]) ++ after))) := by
      by_cases behind : position ≤ b.value.2.span.start
      · obtain ⟨t₁, first, altered₁⟩ := at_b.move (movable b (by simp) behind)
        exact ⟨t₁, by simpa [behind] using first, by simpa [movedFrom, behind,
          Frame.fill] using altered₁⟩
      · exact ⟨t, by simp [behind], by simpa [movedFrom, behind] using bears.unaltered⟩
    obtain ⟨t₁, first, altered₁⟩ := one
    obtain ⟨t₂, rest, altered₂⟩ := ih altered₁.bears fun c hc => movable c (by simp [hc])
    refine ⟨t₂, ?_, altered₁.trans (by simpa using altered₂)⟩
    rw [List.map_cons, List.foldlM_cons, span, ok_bind, first, ok_bind, rest]

theorem Bears.moveChildrenFrom {position : Nat} {h : Handle} {n : Node} {cs : List Branch}
    (bears : Bears t (plug fs (.node (h, n) cs)))
    (movable : ∀ c ∈ cs, position ≤ c.value.2.span.start → Movable distance c) :
    ∃ t', t.moveChildrenFrom h position distance = .ok t' ∧
      Altered t (plug fs (.node (h, n) cs)) t'
        (plug fs (.node (h, n) (cs.map (movedFrom position distance)))) := by
  have all : Bears t (plug fs (.node (h, n) ([] ++ cs))) := bears
  obtain ⟨t', ran, altered⟩ := all.moveChildrenFrom_each movable
  have children : t.children h = .ok (cs.map handle) := bears.hole.children_ok
  refine ⟨t', ?_, altered⟩
  rw [Tree.moveChildrenFrom, children]
  exact ran

end Tree

/-- Room made in a hole: what stands behind it moves, what stands around it stretches. -/
def roomFrame (distance : Int) (f : Frame (Handle × Node)) : Frame (Handle × Node) :=
  ⟨(f.value.1, f.value.2.stretched distance), f.before, f.after.map (Branch.moved distance)⟩

/-- Nothing around the hole leaves the range of positions when room is made in it. -/
def Roomy (distance : Int) (fs : List (Frame (Handle × Node))) : Prop :=
  ∀ f ∈ fs, Branch.Stretchable distance f.value.2 ∧ ∀ b ∈ f.after, Branch.Movable distance b

namespace Tree

open Branch Slots

variable {t : Tree} {b : Branch} {distance : Int} {fs : List (Frame (Handle × Node))}

theorem Bears.moveAround {steps : Nat} (bears : Bears t (plug fs b)) (roomy : Roomy distance fs)
    (enough : fs.length < steps) :
    ∃ t', Tree.moveAround distance steps t (handle b) = .ok t' ∧
      Altered t (plug fs b) t' (plug (fs.map (roomFrame distance)) b) := by
  induction fs generalizing t b steps with
  | nil =>
    cases steps with
    | zero => simp at enough
    | succ steps =>
      refine ⟨t, ?_, bears.unaltered⟩
      have top : t.seat (handle b) = .ok none := bears.seat_root
      rw [Tree.moveAround, top]
      rfl
  | cons f fs ih =>
    cases steps with
    | zero => simp at enough
    | succ steps =>
      obtain ⟨stretchable, movable⟩ := roomy f (by simp)
      have children : t.children f.value.1 = .ok ((f.before ++ b :: f.after).map handle) :=
        Linked.children_ok (Bears.hole (b := f.fill b) bears)
      have behind : ((f.before ++ b :: f.after).map handle).drop (f.before.length + 1) =
          f.after.map handle := by
        rw [List.append_cons, List.map_append, List.drop_left' (by simp)]
      have split : Bears t (plug fs (.node f.value ((f.before ++ [b]) ++ f.after))) := by
        simpa [Frame.fill] using bears
      obtain ⟨t₁, moved, altered₁⟩ := split.moveEach movable
      obtain ⟨⟨h, n⟩, before, after⟩ := f
      obtain ⟨t₂, stretched, altered₂⟩ := altered₁.bears.stretch stretchable
      have altered : Altered t (plug (⟨(h, n), before, after⟩ :: fs) b) t₂
          (plug fs ((roomFrame distance ⟨(h, n), before, after⟩).fill b)) := by
        simpa [Frame.fill, roomFrame] using altered₁.trans altered₂
      have fewer : fs.length < steps := by simpa using enough
      obtain ⟨t₃, around, altered₃⟩ := ih altered.bears (fun g hg => roomy g (by simp [hg])) fewer
      refine ⟨t₃, ?_, altered.trans altered₃⟩
      rw [Tree.moveAround, bears.seat_hole, ok_bind]
      simp only [children, ok_bind, behind, moved, stretched]
      exact around

theorem Bears.moveSuccessors (bears : Bears t (plug fs b)) (roomy : Roomy distance fs) :
    ∃ t', t.moveSuccessors (handle b) distance = .ok t' ∧
      Altered t (plug fs b) t' (plug (fs.map (roomFrame distance)) b) := by
  refine bears.moveAround roomy ?_
  exact Nat.lt_of_lt_of_le bears.depth_lt (reach_le_movingReach t.nodes distance)

/-- Making room at a node: it stretches, its children from a position on move, and so does all that
stands behind it. -/
theorem Bears.makeRoom {position : Nat} {h : Handle} {n : Node} {cs : List Branch}
    (bears : Bears t (plug fs (.node (h, n) cs))) (stretchable : Stretchable distance n)
    (movable : ∀ c ∈ cs, position ≤ c.value.2.span.start → Movable distance c)
    (roomy : Roomy distance fs) :
    ∃ t₁ t₂ t₃, t.stretch h distance = .ok t₁ ∧
      t₁.moveChildrenFrom h position distance = .ok t₂ ∧
      t₂.moveSuccessors h distance = .ok t₃ ∧
      Altered t (plug fs (.node (h, n) cs)) t₃ (plug (fs.map (roomFrame distance))
        (.node (h, n.stretched distance) (cs.map (movedFrom position distance)))) := by
  obtain ⟨t₁, first, altered₁⟩ := bears.stretch stretchable
  obtain ⟨t₂, second, altered₂⟩ := altered₁.bears.moveChildrenFrom movable
  obtain ⟨t₃, third, altered₃⟩ := altered₂.bears.moveSuccessors roomy
  exact ⟨t₁, t₂, t₃, first, second, third, (altered₁.trans altered₂).trans altered₃⟩

end Tree

end FormEdit
