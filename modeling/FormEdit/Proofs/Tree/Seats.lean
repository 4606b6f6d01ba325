import FormEdit.Proofs.Tree.Replacing
import FormEdit.Proofs.Tree.Routes

/-!
# One branch for another

A branch that takes the place of another stands at the same route and has the same parent; the
handles of the older one are gone, and every other node keeps its number, kind, parent and children,
but for the one entry that named the older branch (`Replaced`). All of this goes by links, so moving
nodes before or after makes no difference (`Replaced.of_alike`).
-/

namespace FormEdit.Tree

open Rose Branch Slots

variable {t t' t₁ t₂ : Tree} {b c : Branch} {fs : List (Frame (Handle × Node))} {h k o new : Handle}

/-- What a node keeps while others are replaced: everything but its span, with its children taken
for others as `swap` says. -/
structure Keeps (swap : Handle → Handle) (n m : Node) : Prop where
  id : m.id = n.id
  kind : m.kind = n.kind
  parent : m.parent = n.parent
  children : m.children = n.children.map swap

/-- One handle is taken for another. -/
def swapped (old new k : Handle) : Handle := if k = old then new else k

/-- The node `new` has taken the place of `old`, and nothing else has happened to the links. -/
structure Replaced (t : Tree) (old : Handle) (t' : Tree) (new : Handle) : Prop where
  route : ∃ route, t.route old = .ok route ∧ t'.route new = .ok route
  parent : ∃ parent, t.parent old = .ok parent ∧ t'.parent new = .ok parent
  nodes : ∃ gone, t.handlesUnder old = .ok gone ∧ (∀ k ∈ gone, t'.contains k = false) ∧
    ∀ k n, t.nodes.get? k = some n → k ∉ gone →
      ∃ m, t'.nodes.get? k = some m ∧ Keeps (swapped old new) n m

/-- Nodes that differ in their spans alone. -/
theorem keeps_of_bare {n m : Node} (same : n.bare = m.bare) : Keeps id n m where
  id := (congrArg Node.id same).symm
  kind := (congrArg Node.kind same).symm
  parent := (congrArg Node.parent same).symm
  children := by
    have children : n.bare.children = m.bare.children := congrArg Node.children same
    rw [List.map_id]
    exact children.symm

theorem Keeps.trans {f g : Handle → Handle} {n m p : Node} (first : Keeps f n m)
    (second : Keeps g m p) :
    Keeps (g ∘ f) n p where
  id := second.id.trans first.id
  kind := second.kind.trans first.kind
  parent := second.parent.trans first.parent
  children := by rw [second.children, first.children, List.map_map]

theorem contains_of_handlesUnder {hs : List Handle} (found : t.handlesUnder h = .ok hs) :
    t.contains h = true := by
  obtain ⟨b, sub, -⟩ := bind_eq_ok.mp found
  rw [Tree.subtree, Tree.reach, Tree.expand] at sub
  obtain ⟨n, stored, -⟩ := bind_eq_ok.mp sub
  exact contains_eq_true.mpr ⟨n, get_eq_ok.mp stored⟩

/-- Moving nodes before and after does not matter for what was replaced. -/
theorem Replaced.of_alike (holds : Holds t b) (before : Alike t₁ t)
    (replaced : Replaced t₁ o t₂ new) (after : Alike t' t₂) : Replaced t o t' new := by
  obtain ⟨gone, under, dead, kept⟩ := replaced.nodes
  have live : t.contains o = true := by
    rw [← before.contains_eq]
    exact contains_of_handlesUnder under
  refine ⟨?_, ?_, gone, ?_, ?_, ?_⟩
  · rw [← before.route_eq, after.route_eq]
    exact replaced.route
  · rw [← before.parent_eq, after.parent_eq]
    exact replaced.parent
  · rw [← before.handlesUnder_eq holds live]
    exact under
  · intro k mem
    rw [after.contains_eq]
    exact dead k mem
  · intro k n found outside
    obtain ⟨n₁, found₁, same₁⟩ := before.get? found
    obtain ⟨m₁, stored₁, keeps⟩ := kept k n₁ found₁ outside
    obtain ⟨m, stored, same⟩ := after.get? stored₁
    exact ⟨m, stored, ((keeps_of_bare same₁).trans keeps).trans (keeps_of_bare same)⟩

/-! ## A planted branch in the place of another -/

theorem Bears.get?_of_mem {e : Handle × Node} (bears : Bears t b) (mem : e ∈ b.preorder) :
    t.nodes.get? e.1 = some e.2 := by
  obtain ⟨fs, c, rfl, rfl⟩ := exists_plug mem
  exact bears.hole.value

@[simp] theorem routeOf_relinkFirst (fs : List (Frame (Handle × Node))) :
    routeOf (relinkFirst h fs) = routeOf fs := by
  cases fs with
  | nil => rfl
  | cons f fs => rfl

@[simp] theorem above_relinkFirst (fs : List (Frame (Handle × Node))) (parent : Option Handle) :
    above (relinkFirst h fs) parent = above fs parent := by
  cases fs with
  | nil => rfl
  | cons f fs => rfl

theorem map_swapped {hs : List Handle} (absent : o ∉ hs) : hs.map (swapped o new) = hs := by
  conv_rhs => rw [← List.map_id hs]
  refine List.map_congr_left fun k mem => ?_
  have other : k ≠ o := by
    rintro rfl
    exact absent mem
  rw [swapped, if_neg other, id]

/-- The one link to a branch is renamed where it stands. -/
theorem Bears.relinked {f : Frame (Handle × Node)} (bears : Bears t (plug (f :: fs) b)) :
    (relink new f).value.2.children = f.value.2.children.map (swapped (handle b) new) := by
  have filled : Bears t (plug fs (f.fill b)) := bears
  have children : f.value.2.children = f.before.map handle ++ handle b :: f.after.map handle := by
    rw [← List.map_cons, ← List.map_append]
    exact filled.hole.children_eq
  have nodup : (f.before.map handle ++ handle b :: f.after.map handle).Nodup := by
    have inner := filled.apart.1
    rw [Frame.fill, handles_node, List.nodup_cons] at inner
    rw [← List.map_cons, ← List.map_append]
    exact inner.2.sublist (map_handle_sublist _)
  rw [List.nodup_append, List.nodup_cons] at nodup
  obtain ⟨-, ⟨absent_after, -⟩, apart⟩ := nodup
  have absent_before : handle b ∉ f.before.map handle := fun mem =>
    apart _ mem _ List.mem_cons_self rfl
  have here : swapped (handle b) new (handle b) = new := if_pos rfl
  have length : f.before.length = (f.before.map handle).length := (List.length_map _).symm
  simp only [relink, children]
  rw [List.map_append, List.map_cons, map_swapped absent_before, map_swapped absent_after, here,
    length, List.set_append_right _ _ (Nat.le_refl _), Nat.sub_self, List.set_cons_zero]

/-- The children of a node of a branch are nodes of the branch, and it is their parent. -/
theorem Bears.listed {n : Node} (bears : Bears t b) (mem : k ∈ handles b)
    (found : t.nodes.get? k = some n) (names : h ∈ n.children) :
    h ∈ handles b ∧ ∃ m, t.nodes.get? h = some m ∧ m.parent = some k := by
  obtain ⟨fs, c, rfl, rfl⟩ := Branch.exists_hole mem
  cases bears.hole.value.symm.trans found
  rw [bears.hole.children_eq] at names
  obtain ⟨e, child, rfl⟩ := List.mem_map.mp names
  have linked := bears.hole.child e child
  refine ⟨mem_handles_plug.mpr (.inl ?_), e.value.2, linked.value, linked.parent_eq⟩
  rcases c with ⟨⟨k, n⟩, cs⟩
  rw [handles_node]
  exact List.mem_cons_of_mem _ (List.mem_flatMap.mpr ⟨e, child, handle_mem e⟩)

/-- Around a branch that is replaced every node keeps what it has. -/
theorem Bears.keeps_around (bears : Bears t (plug fs b))
    (bears' : Bears t' (plug (relinkFirst new fs) c)) {n : Node} (found : t.nodes.get? k = some n)
    (outside : k ∈ outer fs) :
    ∃ m, t'.nodes.get? k = some m ∧ m.span = n.span ∧ Keeps (swapped (handle b) new) n m := by
  have inside : k ∈ handles (plug fs b) := mem_handles_plug.mpr (.inr outside)
  have listed : (k, n) ∈ around fs := by
    obtain ⟨⟨_, m⟩, listed, rfl⟩ := List.mem_map.mp outside
    have same :=
      bears.get?_of_mem ((preorder_plug fs b).mem_iff.mpr (List.mem_append_right _ listed))
    cases found.symm.trans same
    exact listed
  have stored {e : Handle × Node} (mem : e ∈ around (relinkFirst new fs)) :
      t'.nodes.get? e.1 = some e.2 :=
    bears'.get?_of_mem ((preorder_plug _ _).mem_iff.mpr (List.mem_append_right _ mem))
  cases fs with
  | nil => cases listed
  | cons f fs =>
    rw [around_cons, Frame.around, List.cons_append, List.mem_cons] at listed
    have was : t.nodes.get? f.value.1 = some f.value.2 := bears.frame_live
    by_cases parent : k = f.value.1
    · -- The parent names the new branch where it named the older one.
      subst parent
      have at_parent : t'.nodes.get? f.value.1 = some (relink new f).value.2 :=
        stored (e := (relink new f).value) List.mem_cons_self
      cases found.symm.trans was
      exact ⟨_, at_parent, rfl, rfl, rfl, rfl, bears.relinked⟩
    · -- No other node names it, since it has one parent.
      have elsewhere : (k, n) ∈ around (relinkFirst new (f :: fs)) :=
        List.mem_cons_of_mem _ (listed.resolve_left fun same => parent (congrArg Prod.fst same))
      refine ⟨n, stored elsewhere, rfl, rfl, rfl, rfl, (map_swapped fun names => ?_).symm⟩
      obtain ⟨-, m, live, up⟩ := bears.listed inside found names
      cases bears.hole.value.symm.trans live
      cases bears.hole.parent_eq.symm.trans up
      exact parent rfl

/-- A planted branch in the place of another. -/
theorem Holds.replaced (holds : Holds t (plug fs b))
    (holds' : Holds t' (plug (relinkFirst (handle c) fs) c))
    (fresh : ∀ k ∈ handles b, k ∉ handles c) :
    Replaced t (handle b) t' (handle c) where
  route := ⟨_, holds.bears.route, by simpa using holds'.bears.route⟩
  parent := ⟨_, holds.hole.parent_ok, by simpa using holds'.hole.parent_ok⟩
  nodes := by
    refine ⟨handles b, holds.bears.handlesUnder, fun k inner => ?_, fun k n found outside => ?_⟩
    · cases live : t'.contains k with
      | false => rfl
      | true =>
        obtain ⟨n, found⟩ := contains_eq_true.mp live
        have inside := mem_handles_plug.mp (holds'.full k n found)
        rw [outer_relinkFirst] at inside
        exact (inside.elim (fresh k inner) (holds.apart.2 k inner)).elim
    · have inside := mem_handles_plug.mp (holds.full k n found)
      obtain ⟨m, stored, -, keeps⟩ :=
        holds.bears.keeps_around holds'.bears found (inside.resolve_left outside)
      exact ⟨m, stored, keeps⟩

end FormEdit.Tree
