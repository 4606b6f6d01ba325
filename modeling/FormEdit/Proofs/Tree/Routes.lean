import FormEdit.Proofs.Tree.Links

/-!
# Routes and holes

The route to a hole counts what stands before it in each of the frames around it, from the outermost
one in. A tree that holds a branch finds the branch in the hole by that route, and the route by the
branch.
-/

namespace FormEdit

namespace Rose

variable {α β : Type}

/-- The child numbers that lead to a hole. -/
def routeOf : List (Frame α) → Route
  | [] => []
  | f :: fs => routeOf fs ++ [f.before.length]

theorem routeOf_map (g : α → β) (fs : List (Frame α)) :
    routeOf (fs.map (Frame.map g)) = routeOf fs := by
  induction fs with
  | nil => rfl
  | cons f fs ih => simp [routeOf, Frame.map, ih]

/-- The tree with a change made at the end of a route. -/
def changeAt (change : Rose α → Rose α) : Route → Rose α → Rose α
  | [], t => change t
  | index :: route, .node a cs => .node a (cs.modify index (changeAt change route))

theorem changeAt_append (change : Rose α → Rose α) (first second : Route) (t : Rose α) :
    changeAt change (first ++ second) t = changeAt (changeAt change second) first t := by
  induction first generalizing t with
  | nil => rfl
  | cons index first ih =>
    obtain ⟨a, cs⟩ := t
    rw [List.cons_append, changeAt, changeAt]
    congr 2
    funext c
    exact ih c

/-- What changes at the route of a hole is what stands in the hole. -/
theorem changeAt_plug (change : Rose α → Rose α) (fs : List (Frame α)) (t : Rose α) :
    changeAt change (routeOf fs) (plug fs t) = plug fs (change t) := by
  induction fs generalizing t change with
  | nil => rfl
  | cons f fs ih =>
    have inner : changeAt change [f.before.length] (f.fill t) = f.fill (change t) := by
      simp only [Frame.fill, changeAt, List.modify_eq_take_drop, List.take_left, List.drop_left,
        List.modifyHead_cons]
    rw [routeOf, changeAt_append, plug_cons, ih, inner, plug_cons]

/-- The tree at the end of a route. -/
def branchAt : Route → Rose α → Option (Rose α)
  | [], t => some t
  | index :: route, t => t.children[index]? >>= branchAt route

theorem branchAt_singleton (index : Nat) (t : Rose α) :
    branchAt [index] t = t.children[index]? := by
  rw [branchAt]
  cases t.children[index]? <;> rfl

theorem branchAt_append (first second : Route) (t : Rose α) :
    branchAt (first ++ second) t = branchAt first t >>= branchAt second := by
  induction first generalizing t with
  | nil => rfl
  | cons index first ih =>
    rw [List.cons_append, branchAt, branchAt]
    cases t.children[index]? with
    | none => rfl
    | some c => exact ih c

/-- At the route of a hole is what stands in the hole. -/
theorem branchAt_plug (fs : List (Frame α)) (t : Rose α) :
    branchAt (routeOf fs) (plug fs t) = some t := by
  induction fs generalizing t with
  | nil => rfl
  | cons f fs ih =>
    have inner : branchAt [f.before.length] (f.fill t) = some t := by
      simp [Frame.fill, branchAt_singleton]
    rw [routeOf, branchAt_append, plug_cons, ih]
    exact inner

theorem routeOf_append (fs gs : List (Frame α)) :
    routeOf (fs ++ gs) = routeOf gs ++ routeOf fs := by
  induction fs with
  | nil => exact (List.append_nil _).symm
  | cons f fs ih => rw [List.cons_append, routeOf, ih, routeOf, List.append_assoc]

/-- What is found at a route stands in a hole to which the route leads. -/
theorem exists_plug_of_branchAt {route : Route} {s t : Rose α} (found : branchAt route t = some s) :
    ∃ fs, t = plug fs s ∧ routeOf fs = route := by
  induction route generalizing t with
  | nil =>
    cases found
    exact ⟨[], rfl, rfl⟩
  | cons index route ih =>
    obtain ⟨a, cs⟩ := t
    obtain ⟨c, listed, found⟩ := Option.bind_eq_some_iff.mp found
    rw [children_node] at listed
    obtain ⟨bound, rfl⟩ := List.getElem?_eq_some_iff.mp listed
    obtain ⟨fs, plugged, routed⟩ := ih found
    refine ⟨fs ++ [⟨a, cs.take index, cs.drop (index + 1)⟩], ?_, ?_⟩
    · have split : cs.take index ++ cs[index] :: cs.drop (index + 1) = cs := by
        rw [List.getElem_cons_drop, List.take_append_drop]
      rw [plug_append, ← plugged]
      exact congrArg (Rose.node a) split.symm
    · have length : (cs.take index).length = index := List.length_take_of_le (Nat.le_of_lt bound)
      rw [routeOf_append, routed, routeOf, routeOf, length]
      rfl

/-- What stands at the root does not matter for the trees below it. -/
theorem branchAt_below {route : Route} (below : route ≠ []) (a b : α) (cs : List (Rose α)) :
    branchAt route (.node a cs) = branchAt route (.node b cs) := by
  cases route with
  | nil => exact absurd rfl below
  | cons index route => rfl

/-- The entries `index` and `index + 1` of a list trade places. -/
def tradeAt : Nat → List α → List α
  | 0, a :: b :: rest => b :: a :: rest
  | index + 1, a :: rest => a :: tradeAt index rest
  | _, list => list

theorem tradeAt_length (before : List α) (a b : α) (after : List α) :
    tradeAt before.length (before ++ a :: b :: after) = before ++ b :: a :: after := by
  induction before with
  | nil => rfl
  | cons x before ih => rw [List.cons_append, List.length_cons, tradeAt, ih, List.cons_append]

/-- Two neighbours among the children of the node at a route trade places. -/
def tradeUnder (index : Nat) : Route → Rose α → Rose α :=
  changeAt fun t => .node t.value (tradeAt index t.children)

theorem tradeUnder_plug (fs : List (Frame α)) (a : α) (before : List (Rose α)) (s t : Rose α)
    (after : List (Rose α)) :
    tradeUnder before.length (routeOf fs) (plug fs (.node a (before ++ s :: t :: after))) =
      plug fs (.node a (before ++ t :: s :: after)) := by
  rw [tradeUnder, changeAt_plug, value_node, children_node, tradeAt_length]

end Rose

namespace Tree

open Rose Branch

variable {t : Tree} {b : Branch} {fs : List (Frame (Handle × Node))}

/-- Going down along the links of a branch leads where the branch says. -/
theorem Linked.descend {parent : Option Handle} (linked : Linked t.nodes parent b) (route : Route) :
    t.descend (handle b) route = .ok ((branchAt route b).map handle) := by
  induction route generalizing b parent with
  | nil => rfl
  | cons index route ih =>
    rw [Tree.descend, linked.children_ok, ok_bind, List.getElem?_map, branchAt]
    cases found : b.children[index]? with
    | none => rfl
    | some c => exact ih (linked.child c (List.mem_of_getElem? found))

/-- Every route ends: at a node of the branch, or outside of the tree. -/
theorem Bears.atRoute_eq (bears : Bears t b) (route : Route) :
    t.atRoute route = .ok ((branchAt route b).map handle) := by
  rw [Tree.atRoute, ← bears.root]
  exact bears.linked.descend route

/-- The route to a hole leads to what stands in it. -/
theorem Bears.atRoute (bears : Bears t (plug fs b)) :
    t.atRoute (routeOf fs) = .ok (some (handle b)) := by
  rw [bears.atRoute_eq, branchAt_plug]
  rfl

theorem Bears.climb {steps : Nat} (bears : Bears t (plug fs b)) (enough : fs.length < steps) :
    t.climb steps (handle b) = .ok (routeOf fs) := by
  induction fs generalizing b steps with
  | nil =>
    obtain ⟨steps, rfl⟩ := Nat.exists_eq_add_of_lt enough
    simp only [List.length_nil, Nat.zero_add, Tree.climb]
    rw [show t.seat (handle b) = .ok none from Bears.seat_root bears]
    rfl
  | cons f fs ih =>
    obtain ⟨steps, rfl⟩ := Nat.exists_eq_add_of_lt enough
    have outer : t.climb (fs.length + 1 + steps) (handle (f.fill b)) = .ok (routeOf fs) :=
      ih bears (by omega)
    rw [Tree.climb, bears.seat_hole, ok_bind]
    change (do
      let up ← t.climb (fs.length + 1 + steps) (handle (f.fill b))
      pure (up ++ [f.before.length])) = _
    rw [outer]
    rfl

/-- What stands in a hole is found by the route to the hole. -/
theorem Bears.route (bears : Bears t (plug fs b)) : t.route (handle b) = .ok (routeOf fs) :=
  bears.climb bears.depth_lt

end Tree

end FormEdit
