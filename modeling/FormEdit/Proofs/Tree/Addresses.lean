import FormEdit.Proofs.Tree.Routes
import FormEdit.Proofs.Tree.Siblings
import FormEdit.Proofs.Tree.Substituting

/-!
# Routes as names of nodes

Going up, a node looks for itself among the children of its parent; going down, a number picks a
child. In a tree whose links agree the two are inverse: every node that the root reaches has one
route, and every route that does not leave the tree is that of one node (`routes_name_nodes`). The
nodes beside a node are those at the end of its route with the last number lowered or raised.
-/

namespace FormEdit.Tree

open Rose Branch

variable {t : Tree} {b c : Branch} {fs : List (Frame (Handle × Node))} {f : Frame (Handle × Node)}
  {h : Handle}

/-- The node stands at the end of the route, and the nodes beside it at the ends of those routes
that differ from it by one in their last number. -/
structure Addressed (t : Tree) (h : Handle) (route : Route) : Prop where
  reached : Reaches t t.root h
  routed : t.route h = .ok route
  root : route = [] → t.siblingBefore h = .ok none ∧ t.siblingAfter h = .ok none
  first : ∀ up, route = up ++ [0] → t.siblingBefore h = .ok none
  before : ∀ up index, route = up ++ [index + 1] → t.siblingBefore h = t.atRoute (up ++ [index])
  after : ∀ up index, route = up ++ [index] → t.siblingAfter h = t.atRoute (up ++ [index + 1])

/-- A route to a child of the parent of a node in its place. -/
theorem Bears.atRoute_beside (bears : Bears t (plug (f :: fs) c)) (index : Nat) :
    t.atRoute (routeOf fs ++ [index]) = .ok ((f.before ++ c :: f.after)[index]?.map handle) := by
  rw [bears.atRoute_eq, branchAt_append, plug_cons, branchAt_plug]
  exact congrArg (fun place => Except.ok (place.map handle)) (branchAt_singleton index (f.fill c))

theorem Bears.addressed (bears : Bears t (plug fs c)) : Addressed t (handle c) (routeOf fs) := by
  have reached : Reaches t t.root (handle c) :=
    bears.reaches_iff.mpr (mem_handles_plug.mpr (.inl (handle_mem c)))
  cases fs with
  | nil =>
    refine ⟨reached, bears.route, fun _ => bears.siblings_root, ?_, ?_, ?_⟩
    · intro up route
      simp [routeOf] at route
    · intro up index route
      simp [routeOf] at route
    · intro up index route
      simp [routeOf] at route
  | cons f fs =>
    -- The last number of the route counts the siblings ahead of the node.
    have last {up : Route} {index : Nat} (route : routeOf (f :: fs) = up ++ [index]) :
        up = routeOf fs ∧ index = f.before.length := by
      obtain ⟨rfl, same⟩ := List.append_inj' route rfl
      exact ⟨rfl, (List.cons.inj same).1.symm⟩
    refine ⟨reached, bears.route, ?_, ?_, ?_, ?_⟩
    · intro route
      simp [routeOf] at route
    · intro up route
      have none_ahead : f.before = [] := List.length_eq_zero_iff.mp (last route).2.symm
      rw [bears.siblingBefore_eq, none_ahead]
      rfl
    · intro up index route
      obtain ⟨rfl, length⟩ := last route
      have bound : index < f.before.length := by omega
      rw [bears.siblingBefore_eq, bears.atRoute_beside, List.getElem?_append_left bound,
        List.getLast?_eq_getElem?, ← length, Nat.add_sub_cancel]
    · intro up index route
      obtain ⟨rfl, rfl⟩ := last route
      rw [bears.siblingAfter_eq, bears.atRoute_beside,
        List.getElem?_append_right (Nat.le_add_right _ _), Nat.add_sub_cancel_left,
        List.getElem?_cons_succ, List.head?_eq_getElem?]

/-- In a tree whose links agree, every node that the root reaches has a route, which leads back to
it. Every route comes to an end, and the node that it leads to, if there is one, is the one node
with this route; the nodes beside that node are those whose routes differ by one in the last number,
if there are any. -/
theorem routes_name_nodes (agrees : Agrees t) :
    (∀ h, Reaches t t.root h → ∃ route, t.route h = .ok route ∧ t.atRoute route = .ok (some h)) ∧
    ∀ route, ∃ found, t.atRoute route = .ok found ∧ ∀ h, found = some h → Addressed t h route := by
  obtain ⟨b, bears⟩ := agrees.bears
  constructor
  · intro h reached
    obtain ⟨fs, c, rfl, rfl⟩ := Branch.exists_hole (bears.mem_of_reaches reached)
    exact ⟨routeOf fs, bears.route, bears.atRoute⟩
  · intro route
    refine ⟨_, bears.atRoute_eq route, ?_⟩
    intro h found
    obtain ⟨c, at_route, rfl⟩ := Option.map_eq_some_iff.mp found
    obtain ⟨fs, rfl, rfl⟩ := exists_plug_of_branchAt at_route
    exact bears.addressed

/-- The `c` of `(a (b c) d)` is the second child of the second child, and has nothing behind it. -/
theorem looseNode_finds_its_way : Agrees looseNode ∧ Addressed looseNode ⟨4, 0⟩ [1, 1] ∧
    looseNode.siblingBefore ⟨4, 0⟩ = .ok (some ⟨3, 0⟩) ∧ looseNode.siblingAfter ⟨4, 0⟩ = .ok none ∧
    looseNode.route ⟨6, 0⟩ = .ok [] ∧ looseNode.atRoute [] = .ok (some ⟨0, 0⟩) := by
  obtain ⟨-, every⟩ := routes_name_nodes looseNode_agrees
  obtain ⟨found, ended, named⟩ := every [1, 1]
  have leads : looseNode.atRoute [1, 1] = .ok (some ⟨4, 0⟩) := by decide
  cases ended.symm.trans leads
  exact ⟨looseNode_agrees, named ⟨4, 0⟩ rfl, by decide, by decide, by decide, by decide⟩

end FormEdit.Tree
