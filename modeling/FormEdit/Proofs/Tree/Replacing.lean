import FormEdit.Proofs.Tree.Changes
import FormEdit.Proofs.Tree.Planting
import FormEdit.Proofs.Tree.Siblings

/-!
# Operations on trees as changes

Planting and freeing branches, linking one in the place of another and moving nodes are all made of
the changes that handles and numbers survive. They also leave a tree whose links agree, whatever the
spans of its nodes are.
-/

namespace FormEdit.Tree

open Rose Branch Slots

variable {s s' : Slots Node} {ids : IdSource} {t t' : Tree} {b : Branch} {h : Handle}

/-! ## Planting -/

theorem plantEach_changes {parts : List Form}
    (each : ∀ f ∈ parts, ∀ parent s ids, Slots.Sound s →
      Changes (s, ids) (plantUnder parent f (s, ids)).2)
    (h : Handle) (s : Slots Node) (ids : IdSource) (sound : s.Sound) :
    Changes (s, ids) (plantEach h parts (s, ids)).2 := by
  induction parts generalizing s ids with
  | nil => exact .refl
  | cons f parts ih =>
    obtain ⟨b, planted, -⟩ := plantUnder_spec f (some h) s ids sound
    have first := each f (by simp) (some h) s ids sound
    have rest := ih (fun g mem => each g (by simp [mem])) (plantUnder (some h) f (s, ids)).2.1
      (plantUnder (some h) f (s, ids)).2.2 planted.sound
    simp only [plantEach]
    exact first.trans rest

/-- A planted node is stored under its number, and stored again once its children have handles. -/
theorem plantUnder_changes (f : Form) (parent : Option Handle) (s : Slots Node) (ids : IdSource)
    (sound : s.Sound) : Changes (s, ids) (plantUnder parent f (s, ids)).2 := by
  induction f using Rose.induction generalizing parent s ids with
  | node tag parts ih =>
    let bare : Node := ⟨ids.draw.1, tag.kind, tag.span, parent, []⟩
    have inserted := insert_spec sound bare
    have children :=
      plantEach_changes ih (s.insert bare).1 (s.insert bare).2 ids.draw.2 inserted.sound
    obtain ⟨bs, rest⟩ :=
      plantEach_spec parts (s.insert bare).1 (s.insert bare).2 ids.draw.2 inserted.sound
    have outside : (s.insert bare).1 ∉ bs.flatMap handles := by
      intro mem
      have found := inserted.found
      rw [rest.fresh _ mem] at found
      cases found
    have found : (plantEach (s.insert bare).1 parts ((s.insert bare).2, ids.draw.2)).2.1.get?
        (s.insert bare).1 = some bare := (rest.others _ outside).trans inserted.found
    have first : Change (s, ids) ((s.insert bare).2, ids.draw.2) := .insert rfl
    have last (hs : List Handle) :
        Change (plantEach (s.insert bare).1 parts ((s.insert bare).2, ids.draw.2)).2
        ((plantEach (s.insert bare).1 parts ((s.insert bare).2, ids.draw.2)).2.1.set
          (s.insert bare).1 { bare with children := hs },
          (plantEach (s.insert bare).1 parts ((s.insert bare).2, ids.draw.2)).2.2) := by
      refine .set fun m stored => ?_
      rw [found] at stored
      cases stored
      exact ⟨rfl, rfl⟩
    simp only [plantUnder]
    exact .head first (children.tail (last _))

theorem foldl_changes {f : Slots Node → Handle → Slots Node}
    (step : ∀ s h, Changes (s, ids) (f s h, ids)) (hs : List Handle) (s : Slots Node) :
    Changes (s, ids) (hs.foldl f s, ids) := by
  induction hs generalizing s with
  | nil => exact .refl
  | cons h hs ih => exact (step s h).trans (ih (f s h))

theorem freeUnder_changes (steps : Nat) (s : Slots Node) (h : Handle) :
    Changes (s, ids) (freeUnder steps s h, ids) := by
  induction steps generalizing s h with
  | zero => exact .refl
  | succ steps ih =>
    rw [freeUnder]
    split
    next node freed removed => exact .head (Change.remove removed) (foldl_changes ih _ freed)
    next => exact .refl

/-! ## Linking -/

/-- A node that is stored again with its number and kind. -/
theorem modify_changes {f : Node → Node} (modified : s.modify h f = .ok s')
    (same : ∀ n, (f n).id = n.id ∧ (f n).kind = n.kind) : Changes (s, ids) (s', ids) := by
  obtain ⟨n, found, ran⟩ := bind_eq_ok.mp modified
  cases ran
  refine .single (Change.set ?_)
  intro m found'
  rw [get_eq_ok.mp found] at found'
  cases found'
  exact same n

theorem reseat_changes {old new : Handle} (seated : t.reseat old new = .ok t') :
    Changes (t.nodes, ids) (t'.nodes, ids) := by
  obtain ⟨seat, -, seated⟩ := bind_eq_ok.mp seated
  cases seat with
  | none =>
    obtain ⟨nodes, modified, ran⟩ := bind_eq_ok.mp seated
    cases ran
    exact modify_changes modified fun n => ⟨rfl, rfl⟩
  | some place =>
    obtain ⟨nodes, modified, seated⟩ := bind_eq_ok.mp seated
    obtain ⟨nodes', modified', ran⟩ := bind_eq_ok.mp seated
    cases ran
    exact (modify_changes modified fun n => ⟨rfl, rfl⟩).trans
      (modify_changes modified' fun n => ⟨rfl, rfl⟩)

theorem substitute_changes {old new : Handle} (done : t.substitute old new = .ok t') :
    Changes (t.nodes, ids) (t'.nodes, ids) := by
  obtain ⟨t₁, seated, ran⟩ := bind_eq_ok.mp done
  cases ran
  exact (reseat_changes seated).trans (freeUnder_changes _ _ old)

/-! ## Moving -/

theorem setSpan_kept {span : Span} (done : t.setSpan h span = .ok t') : Alike t' t := by
  obtain ⟨nodes, modified, ran⟩ := bind_eq_ok.mp done
  cases ran
  obtain ⟨n, found, ran⟩ := bind_eq_ok.mp modified
  cases ran
  exact ⟨bare_set (get_eq_ok.mp found) span, rfl⟩

theorem moveChildrenFrom_kept {position : Nat} {distance : Int}
    (done : t.moveChildrenFrom h position distance = .ok t') : Alike t' t := by
  obtain ⟨children, -, moved⟩ := bind_eq_ok.mp done
  clear done
  induction children generalizing t with
  | nil =>
    cases moved
    exact ⟨rfl, rfl⟩
  | cons child children ih =>
    rw [List.foldlM_cons] at moved
    obtain ⟨t₁, first, rest⟩ := bind_eq_ok.mp moved
    obtain ⟨span, -, first⟩ := bind_eq_ok.mp first
    have kept : Alike t₁ t := by
      split at first
      · exact move_kept first
      · cases first
        exact ⟨rfl, rfl⟩
    exact (ih rest).trans kept

/-- The branch with the nodes that a store has for its handles. -/
def restored (s : Slots Node) (b : Branch) : Branch :=
  b.map fun entry => (entry.1, (s.get? entry.1).getD entry.2)

theorem handles_restored (s : Slots Node) (b : Branch) : handles (restored s b) = handles b := by
  simp [handles, restored, preorder_map, List.map_map, Function.comp_def]

theorem Linked.restored {parent : Option Handle} (linked : Linked s parent b)
    (same : s'.bare = s.bare) :
    Linked s' parent (Tree.restored s' b) := by
  induction linked with
  | @node parent h n cs found up down each ih =>
    obtain ⟨n', found', equal⟩ := get?_of_bare same.symm found
    have node_eq : Tree.restored s' (.node (h, n) cs) =
        .node (h, n') (cs.map (Tree.restored s')) := by
      simp [Tree.restored, found']
    have parent_eq : n.bare.parent = n'.bare.parent := congrArg Node.parent equal
    have children_eq : n.bare.children = n'.bare.children := congrArg Node.children equal
    rw [node_eq]
    refine .node found' (parent_eq.symm.trans up) ?_ ?_
    · rw [List.map_map, ← show n.children = n'.children from children_eq, down]
      exact List.map_congr_left fun c _ => by simp [Tree.restored, handle]
    · intro c mem
      obtain ⟨c', mem', rfl⟩ := List.mem_map.mp mem
      exact ih c' mem'

/-- A tree whose links agree is still one when only spans have changed. -/
theorem Holds.restored (holds : Holds t b) (alike : Alike t' t) :
    Holds t' (restored t'.nodes b) := by
  obtain ⟨same, root⟩ := alike
  refine ⟨sound_of_bare same holds.sound, ?_, holds.linked.restored same, ?_, ?_⟩
  · rw [root, ← holds.root]
    simp [handle, Tree.restored]
  · rw [handles_restored]
    exact holds.nodup
  · intro k n found
    obtain ⟨m, live, -⟩ := get?_of_bare same found
    rw [handles_restored]
    exact holds.full k m live

theorem Holds.respan (holds : Holds t b) (alike : Alike t' t) : ∃ b', Holds t' b' :=
  ⟨_, holds.restored alike⟩

/-! ## What spans do not matter for -/

theorem Alike.get? {n : Node} (alike : Alike t' t) (found : t.nodes.get? h = some n) :
    ∃ m, t'.nodes.get? h = some m ∧ n.bare = m.bare :=
  get?_of_bare alike.1.symm found

/-- What is read off a node without its span is the same in both trees, a stale handle included. -/
theorem Alike.read_eq {β : Type} {g : Node → β} (alike : Alike t' t)
    (spanless : ∀ n : Node, g n.bare = g n) (h : Handle) :
    (t'.node h >>= fun n => pure (g n)) = (t.node h >>= fun n => pure (g n)) := by
  have both := congrArg (fun s => s.get? h) alike.1
  simp only [bare_get?] at both
  simp only [Tree.node, Slots.get]
  cases found : t.nodes.get? h with
  | none =>
    rw [found, Option.map_none, Option.map_eq_none_iff] at both
    rw [both]
  | some n =>
    rw [found, Option.map_some] at both
    obtain ⟨m, live, equal⟩ := Option.map_eq_some_iff.mp both
    rw [live]
    exact congrArg Except.ok ((spanless m).symm.trans ((congrArg g equal).trans (spanless n)))

theorem Alike.parent_eq (alike : Alike t' t) (h : Handle) : t'.parent h = t.parent h :=
  alike.read_eq (fun _ => rfl) h

theorem Alike.children_eq (alike : Alike t' t) (h : Handle) : t'.children h = t.children h :=
  alike.read_eq (fun _ => rfl) h

theorem Alike.contains_eq (alike : Alike t' t) (h : Handle) : t'.contains h = t.contains h := by
  have both := congrArg (fun s => (s.get? h).isSome) alike.1
  simpa [Tree.contains, Slots.contains, bare_get?] using both

theorem Alike.climb_eq (alike : Alike t' t) (steps : Nat) (h : Handle) :
    t'.climb steps h = t.climb steps h := by
  induction steps generalizing h with
  | zero => rfl
  | succ steps ih => simp only [Tree.climb, Tree.seat, alike.parent_eq, alike.children_eq, ih]

/-- Routes go by links alone. -/
theorem Alike.route_eq (alike : Alike t' t) (h : Handle) : t'.route h = t.route h := by
  have slots : t'.nodes.bare.slots.size = t.nodes.bare.slots.size :=
    congrArg (fun s : Slots Node => s.slots.size) alike.1
  simp only [Slots.bare, Array.size_map] at slots
  simp only [Tree.route, Tree.reach, slots, alike.climb_eq]

/-- In a tree whose links agree, so does what is under a node. -/
theorem Alike.handlesUnder_eq (alike : Alike t' t) (holds : Holds t b)
    (live : t.contains h = true) :
    t'.handlesUnder h = t.handlesUnder h := by
  obtain ⟨fs, c, rfl, rfl⟩ := holds.exists_hole live
  have holds' := holds.restored alike
  rw [Tree.restored, map_plug] at holds'
  have under := holds.subtree
  have under' := holds'.subtree
  have handle_eq : handle (Tree.restored t'.nodes c) = handle c := by simp [handle, Tree.restored]
  change t'.subtree (handle (Tree.restored t'.nodes c)) = .ok (Tree.restored t'.nodes c) at under'
  rw [handle_eq] at under'
  rw [Tree.handlesUnder, Tree.handlesUnder, under, under', ok_bind, ok_bind]
  exact congrArg Except.ok (handles_restored t'.nodes c)

end FormEdit.Tree
