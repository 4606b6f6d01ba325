import FormEdit.Proofs.Tree.Agreement

/-!
# Putting a form in the place of a subtree

In a tree whose links agree, whatever else its store holds, planting a form and putting it in the
place of a node that the root reaches is substitution. The walk from the root has one block of
handles for another, the new one in the order in which the form's nodes drew their numbers, and the
links agree again.
-/

namespace FormEdit.Tree

open Rose Branch Slots

/-- The node `new` with the form `f` under it has been put in the place of `old`. The handles under
`old` were `gone`; the newer nodes stand as in `block` and have drawn their numbers from `ids`,
which leaves `ids'`. -/
structure Substituted (t : Tree) (old : Handle) (f : Form) (ids : IdSource) (t' : Tree)
    (new : Handle) (ids' : IdSource) (gone : List Handle) (block : Branch) : Prop where
  older : t.handlesUnder old = .ok gone
  newer : t'.subtree new = .ok block
  form : block.form = f
  numbers : block.preorder.map (fun e => e.2.id) = ids.take f.size ∧ ids' = ids.skip f.size
  root : t'.root = swapped old new t.root
  walk : ∃ before after, t.handlesUnder t.root = .ok (before ++ gone ++ after) ∧
    t'.handlesUnder t'.root = .ok (before ++ block.handles ++ after)
  stale : ∀ k, t.contains k = true → (t'.contains k = false ↔ k ∈ gone)
  fresh : ∀ k, t'.contains k = true → (t.contains k = false ↔ k ∈ block.handles)
  kept : ∀ k n, t.nodes.get? k = some n → k ∉ gone →
    ∃ m, t'.nodes.get? k = some m ∧ m.span = n.span ∧ Keeps (swapped old new) n m
  size : t'.size + gone.length = t.size + f.size

variable {t t' : Tree} {b c : Branch} {fs : List (Frame (Handle × Node))} {h k : Handle} {n : Node}

/-! ## Planting keeps links -/

/-- A planted form stands apart from the nodes that are there, so links agree as before. -/
theorem Agrees.plant (agrees : Agrees t) (f : Form) (ids : IdSource) :
    Agrees (t.plant f ids).2.1 := by
  obtain ⟨c, planted, handle_c⟩ := plantUnder_spec f none t.nodes ids agrees.sound
  have changes := plantUnder_changes f none t.nodes ids agrees.sound
  have still : ∀ k n, t.nodes.get? k = some n → (t.plant f ids).2.1.nodes.get? k = some n :=
    fun k n found => (planted.kept ⟨n, found⟩).trans found
  -- The planted branch on its own is all that its root reaches.
  have alone : Bears ⟨(t.plant f ids).2.1.nodes, handle c⟩ c :=
    ⟨planted.sound, rfl, planted.linked, planted.nodup⟩
  refine ⟨planted.sound, (changes.counted agrees.sound agrees.counted).2, ?_, ?_⟩
  · obtain ⟨n, found, parent⟩ := agrees.top
    exact ⟨n, still _ n found, parent⟩
  · intro k n found
    by_cases inside : k ∈ handles c
    · exact alone.mutual inside found
    · have was := agrees.each k n ((planted.others k inside).symm.trans found)
      exact was.mono (fun d _ => still d) (fun p _ => still p)

/-! ## Substitution -/

@[simp] theorem ahead_relinkFirst (h : Handle) (fs : List (Frame (Handle × Node))) :
    (ahead (relinkFirst h fs)).map Prod.fst = (ahead fs).map Prod.fst := by
  cases fs <;> simp [relinkFirst, relink, ahead]

@[simp] theorem behind_relinkFirst (h : Handle) (fs : List (Frame (Handle × Node))) :
    (behind (relinkFirst h fs)).map Prod.fst = (behind fs).map Prod.fst := by
  cases fs <;> simp [relinkFirst, relink, behind]

@[simp] theorem preorder_under (parent : Option Handle) (b : Branch) :
    (under parent b).preorder.map (fun e => e.2.id) = b.preorder.map fun e => e.2.id := by
  rcases b with ⟨⟨h, n⟩, cs⟩
  simp [under]

theorem size_form (b : Branch) : (Branch.form b).size = (handles b).length := by
  rw [Branch.form, size_map, size_eq_length, handles, List.length_map]

/-- The handles that resolve are those of the planted branch, and those that did before but for the
older ones. -/
theorem GaveWay.contains_iff {s' : Slots Node} {f : Form} (way : GaveWay t fs b c t')
    (bears : Bears t (plug fs b)) (planted : Planted t.nodes none f s' c) (k : Handle) :
    t'.contains k = true ↔ k ∈ handles c ∨ t.contains k = true ∧ k ∉ handles b := by
  rw [contains_eq_true, contains_eq_true]
  have stood : k ∈ outer fs → ∃ n, t.nodes.get? k = some n := bears.outer_live
  have stands : k ∈ handles c ∨ k ∈ outer fs → ∃ n, t'.nodes.get? k = some n := by
    intro mem
    apply way.bears.linked.live k
    exact mem_planted.mpr mem
  by_cases older : k ∈ handles b
  · have apart := bears.apart_planted planted older
    simp [way.gone k older, older, apart]
  by_cases newer : k ∈ handles c
  · simp [newer, stands (.inl newer)]
  by_cases around : k ∈ outer fs
  · simp [older, stands (.inr around), stood around]
  · simp [older, newer, way.others k older newer around]

/-- A node that is neither in the older branch nor in the newer one keeps everything but its entry
for the older branch. -/
theorem GaveWay.kept (way : GaveWay t fs b c t') (agrees : Agrees t) (bears : Bears t (plug fs b))
    (found : t.nodes.get? k = some n) (outside : k ∉ handles b) (apart : k ∉ handles c) :
    ∃ m, t'.nodes.get? k = some m ∧ m.span = n.span ∧
      Keeps (swapped (handle b) (handle c)) n m := by
  by_cases around : k ∈ outer fs
  · exact bears.keeps_around way.bears found around
  · refine ⟨n, (way.others k outside apart around).trans found, rfl, rfl, rfl, rfl,
      (map_swapped ?_).symm⟩
    -- A node that names the older branch would be its parent, which is around it.
    intro names
    obtain ⟨m, live, parent⟩ := (agrees.each k n found).down _ names
    have inside : handle b ∈ handles (plug fs b) := mem_handles_plug.mpr (.inl (handle_mem b))
    exact (mem_handles_plug.mp (bears.named inside live parent).1).elim outside around

/-- The root changes only when all of the tree is replaced. -/
theorem GaveWay.root_eq (way : GaveWay t fs b c t') (bears : Bears t (plug fs b)) :
    t'.root = swapped (handle b) (handle c) t.root := by
  rw [← way.bears.root]
  cases fs with
  | nil =>
    rw [← bears.root]
    simp [relinkFirst, swapped]
  | cons g fs =>
    have other : t.root ≠ handle b := by
      intro same
      have inside : handle b ∈ handles (plug (g :: fs) b) :=
        mem_handles_plug.mpr (.inl (handle_mem b))
      have parent := (bears.parent_eq_none inside bears.hole.value).mpr same.symm
      cases parent.symm.trans bears.hole.parent_eq
    rw [swapped, if_neg other, ← bears.root]
    exact plug_handle fs rfl

/-- What a planted branch in the place of another means to someone who reads the tree. -/
theorem GaveWay.substituted {s' : Slots Node} {f : Form} {ids ids' : IdSource}
    (way : GaveWay t fs b c t') (agrees : Agrees t) (bears : Bears t (plug fs b))
    (planted : Planted t.nodes none f s' c) (drawn : Drawn ids c.preorder ids')
    (counted : t'.nodes.Counted) :
    Substituted t (handle b) f ids t' (handle c) ids' (handles b) (under (above fs none) c) := by
  have length : (handles c).length = f.size := by
    rw [← size_form, planted.form]
  have live := way.contains_iff bears planted
  have new : ∀ k ∈ handles c, t.contains k = false :=
    fun k mem => contains_eq_false.mpr (planted.fresh k mem)
  have apart : ∀ k, t.contains k = true → k ∉ handles c := by
    intro k was mem
    rw [new k mem] at was
    cases was
  refine
    { older := bears.handlesUnder
      newer := ?_
      form := by rw [form_under, planted.form]
      numbers := ?_
      root := way.root_eq bears
      walk := ⟨(ahead fs).map Prod.fst, (behind fs).map Prod.fst, ?_, ?_⟩
      stale := ?_
      fresh := ?_
      kept := ?_
      size := ?_ }
  · rw [← handle_under (above fs none) c]
    exact way.bears.subtree
  · rw [preorder_under, ← length, handles, List.length_map]
    exact drawn.numbers
  · rw [bears.walk, handles_plug_eq]
  · rw [way.bears.walk, handles_plug_eq, ahead_relinkFirst, behind_relinkFirst]
  · intro k was
    rw [← Bool.not_eq_true, live]
    simp [was, apart k was]
  · intro k stays
    rw [handles_under]
    rcases (live k).mp stays with mem | ⟨was, -⟩
    · simp [mem, new k mem]
    · simp [was, apart k was]
  · intro k n found outside
    exact way.kept agrees bears found outside (apart k (contains_eq_true.mpr ⟨n, found⟩))
  · rw [← length]
    apply agrees.counted.size_exchange counted bears.apart.1 planted.nodup bears.hole.live
      planted.fresh
    intro k
    rw [← contains_eq_true, ← contains_eq_true, live]

/-- Planting a form and putting it in the place of a node that the root reaches always succeeds, and
is substitution: the links agree again, the walk from the root has the one block of handles for the
other, and apart from the handles that are gone and the entry for the older node nothing has
changed, not even for nodes that the root does not reach. The form is any form, so any that an
assembly completes. -/
theorem planting_is_substitution {old : Handle} (agrees : Agrees t) (reached : Reaches t t.root old)
    (f : Form) (ids : IdSource) :
    ∃ new t₁ ids' t' gone block, t.plant f ids = (new, t₁, ids') ∧ t₁.substitute old new = .ok t' ∧
      Agrees t' ∧ Substituted t old f ids t' new ids' gone block := by
  obtain ⟨b, bears⟩ := agrees.bears
  obtain ⟨fs, b, rfl, rfl⟩ := Branch.exists_hole (bears.mem_of_reaches reached)
  obtain ⟨c, planted, handle_c, drawn⟩ := plantUnder_drawn f none t.nodes ids agrees.sound
  obtain ⟨t', done, way⟩ := bears.substitute planted
  have counted : t'.nodes.Counted := by
    have grown :=
      (plantUnder_changes f none t.nodes ids agrees.sound).counted agrees.sound agrees.counted
    have changes : Changes ((plantUnder none f (t.nodes, ids)).2.1, ids) (t'.nodes, ids) :=
      substitute_changes done
    exact (changes.counted grown.1 grown.2).2
  refine ⟨handle c, (t.plant f ids).2.1, (t.plant f ids).2.2, t', handles b,
    under (above fs none) c, ?_, done, way.agrees agrees bears planted.fresh counted,
    way.substituted agrees bears planted drawn counted⟩
  rw [← handle_c]
  rfl

/-- The tree of `(a (b c) d)`, in a store that also holds a node for `x` which the root does not
reach. -/
def looseNode : Tree :=
  let list : Form := .node ⟨.list, Span.sized 0 11⟩ [.leaf ⟨.atom "a", Span.sized 1 1⟩,
    .node ⟨.list, Span.sized 3 5⟩ [.leaf ⟨.atom "b", Span.sized 4 1⟩,
      .leaf ⟨.atom "c", Span.sized 6 1⟩],
    .leaf ⟨.atom "d", Span.sized 9 1⟩]
  ((ofForm list .fromOne).1.plant (.leaf ⟨.atom "x", Span.sized 0 1⟩) (.counting 7)).2.1

theorem looseNode_agrees : Agrees looseNode := (ofForm_agrees _ _).plant _ _

/-- The inner list gives way to a quoted `y`, and the loose node stays. -/
theorem looseNode_substitution : Agrees looseNode ∧ Reaches looseNode looseNode.root ⟨2, 0⟩ ∧
    ∃ new t₁ ids' t' gone block,
      looseNode.plant (.node ⟨.quote, Span.sized 3 2⟩ [.leaf ⟨.atom "y", Span.sized 4 1⟩])
        (.counting 8) = (new, t₁, ids') ∧
      t₁.substitute ⟨2, 0⟩ new = .ok t' ∧ Agrees t' ∧
      Substituted looseNode ⟨2, 0⟩
        (.node ⟨.quote, Span.sized 3 2⟩ [.leaf ⟨.atom "y", Span.sized 4 1⟩])
        (.counting 8) t' new ids' gone block ∧
      t'.handlesUnder t'.root = .ok [⟨0, 0⟩, ⟨1, 0⟩, ⟨7, 0⟩, ⟨8, 0⟩, ⟨5, 0⟩] ∧
      t'.contains ⟨6, 0⟩ = true ∧ t'.size = 6 := by
  have agrees := looseNode_agrees
  have reached : Reaches looseNode looseNode.root ⟨2, 0⟩ :=
    .single ⟨⟨1, .list, Span.sized 0 11, none, [⟨1, 0⟩, ⟨2, 0⟩, ⟨5, 0⟩]⟩, by decide, by decide⟩
  obtain ⟨new, t₁, ids', t', gone, block, planted, done, agrees', substituted⟩ :=
    planting_is_substitution agrees reached
      (.node ⟨.quote, Span.sized 3 2⟩ [.leaf ⟨.atom "y", Span.sized 4 1⟩]) (.counting 8)
  have seen : (looseNode.plant (.node ⟨.quote, Span.sized 3 2⟩ [.leaf ⟨.atom "y", Span.sized 4 1⟩])
      (.counting 8)).1 = ⟨7, 0⟩ ∧
      (((looseNode.plant (.node ⟨.quote, Span.sized 3 2⟩ [.leaf ⟨.atom "y", Span.sized 4 1⟩])
        (.counting 8)).2.1.substitute ⟨2, 0⟩ ⟨7, 0⟩).map fun t' =>
          (t'.handlesUnder t'.root, t'.contains ⟨6, 0⟩, t'.size)) =
        .ok (.ok [⟨0, 0⟩, ⟨1, 0⟩, ⟨7, 0⟩, ⟨8, 0⟩, ⟨5, 0⟩], true, 6) := by
    decide +kernel
  rw [planted] at seen
  obtain ⟨rfl, seen⟩ := seen
  rw [done] at seen
  obtain ⟨walk, stays, size⟩ :
      t'.handlesUnder t'.root = .ok [⟨0, 0⟩, ⟨1, 0⟩, ⟨7, 0⟩, ⟨8, 0⟩, ⟨5, 0⟩] ∧
      t'.contains ⟨6, 0⟩ = true ∧ t'.size = 6 := by
    simpa [Except.map] using seen
  exact ⟨agrees, reached, _, t₁, ids', t', gone, block, planted, done, agrees', substituted, walk,
    stays, size⟩

end FormEdit.Tree
