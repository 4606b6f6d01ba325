import FormEdit.Proofs.Tree.Room

/-!
# Planting and replacing branches

A planted form is a branch of fresh handles that stands for the form, numbered in preorder. Put in
the place of another branch it leaves everything around that place as it was, apart from the one
link to it, and the older branch is gone from the store.
-/

namespace FormEdit

namespace IdSource

/-- The next numbers. -/
def take : IdSource → Nat → List Nat
  | _, 0 => []
  | ids, count + 1 => ids.draw.1 :: ids.draw.2.take count

/-- The source after so many numbers. -/
def skip : IdSource → Nat → IdSource
  | ids, 0 => ids
  | ids, count + 1 => ids.draw.2.skip count

end IdSource

namespace Tree

open Rose Branch Slots

/-- Nodes that have drawn their numbers from a source one after the other, and the source after
them. -/
inductive Drawn : IdSource → List (Handle × Node) → IdSource → Prop
  | nil {ids : IdSource} : Drawn ids [] ids
  | cons {ids ids' : IdSource} {e : Handle × Node} {es : List (Handle × Node)}
      (first : e.2.id = ids.draw.1) (rest : Drawn ids.draw.2 es ids') : Drawn ids (e :: es) ids'

theorem Drawn.append {ids ids' ids'' : IdSource} {es ds : List (Handle × Node)}
    (left : Drawn ids es ids') (right : Drawn ids' ds ids'') : Drawn ids (es ++ ds) ids'' := by
  induction left with
  | nil => exact right
  | cons first _ ih => exact .cons first (ih right)

theorem Drawn.numbers {ids ids' : IdSource} {es : List (Handle × Node)}
    (drawn : Drawn ids es ids') :
    es.map (fun e => e.2.id) = ids.take es.length ∧ ids' = ids.skip es.length := by
  induction drawn with
  | nil => exact ⟨rfl, rfl⟩
  | cons first _ ih =>
    rw [List.map_cons, ih.1, first]
    exact ⟨rfl, ih.2⟩

/-- A branch of fresh handles has been added to a store, and it stands for a form. -/
structure Planted (s : Slots Node) (parent : Option Handle) (f : Form) (s' : Slots Node)
    (b : Branch) : Prop where
  sound : s'.Sound
  form : Branch.form b = f
  linked : Linked s' parent b
  nodup : (handles b).Nodup
  fresh : ∀ k ∈ handles b, s.get? k = none
  others : ∀ k, k ∉ handles b → s'.get? k = s.get? k

/-- The same of several branches with one parent. -/
structure PlantedEach (s : Slots Node) (parent : Handle) (parts : List Form) (s' : Slots Node)
    (bs : List Branch) : Prop where
  sound : s'.Sound
  forms : bs.map Branch.form = parts
  linked : ∀ b ∈ bs, Linked s' (some parent) b
  nodup : (bs.flatMap handles).Nodup
  fresh : ∀ k ∈ bs.flatMap handles, s.get? k = none
  others : ∀ k, k ∉ bs.flatMap handles → s'.get? k = s.get? k

theorem plantEach_drawn {parts : List Form}
    (each : ∀ f ∈ parts, ∀ parent s ids, Slots.Sound s → ∃ b,
      Planted s parent f (plantUnder parent f (s, ids)).2.1 b ∧
        (plantUnder parent f (s, ids)).1 = handle b ∧
        Drawn ids b.preorder (plantUnder parent f (s, ids)).2.2)
    (h : Handle) (s : Slots Node) (ids : IdSource) (sound : s.Sound) :
    ∃ bs, PlantedEach s h parts (plantEach h parts (s, ids)).2.1 bs ∧
      (plantEach h parts (s, ids)).1 = bs.map handle ∧
      Drawn ids (bs.flatMap preorder) (plantEach h parts (s, ids)).2.2 := by
  induction parts generalizing s ids with
  | nil => exact ⟨[], ⟨sound, rfl, by simp, by simp, by simp, by simp [plantEach]⟩, rfl, .nil⟩
  | cons f parts ih =>
    obtain ⟨b, one, handle_eq, drawn⟩ := each f (by simp) (some h) s ids sound
    obtain ⟨bs, rest, handles_eq, drawn'⟩ := ih (fun g hg => each g (by simp [hg]))
      (plantUnder (some h) f (s, ids)).2.1 (plantUnder (some h) f (s, ids)).2.2 one.sound
    have apart : ∀ k ∈ handles b, k ∉ bs.flatMap handles := by
      intro k hk hk'
      obtain ⟨n, found⟩ := one.linked.live k hk
      rw [rest.fresh k hk'] at found
      cases found
    refine ⟨b :: bs, ⟨rest.sound, ?_, ?_, ?_, ?_, ?_⟩, ?_, drawn.append drawn'⟩
    · simp [one.form, rest.forms]
    · intro c hc
      rcases List.mem_cons.mp hc with rfl | hc
      · exact one.linked.congr fun k hk => rest.others k (apart k hk)
      · exact rest.linked c hc
    · rw [List.flatMap_cons, List.nodup_append]
      refine ⟨one.nodup, rest.nodup, ?_⟩
      rintro k hk k' hk' rfl
      exact apart k hk hk'
    · intro k hk
      rcases List.mem_append.mp hk with hk | hk
      · exact one.fresh k hk
      · by_cases inside : k ∈ handles b
        · exact one.fresh k inside
        · rw [← one.others k inside]
          exact rest.fresh k hk
    · intro k hk
      rw [List.flatMap_cons, List.mem_append, not_or] at hk
      exact (rest.others k hk.2).trans (one.others k hk.1)
    · simp only [plantEach, List.map_cons, handle_eq, handles_eq]

/-- A form is planted as a branch whose nodes draw their numbers in preorder. -/
theorem plantUnder_drawn (f : Form) (parent : Option Handle) (s : Slots Node) (ids : IdSource)
    (sound : s.Sound) :
    ∃ b, Planted s parent f (plantUnder parent f (s, ids)).2.1 b ∧
      (plantUnder parent f (s, ids)).1 = handle b ∧
      Drawn ids b.preorder (plantUnder parent f (s, ids)).2.2 := by
  induction f using Rose.induction generalizing parent s ids with
  | node tag parts ih =>
    obtain ⟨kind, span⟩ := tag
    -- The node is stored before its children, and again once their handles are known.
    let bare : Node := ⟨ids.draw.1, kind, span, parent, []⟩
    let h := (s.insert bare).1
    have first : Inserted s bare h (s.insert bare).2 := insert_spec sound bare
    obtain ⟨bs, rest, handles_eq, drawn⟩ :=
      plantEach_drawn (fun f hf parent s ids => ih f hf parent s ids)
        h (s.insert bare).2 ids.draw.2 first.sound
    let s' := (plantEach h parts ((s.insert bare).2, ids.draw.2)).2.1
    let whole : Node := { bare with children := bs.map handle }
    have outside : h ∉ bs.flatMap handles := by
      intro hh
      have := first.found
      rw [rest.fresh h hh] at this
      cases this
    have found : s'.get? h = some bare := (rest.others h outside).trans first.found
    have planted : Planted s parent (.node ⟨kind, span⟩ parts) (s'.set h whole)
        (.node (h, whole) bs) := by
      refine ⟨rest.sound.set h whole, ?_, ?_, ?_, ?_, ?_⟩
      · simp only [Branch.form, map_node, Node.tag, ← rest.forms]
        rfl
      · refine .node (get?_set_self found whole) rfl rfl ?_
        intro c hc
        refine (rest.linked c hc).congr fun k hk => get?_set_ne ?_ whole
        rintro rfl
        exact outside (List.mem_flatMap.mpr ⟨c, hc, hk⟩)
      · rw [handles_node, List.nodup_cons]
        exact ⟨outside, rest.nodup⟩
      · intro k hk
        rw [handles_node, List.mem_cons] at hk
        by_cases same : k = h
        · rw [same]
          exact first.fresh
        · rw [← first.others k same]
          exact rest.fresh k (hk.resolve_left same)
      · intro k hk
        rw [handles_node, List.mem_cons, not_or] at hk
        rw [get?_set_ne hk.1, rest.others k hk.2, first.others k hk.1]
    refine ⟨.node (h, whole) bs, ?_, ?_, ?_⟩
    · have stored : (plantUnder parent (.node ⟨kind, span⟩ parts) (s, ids)).2.1 =
          s'.set h whole := by
        simp only [plantUnder]
        exact congrArg (fun children => s'.set h { bare with children := children }) handles_eq
      rw [stored]
      exact planted
    · simp only [plantUnder]
      rfl
    · rw [preorder_node]
      exact .cons rfl drawn

theorem plantUnder_spec (f : Form) (parent : Option Handle) (s : Slots Node) (ids : IdSource)
    (sound : s.Sound) :
    ∃ b, Planted s parent f (plantUnder parent f (s, ids)).2.1 b ∧
      (plantUnder parent f (s, ids)).1 = handle b := by
  obtain ⟨b, planted, handle_eq, -⟩ := plantUnder_drawn f parent s ids sound
  exact ⟨b, planted, handle_eq⟩

theorem plantEach_spec (parts : List Form) (h : Handle) (s : Slots Node) (ids : IdSource)
    (sound : s.Sound) :
    ∃ bs, PlantedEach s h parts (plantEach h parts (s, ids)).2.1 bs := by
  obtain ⟨bs, planted, -⟩ := plantEach_drawn (fun f _ => plantUnder_drawn f) h s ids sound
  exact ⟨bs, planted⟩

theorem ofForm_holds (f : Form) (ids : IdSource) :
    ∃ b, Holds (ofForm f ids).1 b ∧ Branch.form b = f := by
  obtain ⟨b, planted, handle_eq⟩ := plantUnder_spec f none Slots.empty ids sound_empty
  refine ⟨b, ⟨planted.sound, handle_eq.symm, planted.linked, planted.nodup, ?_⟩, planted.form⟩
  intro k n found
  by_contra outside
  rw [show (ofForm f ids).1.nodes.get? k = (Slots.empty : Slots Node).get? k from
    planted.others k outside] at found
  simp [Slots.get?, Slots.empty] at found

/-! ## Freeing a branch -/

/-- What freeing handles does to a store: in enough steps all of them are gone. -/
structure Freed (s : Slots Node) (hs : List Handle) (enough : Prop) (s' : Slots Node) : Prop where
  sound : s'.Sound
  others : ∀ k, k ∉ hs → s'.get? k = s.get? k
  gone : enough → ∀ k ∈ hs, s'.get? k = none

theorem freeEach_spec {steps : Nat} {parent : Option Handle} {s : Slots Node} {bs : List Branch}
    (each : ∀ (b : Branch) (s : Slots Node), b ∈ bs → s.Sound → Linked s parent b →
      (handles b).Nodup → Freed s (handles b) ((handles b).length ≤ steps)
      (freeUnder steps s (handle b)))
    (sound : s.Sound) (linked : ∀ b ∈ bs, Linked s parent b) (nodup : (bs.flatMap handles).Nodup) :
    Freed s (bs.flatMap handles) ((bs.flatMap handles).length ≤ steps)
      ((bs.map handle).foldl (fun nodes child => freeUnder steps nodes child) s) := by
  induction bs generalizing s with
  | nil => exact ⟨sound, fun _ _ => rfl, by simp⟩
  | cons b bs ih =>
    rw [List.flatMap_cons, List.nodup_append] at nodup
    obtain ⟨nodup_b, nodup_bs, apart⟩ := nodup
    have first := each b s (by simp) sound (linked b (by simp)) nodup_b
    have rest := ih (fun c s' mem => each c s' (by simp [mem])) first.sound
      (fun c hc => (linked c (by simp [hc])).congr fun k hk => first.others k fun hk' =>
        apart k hk' k (List.mem_flatMap.mpr ⟨c, hc, hk⟩) rfl) nodup_bs
    refine ⟨rest.sound, ?_, ?_⟩
    · intro k hk
      rw [List.flatMap_cons, List.mem_append, not_or] at hk
      exact (rest.others k hk.2).trans (first.others k hk.1)
    · intro enough k hk
      rw [List.flatMap_cons, List.length_append] at enough
      rw [List.flatMap_cons, List.mem_append] at hk
      by_cases later : k ∈ bs.flatMap handles
      · exact rest.gone (by omega) k later
      · exact (rest.others k later).trans (first.gone (by omega) k (hk.resolve_right later))

theorem freeUnder_spec (steps : Nat) {s : Slots Node} {parent : Option Handle} {b : Branch}
    (sound : s.Sound) (linked : Linked s parent b) (nodup : (handles b).Nodup) :
    Freed s (handles b) ((handles b).length ≤ steps) (freeUnder steps s (handle b)) := by
  induction steps generalizing s parent b with
  | zero =>
    refine ⟨sound, fun _ _ => rfl, fun enough => ?_⟩
    have := List.length_pos_of_mem (handle_mem b)
    omega
  | succ steps ih =>
    rcases b with ⟨⟨h, n⟩, cs⟩
    obtain ⟨s', removed, sound', gone, others⟩ := remove?_spec sound linked.value
    have down : n.children.reverse = cs.reverse.map handle := by
      rw [List.map_reverse]
      exact congrArg List.reverse linked.children_eq
    rw [handles_node, List.nodup_cons] at nodup
    have perm : (cs.flatMap handles).Perm (cs.reverse.flatMap handles) :=
      (List.reverse_perm cs).symm.flatMap_right _
    have apart : ∀ k ∈ cs.flatMap handles, k ≠ h := by
      rintro k hk rfl
      exact nodup.1 hk
    have linked' : ∀ c ∈ cs.reverse, Linked s' (some h) c := by
      intro c hc
      have hc : c ∈ cs := by simpa using hc
      refine (linked.child c hc).congr fun k hk => others k (apart k ?_)
      exact List.mem_flatMap.mpr ⟨c, hc, hk⟩
    have freed :=
      freeEach_spec (fun b s _ sound linked nodup => ih sound linked nodup) sound' linked'
        (perm.nodup_iff.mp nodup.2)
    have unfolded : freeUnder (steps + 1) s (handle (.node (h, n) cs)) =
        (cs.reverse.map handle).foldl (fun nodes child => freeUnder steps nodes child) s' := by
      rw [handle_node, freeUnder, ← down]
      simp only [handle_node, value_node] at removed
      rw [removed]
    rw [unfolded]
    refine ⟨freed.sound, ?_, ?_⟩
    · intro k hk
      rw [handles_node, List.mem_cons, not_or] at hk
      rw [freed.others k fun hk' => hk.2 (perm.mem_iff.mpr hk'), others k hk.1]
    · intro enough k hk
      rw [handles_node, List.length_cons] at enough
      rw [handles_node, List.mem_cons] at hk
      by_cases inner : k ∈ cs.reverse.flatMap handles
      · exact freed.gone (by rw [← perm.length_eq]; omega) k inner
      · rw [freed.others k inner, hk.resolve_right (fun h => inner (perm.mem_iff.mp h))]
        exact gone

/-! ## Taking the place of a branch -/

/-- The branch with another parent. -/
def under (parent : Option Handle) : Branch → Branch
  | .node (h, n) cs => .node (h, { n with parent := parent }) cs

@[simp] theorem handle_under (parent : Option Handle) (b : Branch) :
    handle (under parent b) = handle b := by
  rcases b with ⟨⟨h, n⟩, cs⟩
  rfl

@[simp] theorem handles_under (parent : Option Handle) (b : Branch) :
    handles (under parent b) = handles b := by
  rcases b with ⟨⟨h, n⟩, cs⟩
  simp [under, handles_node]

@[simp] theorem form_under (parent : Option Handle) (b : Branch) :
    Branch.form (under parent b) = Branch.form b := by
  rcases b with ⟨⟨h, n⟩, cs⟩
  simp [under, Branch.form, Node.tag]

/-- The frame with a link to another node in its hole. -/
def relink (h : Handle) (f : Frame (Handle × Node)) : Frame (Handle × Node) :=
  ⟨(f.value.1, { f.value.2 with children := f.value.2.children.set f.before.length h }),
    f.before, f.after⟩

/-- The innermost frame links to another node. -/
def relinkFirst (h : Handle) : List (Frame (Handle × Node)) → List (Frame (Handle × Node))
  | [] => []
  | f :: fs => relink h f :: fs

/-- What the frames look like from outside. -/
def tags (fs : List (Frame (Handle × Node))) : List (Frame Tag) :=
  fs.map (Frame.map fun entry => entry.2.tag)

theorem form_plug (fs : List (Frame (Handle × Node))) (b : Branch) :
    Branch.form (plug fs b) = plug (tags fs) (Branch.form b) :=
  map_plug _ fs b

@[simp] theorem tags_relinkFirst (h : Handle) (fs : List (Frame (Handle × Node))) :
    tags (relinkFirst h fs) = tags fs := by
  cases fs with
  | nil => rfl
  | cons f fs => rfl

@[simp] theorem outer_relinkFirst (h : Handle) (fs : List (Frame (Handle × Node))) :
    outer (relinkFirst h fs) = outer fs := by
  cases fs with
  | nil => rfl
  | cons f fs => rfl

theorem Linked.under {s s' : Slots Node} {parent parent' : Option Handle} {b : Branch}
    (linked : Linked s parent b) (nodup : (handles b).Nodup)
    (root : s'.get? (handle b) = some { b.value.2 with parent := parent' })
    (others : ∀ k ∈ handles b, k ≠ handle b → s'.get? k = s.get? k) :
    Linked s' parent' (Tree.under parent' b) := by
  rcases b with ⟨⟨h, n⟩, cs⟩
  rw [handles_node, List.nodup_cons] at nodup
  refine .node root rfl linked.children_eq ?_
  intro c hc
  refine (linked.child c hc).congr fun k hk => others k ?_ ?_
  · rw [handles_node]
    exact List.mem_cons_of_mem _ (List.mem_flatMap.mpr ⟨c, hc, hk⟩)
  · rintro rfl
    exact nodup.1 (List.mem_flatMap.mpr ⟨c, hc, hk⟩)

variable {t : Tree} {b c : Branch} {fs : List (Frame (Handle × Node))} {f : Form}
  {s' : Slots Node}

/-- A planted branch shares no handle with a branch that was there before. -/
theorem Planted.apart (planted : Planted t.nodes none f s' c) {k : Handle}
    (live : ∃ n, t.nodes.get? k = some n) : k ∉ handles c := by
  intro inside
  obtain ⟨n, found⟩ := live
  rw [planted.fresh k inside] at found
  cases found

theorem Bears.outer_live (bears : Bears t (plug fs b)) {k : Handle} (mem : k ∈ outer fs) :
    ∃ n, t.nodes.get? k = some n :=
  bears.linked.live k (mem_handles_plug.mpr (.inr mem))

/-- What was there before a branch was planted is as it was. -/
theorem Planted.kept (planted : Planted t.nodes none f s' c) {k : Handle}
    (live : ∃ n, t.nodes.get? k = some n) : s'.get? k = t.nodes.get? k :=
  planted.others k (planted.apart live)

theorem Bears.apart_planted (bears : Bears t (plug fs b)) (planted : Planted t.nodes none f s' c)
    {k : Handle} (inside : k ∈ handles b) : k ∉ handles c :=
  planted.apart (bears.hole.live k inside)

/-- The handles there are once one branch has been put in the place of another. -/
theorem mem_planted {parent : Option Handle} {k : Handle} :
    k ∈ handles (plug (relinkFirst (handle c) fs) (under parent c)) ↔ k ∈ handles c ∨
      k ∈ outer fs := by
  rw [mem_handles_plug, handles_under, outer_relinkFirst]

theorem Bears.nodup_substitute (bears : Bears t (plug fs b))
    (planted : Planted t.nodes none f s' c) :
    (handles (plug (relinkFirst (handle c) fs) (under (above fs none) c))).Nodup := by
  have whole := (handles_plug fs b).nodup_iff.mp bears.nodup
  rw [(handles_plug _ _).nodup_iff, handles_under, outer_relinkFirst]
  rw [List.nodup_append] at whole ⊢
  refine ⟨planted.nodup, whole.2.1, ?_⟩
  rintro k hk k' hk' rfl
  exact planted.apart (bears.outer_live hk') hk

/-- The planted branch gets its parent before the older branch is freed. -/
theorem Bears.linked_under (bears : Bears t (plug fs b)) (planted : Planted t.nodes none f s' c)
    {s₁ s₂ : Slots Node} {parent : Option Handle}
    (root : s₁.get? (handle c) = some { c.value.2 with parent := parent })
    (others : ∀ k ∈ handles c, k ≠ handle c → s₁.get? k = s'.get? k)
    (freed : ∀ k, k ∉ handles b → s₂.get? k = s₁.get? k) : Linked s₂ parent (under parent c) := by
  refine planted.linked.under planted.nodup ?_ fun k hk ne => ?_
  · exact (freed _ fun mem => bears.apart_planted planted mem (handle_mem c)).trans root
  · exact (freed k fun mem => bears.apart_planted planted mem hk).trans (others k hk ne)

/-- A frame whose hole is filled anew, in a store that changed at most in the hole. -/
theorem Linked.refill {s s₁ : Slots Node} {parent : Option Handle} {g : Frame (Handle × Node)}
    (linked : Linked s parent (g.fill b)) (nodup : (handles (g.fill b)).Nodup)
    (own : s₁.get? g.value.1 = some (relink (handle c) g).value.2)
    (new : Linked s₁ (some g.value.1) c)
    (others : ∀ k ∈ handles (g.fill b), k ∉ handles b → k ≠ g.value.1 → s₁.get? k = s.get? k) :
    Linked s₁ parent ((relink (handle c) g).fill c) := by
  obtain ⟨⟨p, n⟩, before, after⟩ := g
  rw [Frame.fill, handles_node, List.flatMap_append, List.flatMap_cons, List.nodup_cons,
    List.nodup_append, List.nodup_append] at nodup
  obtain ⟨p_fresh, -, ⟨-, -, b_after⟩, before_rest⟩ := nodup
  simp only [List.mem_append, not_or] at p_fresh before_rest
  have sibling (d : Branch) (hd : d ∈ before ∨ d ∈ after) : Linked s₁ (some p) d := by
    have mem : d ∈ before ++ b :: after := by
      rcases hd with hd | hd <;> simp [hd]
    refine (linked.child d mem).congr fun k hk => others k ?_ ?_ ?_
    · rw [Frame.fill, handles_node]
      exact List.mem_cons_of_mem _ (List.mem_flatMap.mpr ⟨d, mem, hk⟩)
    · intro mem_b
      rcases hd with hd | hd
      · exact before_rest k (List.mem_flatMap.mpr ⟨d, hd, hk⟩) k (.inl mem_b) rfl
      · exact b_after k mem_b k (List.mem_flatMap.mpr ⟨d, hd, hk⟩) rfl
    · rintro rfl
      rcases hd with hd | hd
      · exact p_fresh.1 (List.mem_flatMap.mpr ⟨d, hd, hk⟩)
      · exact p_fresh.2.2 (List.mem_flatMap.mpr ⟨d, hd, hk⟩)
  refine .node own linked.parent_eq ?_ ?_
  · have down : n.children = (before ++ b :: after).map handle := linked.children_eq
    simp [relink, down]
  · intro d hd
    simp only [relink, List.mem_append, List.mem_cons] at hd
    rcases hd with hd | rfl | hd
    · exact sibling d (.inl hd)
    · exact new
    · exact sibling d (.inr hd)

/-- A branch has given way to another: the one is gone, the other is in its place with the links
between it and its parent, and nothing has happened elsewhere in the store. -/
structure GaveWay (t : Tree) (fs : List (Frame (Handle × Node))) (b c : Branch)
    (t' : Tree) : Prop where
  bears : Bears t' (plug (relinkFirst (handle c) fs) (under (above fs none) c))
  gone : ∀ k ∈ handles b, t'.nodes.get? k = none
  others : ∀ k, k ∉ handles b → k ∉ handles c → k ∉ outer fs → t'.nodes.get? k = t.nodes.get? k

/-- A planted branch takes the place of the whole tree. -/
theorem Bears.substitute_root (bears : Bears t (plug [] b))
    (planted : Planted t.nodes none f s' c) :
    ∃ t', Tree.substitute ⟨s', t.root⟩ (handle b) (handle c) = .ok t' ∧ GaveWay t [] b c t' := by
  have old : Linked s' none b := bears.hole.congr fun k hk => planted.kept (bears.hole.live k hk)
  let s₁ := s'.set (handle c) { c.value.2 with parent := none }
  have seat : Tree.seat ⟨s', t.root⟩ (handle b) = .ok none := by
    have top : Tree.parent ⟨s', t.root⟩ (handle b) = .ok none := old.parent_ok
    rw [Tree.seat, top]
    rfl
  have seated : Tree.reseat ⟨s', t.root⟩ (handle b) (handle c) = .ok ⟨s₁, handle c⟩ := by
    rw [Tree.reseat, seat, ok_bind]
    simp only [modify_eq_ok planted.linked.value, ok_bind, pure_eq_ok]
    rfl
  have old₁ : Linked s₁ none b := old.congr fun k hk => get?_set_ne (by
    rintro rfl
    exact bears.apart_planted planted hk (handle_mem c)) _
  have free := freeUnder_spec (reach s₁) (planted.sound.set _ _) old₁ bears.nodup
  have steps : (handles b).length ≤ reach s₁ :=
    Nat.le_succ_of_le (length_le_size bears.nodup old₁.live)
  refine ⟨⟨freeUnder (reach s₁) s₁ (handle b), handle c⟩, ?_,
    ⟨free.sound, by simp [relinkFirst], ?_, bears.nodup_substitute planted⟩, free.gone steps, ?_⟩
  · rw [Tree.substitute, seated]
    rfl
  · exact bears.linked_under planted (get?_set_self planted.linked.value _)
      (fun k _ ne => get?_set_ne ne _) free.others
  · intro k outside new _
    have ne : k ≠ handle c := by
      rintro rfl
      exact new (handle_mem c)
    exact (free.others k outside).trans ((get?_set_ne ne _).trans (planted.others k new))

/-- A store once a planted node is linked in the innermost frame: its parent names it and it names
its parent. -/
def linkedIn (s : Slots Node) (c : Branch) (g : Frame (Handle × Node)) : Slots Node :=
  (s.set g.value.1 (relink (handle c) g).value.2).set (handle c)
    { c.value.2 with parent := some g.value.1 }

theorem get?_linkedIn {s : Slots Node} {g : Frame (Handle × Node)} {k : Handle} (ne : k ≠ g.value.1)
    (ne' : k ≠ handle c) : (linkedIn s c g).get? k = s.get? k :=
  (get?_set_ne ne' _).trans (get?_set_ne ne _)

theorem Linked.linkedIn_new {s : Slots Node} {parent : Option Handle} {g : Frame (Handle × Node)}
    (linked : Linked s parent c) (ne : g.value.1 ≠ handle c) :
    (linkedIn s c g).get? (handle c) = some { c.value.2 with parent := some g.value.1 } :=
  get?_set_self ((get?_set_ne ne.symm _).trans linked.value) _

theorem linkedIn_parent {s : Slots Node} {g : Frame (Handle × Node)}
    (found : s.get? g.value.1 = some g.value.2) (ne : g.value.1 ≠ handle c) :
    (linkedIn s c g).get? g.value.1 = some (relink (handle c) g).value.2 :=
  (get?_set_ne ne _).trans (get?_set_self found _)

theorem Planted.ne_handle (planted : Planted t.nodes none f s' c) {k : Handle}
    (live : ∃ n, t.nodes.get? k = some n) : k ≠ handle c := by
  rintro rfl
  exact planted.apart live (handle_mem c)

theorem Bears.frame_live {g : Frame (Handle × Node)} (bears : Bears t (plug (g :: fs) b)) :
    t.nodes.get? g.value.1 = some g.value.2 :=
  Linked.value (Bears.hole (b := g.fill b) bears)

/-- Below the root the seat of a node is the entry of its parent for it. -/
theorem Bears.reseat_below {g : Frame (Handle × Node)} (bears : Bears t (plug (g :: fs) b))
    (planted : Planted t.nodes none f s' c) :
    Tree.reseat ⟨s', t.root⟩ (handle b) (handle c) = .ok ⟨linkedIn s' c g, t.root⟩ := by
  have old : Linked s' (some g.value.1) b :=
    bears.hole.congr fun k hk => planted.kept (bears.hole.live k hk)
  have p_live : ∃ n, t.nodes.get? g.value.1 = some n := ⟨_, bears.frame_live⟩
  have p_found : s'.get? g.value.1 = some g.value.2 := (planted.kept p_live).trans bears.frame_live
  have new_found : (s'.set g.value.1 (relink (handle c) g).value.2).get? (handle c) =
      some c.value.2 :=
    (get?_set_ne (planted.ne_handle p_live).symm _).trans planted.linked.value
  have seat : Tree.seat ⟨s', t.root⟩ (handle b) = .ok (some (g.value.1, g.before.length)) := by
    have before_seat := bears.seat_hole
    have up : Tree.parent ⟨s', t.root⟩ (handle b) = .ok (some g.value.1) := old.parent_ok
    have up' : t.parent (handle b) = .ok (some g.value.1) := bears.hole.parent_ok
    have down : Tree.children ⟨s', t.root⟩ g.value.1 = t.children g.value.1 := by
      simp only [Tree.children, Tree.node, Slots.get, planted.kept p_live]
    rw [Tree.seat, up', ok_bind] at before_seat
    rw [Tree.seat, up, ok_bind]
    simp only [down]
    exact before_seat
  have second : (s'.set g.value.1 (relink (handle c) g).value.2).modify (handle c)
      (fun node => { node with parent := some g.value.1 }) = .ok (linkedIn s' c g) :=
    modify_eq_ok new_found _
  rw [Tree.reseat, seat, ok_bind]
  simp only [modify_eq_ok p_found, ok_bind]
  change ((s'.set g.value.1 (relink (handle c) g).value.2).modify (handle c) _ >>= _) = _
  rw [second]
  rfl

/-- A planted branch takes the place of a branch below the root. -/
theorem Bears.substitute_below {g : Frame (Handle × Node)} (bears : Bears t (plug (g :: fs) b))
    (planted : Planted t.nodes none f s' c) :
    ∃ t', Tree.substitute ⟨s', t.root⟩ (handle b) (handle c) = .ok t' ∧
      GaveWay t (g :: fs) b c t' := by
  have filled : Bears t (plug fs (g.fill b)) := bears
  have p_outer : g.value.1 ∈ outer (g :: fs) := by simp [outer, Frame.around]
  have p_live := bears.outer_live p_outer
  have p_outside : g.value.1 ∉ handles b := fun mem => bears.apart.2 _ mem p_outer
  let s₁ := linkedIn s' c g
  have old : Linked s₁ (some g.value.1) b := bears.hole.congr fun k hk => by
    have live := bears.hole.live k hk
    refine (get?_linkedIn ?_ (planted.ne_handle live)).trans (planted.kept live)
    rintro rfl
    exact p_outside hk
  have sound : s₁.Sound := (planted.sound.set _ _).set _ _
  have free := freeUnder_spec (reach s₁) sound old bears.apart.1
  have steps : (handles b).length ≤ reach s₁ :=
    Nat.le_succ_of_le (length_le_size bears.apart.1 old.live)
  let s₂ := freeUnder (reach s₁) s₁ (handle b)
  have settled {k : Handle} (outside : k ∉ handles b) (new : k ∉ handles c) (ne : k ≠ g.value.1) :
      s₂.get? k = t.nodes.get? k := by
    have ne' : k ≠ handle c := by
      rintro rfl
      exact new (handle_mem c)
    exact (free.others k outside).trans ((get?_linkedIn ne ne').trans (planted.others k new))
  have new : Linked s₂ (some g.value.1) (under (some g.value.1) c) := by
    refine bears.linked_under planted (planted.linked.linkedIn_new (planted.ne_handle p_live))
      ?_ free.others
    intro k hk ne
    refine get?_linkedIn ?_ ne
    rintro rfl
    exact planted.apart p_live hk
  have own : s₂.get? g.value.1 = some (relink (handle c) g).value.2 := by
    have p_found : s'.get? g.value.1 = some g.value.2 :=
      (planted.kept p_live).trans bears.frame_live
    exact (free.others _ p_outside).trans (linkedIn_parent p_found (planted.ne_handle p_live))
  have here :
      Linked s₂ (above fs none) ((relink (handle c) g).fill (under (some g.value.1) c)) := by
    have refilled := filled.hole.refill filled.apart.1 (by rwa [handle_under]) new
      fun k hk outside => settled outside (planted.apart (filled.hole.live k hk))
    rwa [handle_under] at refilled
  refine ⟨⟨s₂, t.root⟩, ?_, ⟨free.sound, ?_, ?_, bears.nodup_substitute planted⟩, free.gone steps,
    ?_⟩
  · rw [Tree.substitute, bears.reseat_below planted]
    rfl
  · rw [← bears.root]
    exact plug_handle fs rfl
  · refine filled.linked.replace (fun k hk => ?_) rfl here
    have outside : k ∉ handles (g.fill b) := fun mem => filled.apart.2 k mem hk
    rw [Frame.fill, handles_node, List.flatMap_append, List.flatMap_cons] at outside
    simp only [List.mem_cons, List.mem_append, not_or] at outside
    exact settled outside.2.2.1 (planted.apart (filled.outer_live hk)) outside.1
  · intro k outside new apart
    refine settled outside new ?_
    rintro rfl
    exact apart p_outer

/-- A planted branch takes the place of another. -/
theorem Bears.substitute (bears : Bears t (plug fs b)) (planted : Planted t.nodes none f s' c) :
    ∃ t', Tree.substitute ⟨s', t.root⟩ (handle b) (handle c) = .ok t' ∧ GaveWay t fs b c t' := by
  cases fs with
  | nil => exact bears.substitute_root planted
  | cons g fs => exact bears.substitute_below planted

/-- In a tree that holds a branch and nothing else, the nodes around the planted branch are all that
is left. -/
theorem Holds.substitute (holds : Holds t (plug fs b)) (planted : Planted t.nodes none f s' c) :
    ∃ t', Tree.substitute ⟨s', t.root⟩ (handle b) (handle c) = .ok t' ∧
      Holds t' (plug (relinkFirst (handle c) fs) (under (above fs none) c)) := by
  obtain ⟨t', done, bears', gone, others⟩ := holds.bears.substitute planted
  refine ⟨t', done, bears'.sound, bears'.root, bears'.linked, bears'.nodup, ?_⟩
  intro k n found
  rw [mem_planted]
  by_contra outside
  rw [not_or] at outside
  have still : k ∉ handles b := by
    intro mem
    rw [gone k mem] at found
    cases found
  rw [others k still outside.1 outside.2] at found
  exact (mem_handles_plug.mp (holds.full k n found)).elim still outside.2

end Tree

end FormEdit
