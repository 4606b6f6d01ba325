import FormEdit.Proofs.Checked
import FormEdit.Proofs.Rose.Frames
import FormEdit.Proofs.Tree.Balance
import FormEdit.Tree.Planting

/-!
# Trees whose links agree

`Tree.Bears t b` says that the nodes under the root of `t` are those of the branch `b` in their
places: parents and children name each other and no node is listed twice. `Tree.Holds t b` says that
there are no other nodes in the store. Operations on a tree are described by what they do to its
branch. `Linked.replace` is the one argument behind all of them: what an operation does under a node
leaves the links around it alone.
-/

namespace FormEdit

open Rose

/-- Nodes with their handles, in their places. -/
abbrev Branch := Rose (Handle × Node)

namespace Branch

def handle (b : Branch) : Handle := b.value.1

def handles (b : Branch) : List Handle := b.preorder.map Prod.fst

/-- The form that a branch stands for. -/
def form (b : Branch) : Form := b.map fun entry => entry.2.tag

@[simp] theorem handle_node (h : Handle) (n : Node) (cs : List Branch) :
    handle (.node (h, n) cs) = h := rfl

theorem handles_node (h : Handle) (n : Node) (cs : List Branch) :
    handles (.node (h, n) cs) = h :: cs.flatMap handles := by
  simp only [handles, preorder_node, List.map_cons, List.map_flatMap]
  rfl

theorem handle_mem (b : Branch) : handle b ∈ handles b :=
  List.mem_map_of_mem (value_mem_preorder b)

@[simp] theorem span_form (b : Branch) : (form b).span = b.value.2.span := by
  simp [form, Form.span, Node.tag]

theorem tag_mem_form {b : Branch} {entry : Handle × Node} (mem : entry ∈ b.preorder) :
    entry.2.tag ∈ (form b).preorder := by
  rw [form, preorder_map]
  exact List.mem_map.mpr ⟨entry, mem, rfl⟩

/-- A handle of a branch is that of a node in its place. -/
theorem exists_hole {b : Branch} {h : Handle} (mem : h ∈ handles b) :
    ∃ fs c, b = plug fs c ∧ handle c = h := by
  obtain ⟨entry, listed, rfl⟩ := List.mem_map.mp mem
  obtain ⟨fs, c, rfl, value_eq⟩ := exists_plug listed
  exact ⟨fs, c, rfl, congrArg Prod.fst value_eq⟩

theorem map_handle_sublist (cs : List Branch) : (cs.map handle).Sublist (cs.flatMap handles) := by
  induction cs with
  | nil => exact .slnil
  | cons c cs ih =>
    have first : [handle c].Sublist (handles c) := List.singleton_sublist.mpr (handle_mem c)
    exact first.append ih

/-- The handles around a hole. -/
def outer (fs : List (Frame (Handle × Node))) : List Handle := (around fs).map Prod.fst

theorem handles_plug (fs : List (Frame (Handle × Node))) (b : Branch) :
    (handles (plug fs b)).Perm (handles b ++ outer fs) := by
  simp only [handles, outer, ← List.map_append]
  exact (preorder_plug fs b).map _

theorem handles_plug_eq (fs : List (Frame (Handle × Node))) (b : Branch) :
    handles (plug fs b) = (ahead fs).map Prod.fst ++ handles b ++ (behind fs).map Prod.fst := by
  simp only [handles, preorder_plug_eq, List.map_append]

theorem mem_handles_plug {fs : List (Frame (Handle × Node))} {b : Branch} {k : Handle} :
    k ∈ handles (plug fs b) ↔ k ∈ handles b ∨ k ∈ outer fs := by
  rw [(handles_plug fs b).mem_iff, List.mem_append]

end Branch

namespace Tree

open Branch Slots

/-- The nodes of a branch are stored, and their links name each other. -/
inductive Linked (s : Slots Node) : Option Handle → Branch → Prop
  | node {parent : Option Handle} {h : Handle} {n : Node} {cs : List Branch}
      (found : s.get? h = some n) (up : n.parent = parent) (down : n.children = cs.map handle)
      (each : ∀ c ∈ cs, Linked s (some h) c) : Linked s parent (.node (h, n) cs)

variable {s s' : Slots Node} {parent : Option Handle} {b b' : Branch}

theorem Linked.congr (linked : Linked s parent b)
    (same : ∀ k ∈ handles b, s'.get? k = s.get? k) : Linked s' parent b := by
  induction linked with
  | @node parent h n cs found up down each ih =>
    rw [handles_node] at same
    refine .node ((same h (by simp)).trans found) up down ?_
    intro c hc
    refine ih c hc fun k hk => same k ?_
    simp only [List.mem_cons, List.mem_flatMap]
    exact .inr ⟨c, hc, hk⟩

theorem Linked.live (linked : Linked s parent b) : ∀ k ∈ handles b, ∃ n, s.get? k = some n := by
  induction linked with
  | @node parent h n cs found up down each ih =>
    intro k hk
    rw [handles_node] at hk
    simp only [List.mem_cons, List.mem_flatMap] at hk
    rcases hk with rfl | ⟨c, hc, hk⟩
    · exact ⟨n, found⟩
    · exact ih c hc k hk

theorem Linked.value (linked : Linked s parent b) : s.get? (handle b) = some b.value.2 := by
  cases linked
  assumption

theorem Linked.parent_eq (linked : Linked s parent b) : b.value.2.parent = parent := by
  cases linked
  assumption

theorem Linked.children_eq (linked : Linked s parent b) :
    b.value.2.children = b.children.map handle := by
  cases linked
  assumption

theorem Linked.child (linked : Linked s parent b) :
    ∀ c ∈ b.children, Linked s (some (handle b)) c := by
  cases linked
  assumption

/-- The parent of what is in a hole. -/
def above : List (Frame (Handle × Node)) → Option Handle → Option Handle
  | [], parent => parent
  | f :: _, _ => some f.value.1

theorem Linked.hole {fs : List (Frame (Handle × Node))} (linked : Linked s parent (plug fs b)) :
    Linked s (above fs parent) b := by
  induction fs generalizing b with
  | nil => exact linked
  | cons f fs ih =>
    refine (ih linked).child b ?_
    simp [Frame.fill]

/-- What changes in a hole leaves the links around it alone. -/
theorem Linked.replace {fs : List (Frame (Handle × Node))} (linked : Linked s parent (plug fs b))
    (same : ∀ k ∈ outer fs, s'.get? k = s.get? k) (handle_eq : handle b' = handle b)
    (linked' : Linked s' (above fs parent) b') : Linked s' parent (plug fs b') := by
  induction fs generalizing b b' with
  | nil => exact linked'
  | cons f fs ih =>
    simp only [outer, around_cons, List.map_append, List.mem_append] at same
    refine ih linked (fun k hk => same k (.inr hk)) rfl ?_
    have here : Linked s (above fs parent) (f.fill b) := Linked.hole linked
    obtain ⟨⟨h, n⟩, before, after⟩ := f
    have near (k : Handle) (hk : k ∈ (h :: (before.flatMap handles ++ after.flatMap handles))) :
        s'.get? k = s.get? k := by
      refine same k (.inl ?_)
      simpa [Frame.around, handles, List.map_flatMap, Function.comp_def] using hk
    have down : n.children = (before ++ b :: after).map handle := here.children_eq
    have each := here.child
    refine .node ((near h (by simp)).trans here.value) here.parent_eq
      (by simpa [handle_eq] using down) ?_
    intro c hc
    simp only [List.mem_append, List.mem_cons] at hc
    rcases hc with hc | rfl | hc
    · refine (each c (by simp [Frame.fill, hc])).congr fun k hk => near k ?_
      simp only [List.mem_cons, List.mem_append, List.mem_flatMap]
      exact .inr (.inl ⟨c, hc, hk⟩)
    · exact linked'
    · refine (each c (by simp [Frame.fill, hc])).congr fun k hk => near k ?_
      simp only [List.mem_cons, List.mem_append, List.mem_flatMap]
      exact .inr (.inr ⟨c, hc, hk⟩)

/-- The nodes under the root of a tree are those of a branch in their places, each once. The store
may hold others as well. -/
structure Bears (t : Tree) (b : Branch) : Prop where
  sound : t.nodes.Sound
  root : handle b = t.root
  linked : Linked t.nodes none b
  nodup : (handles b).Nodup

/-- The store of a tree holds the nodes of a branch in their places, each once, and no others. -/
structure Holds (t : Tree) (b : Branch) : Prop where
  sound : t.nodes.Sound
  root : handle b = t.root
  linked : Linked t.nodes none b
  nodup : (handles b).Nodup
  full : ∀ k n, t.nodes.get? k = some n → k ∈ handles b

theorem Holds.bears {t : Tree} (holds : Holds t b) : Bears t b :=
  ⟨holds.sound, holds.root, holds.linked, holds.nodup⟩

variable {t t' : Tree} {fs : List (Frame (Handle × Node))}

theorem Bears.hole (bears : Bears t (plug fs b)) : Linked t.nodes (above fs none) b :=
  bears.linked.hole

theorem Holds.hole (holds : Holds t (plug fs b)) : Linked t.nodes (above fs none) b :=
  holds.linked.hole

/-- What is in a hole and what is around it are apart. -/
theorem Bears.apart (bears : Bears t (plug fs b)) :
    (handles b).Nodup ∧ ∀ k ∈ handles b, k ∉ outer fs := by
  have nodup := (handles_plug fs b).nodup_iff.mp bears.nodup
  rw [List.nodup_append] at nodup
  refine ⟨nodup.1, ?_⟩
  intro k inner outside
  exact nodup.2.2 k inner k outside rfl

theorem Holds.apart (holds : Holds t (plug fs b)) :
    (handles b).Nodup ∧ ∀ k ∈ handles b, k ∉ outer fs :=
  holds.bears.apart

theorem plug_handle (fs : List (Frame (Handle × Node))) (same : handle b' = handle b) :
    handle (plug fs b') = handle (plug fs b) := by
  induction fs generalizing b b' with
  | nil => exact same
  | cons f fs ih => exact ih rfl

/-- The nodes of a branch have changed in their places, so that the branch is now another one. No
other node has altered. -/
structure Altered (t : Tree) (b : Branch) (t' : Tree) (b' : Branch) : Prop where
  bears : Bears t' b'
  handles_eq : handles b' = handles b
  others : ∀ k, k ∉ handles b → t'.nodes.get? k = t.nodes.get? k

theorem Bears.unaltered (bears : Bears t b) : Altered t b t b :=
  ⟨bears, rfl, fun _ _ => rfl⟩

theorem Altered.trans {t'' : Tree} {b'' : Branch} (first : Altered t b t' b')
    (second : Altered t' b' t'' b'') :
    Altered t b t'' b'' where
  bears := second.bears
  handles_eq := second.handles_eq.trans first.handles_eq
  others := by
    intro k outside
    rw [second.others k (first.handles_eq ▸ outside), first.others k outside]

/-- If there were no nodes but those of the branch, there are no others now. -/
theorem Altered.holds (altered : Altered t b t' b') (holds : Holds t b) : Holds t' b' where
  sound := altered.bears.sound
  root := altered.bears.root
  linked := altered.bears.linked
  nodup := altered.bears.nodup
  full := by
    intro k n found
    rw [altered.handles_eq]
    by_cases inner : k ∈ handles b
    · exact inner
    · rw [altered.others k inner] at found
      exact holds.full k n found

/-- A change of the store that shows in a hole only, with the same handles, is a change of the
branch in the hole only. -/
theorem Bears.replace (bears : Bears t (plug fs b)) (sound : t'.nodes.Sound)
    (root : t'.root = t.root) (others : ∀ k, k ∉ handles b → t'.nodes.get? k = t.nodes.get? k)
    (handles_eq : handles b' = handles b) (linked' : Linked t'.nodes (above fs none) b') :
    Altered t (plug fs b) t' (plug fs b') := by
  have handle_eq : handle b' = handle b := by
    have firsts := congrArg List.head? handles_eq
    rcases b with ⟨⟨h, n⟩, cs⟩
    rcases b' with ⟨⟨h', n'⟩, cs'⟩
    simpa [handles_node] using firsts
  refine ⟨⟨sound, ?_, ?_, ?_⟩, ?_, ?_⟩
  · rw [plug_handle fs handle_eq, bears.root, root]
  · refine bears.linked.replace ?_ handle_eq linked'
    intro k outside
    exact others k fun inner => bears.apart.2 k inner outside
  · refine (handles_plug fs b').nodup_iff.mpr ?_
    rw [handles_eq]
    exact (handles_plug fs b).nodup_iff.mp bears.nodup
  · rw [handles_plug_eq, handles_plug_eq, handles_eq]
  · intro k outside
    rw [mem_handles_plug, not_or] at outside
    exact others k outside.1

/-- A branch is no larger than the store it is in. -/
theorem Bears.size_le (bears : Bears t b) : (handles b).length ≤ t.nodes.slots.size :=
  length_le_size bears.nodup bears.linked.live

theorem Bears.depth_lt (bears : Bears t (plug fs b)) : fs.length < reach t.nodes := by
  have total := bears.size_le
  have split := (handles_plug fs b).length_eq
  have frames := length_le_around fs
  rw [split] at total
  simp only [outer, List.length_append, List.length_map, reach] at total ⊢
  omega

theorem Holds.depth_lt (holds : Holds t (plug fs b)) : fs.length < reach t.nodes :=
  holds.bears.depth_lt

/-- Following the links of a branch to the end gives the branch. -/
theorem Linked.expand (linked : Linked s parent b) {steps : Nat}
    (enough : (handles b).length ≤ steps) : Tree.expand s steps (handle b) = .ok b := by
  induction linked generalizing steps with
  | @node parent h n cs found up down each ih =>
    rw [handles_node] at enough
    cases steps with
    | zero => simp at enough
    | succ steps =>
      have parts : (cs.map handle).mapM (fun child => Tree.expand s steps child) = .ok cs := by
        have inside : ∀ c ∈ cs, Tree.expand s steps (handle c) = .ok c := by
          intro c hc
          refine ih c hc ?_
          have := (List.sublist_flatten_of_mem (List.mem_map_of_mem (f := handles) hc)).length_le
          rw [← List.flatMap_def] at this
          simp only [List.length_cons] at enough
          omega
        clear * - inside
        induction cs with
        | nil => rfl
        | cons c cs ih =>
          simp only [List.map_cons, List.mapM_cons, inside c (by simp), ok_bind,
            ih fun d hd => inside d (by simp [hd]), pure_eq_ok]
      simp only [handle_node, Tree.expand, get_eq_ok.mpr found, ok_bind, down, parts, pure_eq_ok]

theorem Bears.subtree (bears : Bears t (plug fs b)) : t.subtree (handle b) = .ok b := by
  refine bears.hole.expand ?_
  have total := bears.size_le
  rw [(handles_plug fs b).length_eq, List.length_append] at total
  simp only [reach]
  omega

theorem Holds.subtree (holds : Holds t (plug fs b)) : t.subtree (handle b) = .ok b :=
  holds.bears.subtree

theorem Bears.handlesUnder (bears : Bears t (plug fs b)) :
    t.handlesUnder (handle b) = .ok (handles b) := by
  rw [Tree.handlesUnder, bears.subtree]
  rfl

/-- The walk from the root goes through the handles of the branch. -/
theorem Bears.walk (bears : Bears t b) : t.handlesUnder t.root = .ok (handles b) := by
  have top : Bears t (plug [] b) := bears
  rw [← bears.root]
  exact top.handlesUnder

/-- The form of a node is that of the branch in its place. -/
theorem Bears.form_hole (bears : Bears t (plug fs b)) :
    t.form (handle b) = .ok (Branch.form b) := by
  rw [Tree.form, bears.subtree]
  rfl

theorem Holds.form_hole (holds : Holds t (plug fs b)) : t.form (handle b) = .ok (Branch.form b) :=
  holds.bears.form_hole

theorem Holds.form (holds : Holds t b) : t.form t.root = .ok (Branch.form b) := by
  have top : Holds t (plug [] b) := holds
  rw [← holds.root]
  exact top.form_hole

/-! ## Reading a node off its place -/

theorem contains_eq_true {k : Handle} : t.contains k = true ↔ ∃ n, t.nodes.get? k = some n := by
  rw [Tree.contains, Slots.contains, Option.isSome_iff_exists]

theorem contains_eq_false {k : Handle} : t.contains k = false ↔ t.nodes.get? k = none := by
  rw [Tree.contains, Slots.contains, Option.isSome_eq_false_iff, Option.isNone_iff_eq_none]

theorem Linked.node_eq (linked : Linked t.nodes parent b) : t.node (handle b) = .ok b.value.2 :=
  get_eq_ok.mpr linked.value

theorem Linked.span_eq (linked : Linked t.nodes parent b) :
    t.span (handle b) = .ok b.value.2.span := by
  rw [Tree.span, linked.node_eq]
  rfl

theorem Linked.parent_ok (linked : Linked t.nodes parent b) : t.parent (handle b) = .ok parent := by
  rw [Tree.parent, linked.node_eq]
  simp [linked.parent_eq]

theorem Linked.children_ok (linked : Linked t.nodes parent b) :
    t.children (handle b) = .ok (b.children.map handle) := by
  rw [Tree.children, linked.node_eq]
  simp [linked.children_eq]

theorem Linked.contains (linked : Linked t.nodes parent b) : t.contains (handle b) = true :=
  contains_eq_true.mpr ⟨_, linked.value⟩

theorem idxOf?_append_cons {h : Handle} {before after : List Handle} (first : h ∉ before) :
    (before ++ h :: after).idxOf? h = some before.length := by
  induction before with
  | nil => simp [List.idxOf?_cons]
  | cons k before ih =>
    rw [List.mem_cons, not_or] at first
    simp [List.idxOf?_cons, ih first.2, Ne.symm first.1]

/-- The root has no seat. -/
theorem Bears.seat_root (bears : Bears t b) : t.seat (handle b) = .ok none := by
  have top : t.parent (handle b) = .ok none := bears.linked.parent_ok
  rw [Tree.seat, top]
  rfl

/-- The seat of a node is its innermost frame. -/
theorem Bears.seat_hole {f : Frame (Handle × Node)} (bears : Bears t (plug (f :: fs) b)) :
    t.seat (handle b) = .ok (some (f.value.1, f.before.length)) := by
  have up : t.parent (handle b) = .ok (some f.value.1) := bears.hole.parent_ok
  have down : t.children f.value.1 = .ok ((f.before ++ b :: f.after).map handle) :=
    Linked.children_ok (Bears.hole (b := f.fill b) bears)
  have nodup := (Bears.apart (b := f.fill b) bears).1
  have first : handle b ∉ f.before.map handle := by
    intro listed
    obtain ⟨c, hc, same⟩ := List.mem_map.mp listed
    obtain ⟨⟨h, n⟩, before, after⟩ := f
    rw [Frame.fill, handles_node, List.flatMap_append, List.flatMap_cons, List.nodup_cons,
      List.nodup_append] at nodup
    have earlier : handle b ∈ before.flatMap handles :=
      List.mem_flatMap.mpr ⟨c, hc, same ▸ handle_mem c⟩
    exact nodup.2.2.2 _ earlier (handle b) (by simp [handle_mem]) rfl
  have place : ((f.before ++ b :: f.after).map handle).idxOf? (handle b) =
      some f.before.length := by
    rw [List.map_append, List.map_cons, idxOf?_append_cons first, List.length_map]
  simp only [Tree.seat, up, ok_bind, down, place, pure_eq_ok]

end Tree

end FormEdit
