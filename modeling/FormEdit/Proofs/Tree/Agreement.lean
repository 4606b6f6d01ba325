import FormEdit.Proofs.Tree.Seats

/-!
# Links that agree, node by node

`Tree.Agrees t` looks at one node of the store at a time: the children of a node name it as their
parent, its parent lists it, and it lists no child twice. The store may hold nodes that the root
does not reach. From this alone follows that the nodes which the root does reach are those of a
branch, each in one place (`Agrees.bears`): a node has one way up to the root (`Ascent.unique`), so
no way down goes round.
-/

namespace FormEdit.Tree

open Rose Branch Slots

/-- A node and those that it names name each other. -/
structure Mutual (s : Slots Node) (h : Handle) (n : Node) : Prop where
  down : ∀ c ∈ n.children, ∃ m, s.get? c = some m ∧ m.parent = some h
  up : ∀ p, n.parent = some p → ∃ m, s.get? p = some m ∧ h ∈ m.children
  once : n.children.Nodup

/-- Names stay good as long as the nodes that are named stay. -/
theorem Mutual.mono {s s' : Slots Node} {h : Handle} {n : Node} (was : Mutual s h n)
    (below : ∀ c ∈ n.children, ∀ m, s.get? c = some m → s'.get? c = some m)
    (above : ∀ p, n.parent = some p → ∀ m, s.get? p = some m → s'.get? p = some m) :
    Mutual s' h n where
  down := by
    intro c names
    obtain ⟨m, live, parent⟩ := was.down c names
    exact ⟨m, below c names m live, parent⟩
  up := by
    intro p names
    obtain ⟨m, live, listed⟩ := was.up p names
    exact ⟨m, above p names m live, listed⟩
  once := was.once

/-- The nodes of a tree name each other, and the root has no parent. The slots of the store are free
or taken, and as many are taken as it says. -/
structure Agrees (t : Tree) : Prop where
  sound : t.nodes.Sound
  counted : t.nodes.Counted
  top : ∃ n, t.nodes.get? t.root = some n ∧ n.parent = none
  each : ∀ h n, t.nodes.get? h = some n → Mutual t.nodes h n

/-- The second handle can be reached from the first one by going to children. -/
abbrev Reaches (t : Tree) : Handle → Handle → Prop :=
  Relation.ReflTransGen fun h c => ∃ n, t.nodes.get? h = some n ∧ c ∈ n.children

/-- The nodes on the way up from a node to the root, without the node itself. -/
inductive Ascent (t : Tree) : Handle → List Handle → Prop
  | root : Ascent t t.root []
  | child {h c : Handle} {n : Node} {up : List Handle} (found : t.nodes.get? h = some n)
      (listed : c ∈ n.children) (rest : Ascent t h up) : Ascent t c (h :: up)

variable {t t' : Tree} {b c : Branch} {fs : List (Frame (Handle × Node))} {h k : Handle} {n : Node}
  {up up' : List Handle}

/-! ## Ways up -/

theorem Ascent.node (agrees : Agrees t) (ascent : Ascent t h up) :
    ∃ n, t.nodes.get? h = some n ∧ n.parent = up.head? := by
  cases ascent with
  | root => exact agrees.top
  | child found listed _ => exact (agrees.each _ _ found).down _ listed

/-- There is one way up. -/
theorem Ascent.unique (agrees : Agrees t) (ascent : Ascent t h up) (other : Ascent t h up') :
    up = up' := by
  induction ascent generalizing up' with
  | root =>
    obtain ⟨n, live, above⟩ := agrees.top
    obtain ⟨m, found, parent⟩ := other.node agrees
    cases live.symm.trans found
    exact (List.head?_eq_none_iff.mp (parent.symm.trans above)).symm
  | child found listed rest ih =>
    obtain ⟨m, live, parent⟩ := (Ascent.child found listed rest).node agrees
    obtain ⟨m', live', parent'⟩ := other.node agrees
    cases live.symm.trans live'
    cases other with
    | root => cases parent.symm.trans parent'
    | child _ _ rest' =>
      cases parent.symm.trans parent'
      rw [ih rest']

theorem Ascent.of_mem (ascent : Ascent t h up) (mem : k ∈ up) :
    ∃ up', Ascent t k up' ∧ up'.length < up.length := by
  induction ascent with
  | root => cases mem
  | child _ _ rest ih =>
    rcases List.mem_cons.mp mem with rfl | mem
    · exact ⟨_, rest, Nat.lt_succ_self _⟩
    · obtain ⟨up', ascent', shorter⟩ := ih mem
      exact ⟨up', ascent', Nat.lt_succ_of_lt shorter⟩

theorem Ascent.nodup (agrees : Agrees t) (ascent : Ascent t h up) : (h :: up).Nodup := by
  induction ascent with
  | root => exact List.nodup_singleton _
  | @child h c n up found listed rest ih =>
    refine List.nodup_cons.mpr ⟨?_, ih⟩
    intro mem
    have whole : Ascent t c (h :: up) := .child found listed rest
    obtain ⟨up', ascent', shorter⟩ := whole.of_mem mem
    rw [whole.unique agrees ascent'] at shorter
    exact Nat.lt_irrefl _ shorter

theorem Ascent.live (agrees : Agrees t) (ascent : Ascent t h up) :
    ∀ k ∈ h :: up, ∃ n, t.nodes.get? k = some n := by
  intro k mem
  rcases List.mem_cons.mp mem with rfl | mem
  · obtain ⟨n, found, -⟩ := ascent.node agrees
    exact ⟨n, found⟩
  · obtain ⟨up', ascent', -⟩ := ascent.of_mem mem
    obtain ⟨n, found, -⟩ := ascent'.node agrees
    exact ⟨n, found⟩

/-- A way up is no longer than the store. -/
theorem Ascent.length_lt (agrees : Agrees t) (ascent : Ascent t h up) :
    up.length < t.nodes.slots.size :=
  length_le_size (ascent.nodup agrees) (ascent.live agrees)

/-! ## The branch under the root -/

/-- A branch that stands in its place under a way up: the ways up of its nodes go on with that
one. -/
structure Hangs (t : Tree) (h : Handle) (up : List Handle) (b : Branch) : Prop where
  handle_eq : handle b = h
  linked : Linked t.nodes up.head? b
  nodup : (handles b).Nodup
  ascents : ∀ k ∈ handles b, ∃ up', Ascent t k up' ∧ (h :: up) <:+ k :: up'

/-- Branches that hang under different children of a node have no handle in common. -/
theorem Hangs.disjoint (agrees : Agrees t) {up : List Handle} (left : Hangs t (handle b) up b)
    (right : Hangs t (handle c) up c) (ne : handle b ≠ handle c) :
    (handles b).Disjoint (handles c) := by
  intro k inside inside'
  obtain ⟨way, ascent, suffix⟩ := left.ascents k inside
  obtain ⟨way', ascent', suffix'⟩ := right.ascents k inside'
  cases ascent.unique agrees ascent'
  have within : (handle b :: up) <:+ handle c :: up :=
    List.suffix_of_suffix_length_le suffix suffix' (Nat.le_refl _)
  exact ne (List.cons.inj (within.eq_of_length rfl)).1

/-- The branches of the children hang under their node, so they make a branch with it. -/
theorem Hangs.node {cs : List Branch} (agrees : Agrees t) (ascent : Ascent t h up)
    (found : t.nodes.get? h = some n) (down : n.children = cs.map handle)
    (each : ∀ c ∈ cs, Hangs t (handle c) (h :: up) c) : Hangs t h up (.node (h, n) cs) where
  handle_eq := rfl
  linked := by
    obtain ⟨m, live, parent⟩ := ascent.node agrees
    cases found.symm.trans live
    exact .node found parent down fun c mem => (each c mem).linked
  nodup := by
    have apart : cs.Pairwise (Function.onFun List.Disjoint handles) := by
      have different : (cs.map handle).Nodup := down ▸ (agrees.each h n found).once
      refine (List.pairwise_map.mp different).imp_of_mem ?_
      intro b c mem mem' ne
      exact (each b mem).disjoint agrees (each c mem') ne
    rw [handles_node, List.nodup_cons, List.nodup_flatMap]
    refine ⟨?_, fun c mem => (each c mem).nodup, apart⟩
    intro inside
    obtain ⟨c, mem, inside⟩ := List.mem_flatMap.mp inside
    obtain ⟨way, ascent', suffix⟩ := (each c mem).ascents h inside
    have longer := suffix.length_le
    rw [ascent.unique agrees ascent'] at longer
    simp only [List.length_cons] at longer
    omega
  ascents := by
    intro k inside
    rw [handles_node, List.mem_cons] at inside
    rcases inside with rfl | inside
    · exact ⟨up, ascent, List.suffix_rfl⟩
    · obtain ⟨c, mem, inside⟩ := List.mem_flatMap.mp inside
      obtain ⟨way, ascent', suffix⟩ := (each c mem).ascents k inside
      exact ⟨way, ascent', (List.suffix_cons _ _).trans suffix⟩

/-- Going down from a node ends, since every step makes the way up longer and none is longer than
the store. -/
theorem Ascent.hangs (agrees : Agrees t) (steps : Nat) (ascent : Ascent t h up)
    (enough : t.nodes.slots.size ≤ up.length + steps) : ∃ b, Hangs t h up b := by
  induction steps generalizing h up with
  | zero =>
    have := ascent.length_lt agrees
    omega
  | succ steps ih =>
    obtain ⟨n, found, -⟩ := ascent.node agrees
    have each : ∀ c ∈ n.children, ∃ b, Hangs t c (h :: up) b := by
      intro c listed
      apply ih (.child found listed ascent)
      rw [List.length_cons]
      omega
    have : Nonempty Branch := ⟨.node (h, n) []⟩
    choose! place hangs using each
    have handles_eq : n.children = (n.children.map place).map handle := by
      rw [List.map_map]
      conv_lhs => rw [← List.map_id n.children]
      exact List.map_congr_left fun c listed => (hangs c listed).handle_eq.symm
    refine ⟨.node (h, n) (n.children.map place), .node agrees ascent found handles_eq ?_⟩
    intro b mem
    obtain ⟨c, listed, rfl⟩ := List.mem_map.mp mem
    rw [(hangs c listed).handle_eq]
    exact hangs c listed

/-- The nodes that the root of a tree reaches are those of a branch. -/
theorem Agrees.bears (agrees : Agrees t) : ∃ b, Bears t b := by
  obtain ⟨b, hangs⟩ := Ascent.root.hangs agrees t.nodes.slots.size (by simp)
  exact ⟨b, agrees.sound, hangs.handle_eq, hangs.linked, hangs.nodup⟩

theorem Bears.root_mem (bears : Bears t b) : t.root ∈ handles b := by
  rw [← bears.root]
  exact handle_mem b

theorem Bears.mem_of_reaches (bears : Bears t b) (reached : Reaches t t.root h) :
    h ∈ handles b := by
  induction reached with
  | refl => exact bears.root_mem
  | tail _ step inside =>
    obtain ⟨n, found, listed⟩ := step
    exact (bears.listed inside found listed).1

theorem Linked.reaches {parent : Option Handle} (linked : Linked t.nodes parent b)
    (mem : h ∈ handles b) :
    Reaches t (handle b) h := by
  induction linked with
  | @node parent top n cs found up down each ih =>
    rw [handles_node, List.mem_cons] at mem
    rcases mem with rfl | mem
    · exact .refl
    · obtain ⟨c, listed, inside⟩ := List.mem_flatMap.mp mem
      exact .head ⟨n, found, down ▸ List.mem_map_of_mem listed⟩ (ih c listed inside)

/-- The nodes of a branch are those that the root reaches. -/
theorem Bears.reaches_iff (bears : Bears t b) : Reaches t t.root h ↔ h ∈ handles b := by
  constructor
  · exact bears.mem_of_reaches
  · intro mem
    rw [← bears.root]
    exact bears.linked.reaches mem

/-- The parent of a node of a branch is a node of the branch, and lists it. -/
theorem Bears.named (bears : Bears t b) (mem : h ∈ handles b) (found : t.nodes.get? h = some n)
    (names : n.parent = some k) :
    k ∈ handles b ∧ ∃ m, t.nodes.get? k = some m ∧ h ∈ m.children := by
  obtain ⟨fs, c, rfl, rfl⟩ := Branch.exists_hole mem
  cases bears.hole.value.symm.trans found
  rw [bears.hole.parent_eq] at names
  cases fs with
  | nil => cases names
  | cons f fs =>
    cases names
    have inside : f.value.1 ∈ outer (f :: fs) := by simp [outer, Frame.around]
    refine ⟨mem_handles_plug.mpr (.inr inside), f.value.2, bears.frame_live, ?_⟩
    have children : f.value.2.children = (f.before ++ c :: f.after).map handle :=
      Linked.children_eq (Bears.hole (b := f.fill c) bears)
    simp [children]

theorem Bears.mutual (bears : Bears t b) (mem : h ∈ handles b) (found : t.nodes.get? h = some n) :
    Mutual t.nodes h n where
  down := fun _ names => (bears.listed mem found names).2
  up := fun _ names => (bears.named mem found names).2
  once := by
    obtain ⟨fs, c, rfl, rfl⟩ := Branch.exists_hole mem
    cases bears.hole.value.symm.trans found
    rw [bears.hole.children_eq]
    have nodup := bears.apart.1
    rcases c with ⟨⟨h, n⟩, cs⟩
    rw [handles_node, List.nodup_cons] at nodup
    exact nodup.2.sublist (map_handle_sublist cs)

/-- The root is the one node of a branch that has no parent. -/
theorem Bears.parent_eq_none (bears : Bears t b) (mem : h ∈ handles b)
    (found : t.nodes.get? h = some n) :
    n.parent = none ↔ h = t.root := by
  obtain ⟨fs, c, rfl, rfl⟩ := Branch.exists_hole mem
  cases bears.hole.value.symm.trans found
  rw [bears.hole.parent_eq, ← bears.root]
  cases fs with
  | nil => exact iff_of_true rfl rfl
  | cons f fs =>
    refine iff_of_false nofun ?_
    intro same
    have top := bears.linked.value
    rw [← same] at top
    have parent : c.value.2.parent = none := by
      rw [Option.some.inj (bears.hole.value.symm.trans top)]
      exact bears.linked.parent_eq
    cases parent.symm.trans bears.hole.parent_eq

/-- The root of a branch is stored, and has no parent. -/
theorem Bears.root_live (bears : Bears t b) :
    ∃ n, t.nodes.get? t.root = some n ∧ n.parent = none := by
  obtain ⟨n, found⟩ := bears.linked.live _ bears.root_mem
  exact ⟨n, found, (bears.parent_eq_none bears.root_mem found).mpr rfl⟩

theorem Holds.agrees (holds : Holds t b) (counted : t.nodes.Counted) : Agrees t where
  sound := holds.sound
  counted := counted
  top := holds.bears.root_live
  each := fun k n found => holds.bears.mutual (holds.full k n found) found

theorem ofForm_agrees (f : Form) (ids : IdSource) : Agrees (ofForm f ids).1 := by
  obtain ⟨b, holds, -⟩ := ofForm_holds f ids
  have changes := plantUnder_changes f none Slots.empty ids sound_empty
  exact holds.agrees (changes.counted sound_empty counted_empty).2

/-! ## After a branch has given way -/

/-- Nodes that the root does not reach name none that it reaches, so nothing changes for them when
one branch under the root gives way to another. -/
theorem GaveWay.agrees (way : GaveWay t fs b c t') (agrees : Agrees t) (bears : Bears t (plug fs b))
    (fresh : ∀ k ∈ handles c, t.nodes.get? k = none) (counted : t'.nodes.Counted) : Agrees t' := by
  have aside : ∀ k n, t.nodes.get? k = some n → k ∉ handles (plug fs b) →
      t'.nodes.get? k = some n := by
    intro k n found outside
    rw [mem_handles_plug, not_or] at outside
    rw [way.others k outside.1 ?_ outside.2, found]
    intro new
    rw [fresh k new] at found
    cases found
  refine ⟨way.bears.sound, counted, way.bears.root_live, ?_⟩
  intro k n found
  by_cases inside : k ∈ handles (plug (relinkFirst (handle c) fs) (under (above fs none) c))
  · exact way.bears.mutual inside found
  · rw [mem_planted, not_or] at inside
    have still : k ∉ handles b := by
      intro mem
      rw [way.gone k mem] at found
      cases found
    rw [way.others k still inside.1 inside.2] at found
    have outside : k ∉ handles (plug fs b) := by
      rw [mem_handles_plug, not_or]
      exact ⟨still, inside.2⟩
    have was := agrees.each k n found
    -- What it names is outside as well: a node of the branch is named by nodes of the branch only.
    apply was.mono
    · intro d names m live
      refine aside d m live fun mem => outside ?_
      obtain ⟨m', live', parent⟩ := was.down d names
      exact (bears.named mem live' parent).1
    · intro p names m live
      refine aside p m live fun mem => outside ?_
      obtain ⟨m', live', listed⟩ := was.up p names
      exact (bears.listed mem live' listed).1

end FormEdit.Tree
