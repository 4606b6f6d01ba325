import FormEdit.Document.Restructuring
import FormEdit.Document.Typing
import FormEdit.Proofs.Document.Fresh
import FormEdit.Proofs.Document.Rereading
import FormEdit.Proofs.Tree.Agreement

/-!
# Handles through a run of edits

Whatever language a document is read in and whatever edits are made, its tree goes from one to the
next by changes that handles and numbers survive, and its links agree (`Step.continues`). So a
handle is good for its own node or for none, numbers are never given twice, and the store holds the
nodes under the root and nothing else.
-/

namespace FormEdit.Document

open Rose Branch Slots FormEdit.Tree

variable {κ : Type} {l : Language κ} {d d' d'' : Document} {h : Handle}

/-- The tree has changed as trees do, and its links agree. -/
structure Continues (d d' : Document) : Prop where
  linked : d'.WellLinked
  changes : Changes (d.tree.nodes, d.ids) (d'.tree.nodes, d'.ids)

theorem Continues.refl (linked : d.WellLinked) : Continues d d := ⟨linked, .refl⟩

theorem Continues.trans (first : Continues d d') (second : Continues d' d'') : Continues d d'' :=
  ⟨second.linked, first.changes.trans second.changes⟩

/-- Only spans have changed. -/
theorem Continues.respan (linked : d.WellLinked) (alike : Alike d'.tree d.tree)
    (ids : d'.ids = d.ids) :
    Continues d d' := by
  obtain ⟨b, holds⟩ := linked
  refine ⟨holds.respan alike, .single ?_⟩
  rw [ids]
  exact .respan alike.1

/-- A node that has a span is live. -/
theorem contains_of_span {t : Tree} {span : Span} (found : t.span h = .ok span) :
    t.contains h = true := by
  obtain ⟨n, stored, -⟩ := bind_eq_ok.mp found
  exact contains_eq_true.mpr ⟨n, get_eq_ok.mp stored⟩

/-! ## Reading again -/

/-- A form in the place of a live node leaves links that agree. -/
theorem putForm_linked {f : Form} {view : View} {new : Handle} (linked : d.WellLinked)
    (live : d.tree.contains h = true) (put : d.putForm h f view = .ok (new, d')) :
    d'.WellLinked := by
  obtain ⟨b, holds⟩ := linked
  obtain ⟨fs, c, rfl, rfl⟩ := holds.exists_hole live
  cases view with
  | current =>
    obtain ⟨_, _, fs', c', put', holds', -⟩ := putForm_current holds f
    rw [put] at put'
    cases put'
    exact ⟨_, holds'⟩
  | committed =>
    obtain ⟨_, _, fs', c', put', holds', -⟩ := putForm_committed holds f
    rw [put] at put'
    cases put'
    exact ⟨_, holds'⟩

theorem putForm_continues {f : Form} {view : View} {new : Handle} (linked : d.WellLinked)
    (put : d.putForm h f view = .ok (new, d')) : Continues d d' := by
  obtain ⟨span, found, rest⟩ := bind_eq_ok.mp put
  refine ⟨putForm_linked linked (contains_of_span found) put, ?_⟩
  clear put
  obtain ⟨b, holds⟩ := linked
  obtain ⟨tree, substituted, rest⟩ := bind_eq_ok.mp rest
  have planted := plantUnder_changes f none d.tree.nodes d.ids holds.sound
  have changes := planted.trans (substitute_changes substituted)
  cases view with
  | current =>
    cases rest
    exact changes
  | committed =>
    obtain ⟨tree', set, ran⟩ := bind_eq_ok.mp rest
    cases ran
    exact changes.tail (.respan (setSpan_kept set).1)

/-- Narrowing moves no node but the root. -/
theorem narrowRoot_alike (narrowed : d.narrowRoot l = .ok d') :
    Alike d'.tree d.tree ∧ d'.ids = d.ids := by
  obtain ⟨span, -, narrowed⟩ := bind_eq_ok.mp narrowed
  split at narrowed
  next => cases narrowed
  next =>
    cases narrowed
    exact ⟨⟨rfl, rfl⟩, rfl⟩
  next =>
    split at narrowed
    next =>
      obtain ⟨_, -, narrowed⟩ := bind_eq_ok.mp narrowed
      obtain ⟨tree, set, narrowed⟩ := bind_eq_ok.mp narrowed
      cases narrowed
      exact ⟨setSpan_kept set, rfl⟩
    next =>
      cases narrowed
      exact ⟨⟨rfl, rfl⟩, rfl⟩

theorem commitNode_alike {span : Span} (done : d.commitNode l h span = .ok d') :
    Alike d'.tree d.tree ∧ d'.ids = d.ids := by
  obtain ⟨parent, -, done⟩ := bind_eq_ok.mp done
  cases parent with
  | none =>
    cases done
    exact ⟨⟨rfl, rfl⟩, rfl⟩
  | some parent =>
    dsimp only at done
    split at done
    · obtain ⟨d₁, narrowed, done⟩ := bind_eq_ok.mp done
      cases done
      have alike := narrowRoot_alike narrowed
      exact alike
    · cases done
      exact ⟨⟨rfl, rfl⟩, rfl⟩

theorem commitNode_continues {span : Span} (linked : d.WellLinked)
    (done : d.commitNode l h span = .ok d') : Continues d d' :=
  .respan linked (commitNode_alike done).1 (commitNode_alike done).2

theorem rereadFrom_continues {steps : Nat} {outcome : Outcome} (linked : d.WellLinked)
    (ran : rereadFrom l steps d h = .ok (outcome, d')) : Continues d d' := by
  induction steps generalizing h with
  | zero => cases ran
  | succ steps ih =>
    obtain ⟨span, -, ran⟩ := bind_eq_ok.mp ran
    obtain ⟨form, -, ran⟩ := bind_eq_ok.mp ran
    cases form with
    | some form =>
      obtain ⟨⟨new, d₁⟩, put, ran⟩ := bind_eq_ok.mp ran
      obtain ⟨d₂, committed, ran⟩ := bind_eq_ok.mp ran
      cases ran
      have replaced := putForm_continues linked put
      exact replaced.trans (commitNode_continues replaced.linked committed)
    | none =>
      obtain ⟨parent, -, ran⟩ := bind_eq_ok.mp ran
      cases parent with
      | some parent => exact ih ran
      | none =>
        cases ran
        exact .refl linked

/-! ## Strokes -/

/-- The search for a node moves no node but the root. -/
theorem nodeAround_alike {position width : Nat}
    (around : d.nodeAround position width = .ok (h, d')) :
    Alike d'.tree d.tree ∧ d'.ids = d.ids := by
  obtain ⟨nodes, -, around⟩ := bind_eq_ok.mp around
  split at around
  next =>
    cases around
    exact ⟨⟨rfl, rfl⟩, rfl⟩
  next =>
    obtain ⟨span, -, around⟩ := bind_eq_ok.mp around
    obtain ⟨tree, set, around⟩ := bind_eq_ok.mp around
    cases around
    exact ⟨setSpan_kept set, rfl⟩

theorem makeRoom_alike {position : Nat} {distance : Int}
    (made : d.makeRoom h position distance = .ok d') : Alike d'.tree d.tree ∧ d'.ids = d.ids := by
  obtain ⟨t₁, stretched, made⟩ := bind_eq_ok.mp made
  obtain ⟨t₂, moved, made⟩ := bind_eq_ok.mp made
  obtain ⟨t₃, behind, made⟩ := bind_eq_ok.mp made
  cases made
  exact ⟨((moveAround_kept behind).trans (moveChildrenFrom_kept moved)).trans
    (stretch_kept stretched),
    rfl⟩

theorem nodeAround_continues {position width : Nat} (linked : d.WellLinked)
    (around : d.nodeAround position width = .ok (h, d')) : Continues d d' :=
  .respan linked (nodeAround_alike around).1 (nodeAround_alike around).2

theorem makeRoom_continues {position : Nat} {distance : Int} (linked : d.WellLinked)
    (made : d.makeRoom h position distance = .ok d') : Continues d d' :=
  .respan linked (makeRoom_alike made).1 (makeRoom_alike made).2

/-- What follows the change of the text. -/
theorem stroke_continues {text : Buffer} {position : Nat} {distance : Int}
    {answer : Except Refusal Outcome} (linked : d.WellLinked)
    (edited : (do
      let d ← { d with text := text }.makeRoom h position distance
      let (outcome, d) ← d.reread l h
      pure (.ok outcome, d) : Checked (Edited Outcome)) = .ok (answer, d')) : Continues d d' := by
  obtain ⟨d₁, made, edited⟩ := bind_eq_ok.mp edited
  obtain ⟨⟨outcome, d₂⟩, ran, edited⟩ := bind_eq_ok.mp edited
  cases edited
  have same : Continues d { d with text := text } := ⟨linked, .refl⟩
  have room := makeRoom_continues same.linked made
  exact same.trans (room.trans (rereadFrom_continues room.linked ran))

theorem insert_continues {c : Char} {position : Nat} {answer : Except Refusal Outcome}
    (linked : d.WellLinked) (edited : d.insert l c position = .ok (answer, d')) :
    Continues d d' := by
  unfold Document.insert at edited
  split at edited
  · cases edited
    exact .refl linked
  · obtain ⟨⟨h, d₁⟩, around, edited⟩ := bind_eq_ok.mp edited
    obtain ⟨span, -, edited⟩ := bind_eq_ok.mp edited
    have found := nodeAround_continues linked around
    dsimp only at edited
    split at edited
    · obtain ⟨text, -, edited⟩ := bind_eq_ok.mp edited
      exact found.trans (stroke_continues found.linked edited)
    · obtain ⟨text, -, edited⟩ := bind_eq_ok.mp edited
      exact found.trans (stroke_continues found.linked edited)

theorem delete_continues {position : Nat} {answer : Except Refusal Outcome} (linked : d.WellLinked)
    (edited : d.delete l position = .ok (answer, d')) : Continues d d' := by
  unfold Document.delete at edited
  split at edited
  · cases edited
    exact .refl linked
  · obtain ⟨⟨h, d₁⟩, around, edited⟩ := bind_eq_ok.mp edited
    obtain ⟨text, -, edited⟩ := bind_eq_ok.mp edited
    have found := nodeAround_continues linked around
    exact found.trans (stroke_continues found.linked edited)

/-! ## Moves and copies -/

theorem exchange_continues {earlier later : Handle} {answer : Option Handle} (linked : d.WellLinked)
    (edited : d.exchange l earlier later = .ok (answer, d')) : Continues d d' := by
  obtain ⟨parent, -, edited⟩ := bind_eq_ok.mp edited
  cases parent with
  | none => cases edited
  | some parent =>
    obtain ⟨first, -, edited⟩ := bind_eq_ok.mp edited
    obtain ⟨second, -, edited⟩ := bind_eq_ok.mp edited
    obtain ⟨⟨done, text⟩, -, edited⟩ := bind_eq_ok.mp edited
    have same : Continues d { d with text := text } := ⟨linked, .refl⟩
    dsimp only at edited
    split at edited
    next =>
      obtain ⟨⟨_, d₁⟩, put, edited⟩ := bind_eq_ok.mp edited
      cases edited
      exact same.trans (putForm_continues same.linked put)
    next =>
      cases edited
      exact ⟨linked, .refl⟩
    next => cases edited

theorem exchangePair_continues {pair : Option (Handle × Handle)}
    {answer : Except Refusal (Option Handle)} (linked : d.WellLinked)
    (edited : d.exchangePair l pair = .ok (answer, d')) :
    Continues d d' := by
  cases pair with
  | none =>
    cases edited
    exact .refl linked
  | some pair =>
    obtain ⟨⟨root, d₁⟩, exchanged, edited⟩ := bind_eq_ok.mp edited
    cases edited
    exact exchange_continues linked exchanged

theorem undoCopy_continues {patch : Patch} {length : Nat} {answer : Option Handle}
    (linked : d.WellLinked) (undone : d.undoCopy h patch length = .ok (answer, d')) :
    Continues d d' := by
  obtain ⟨text, -, undone⟩ := bind_eq_ok.mp undone
  obtain ⟨tree, moved, undone⟩ := bind_eq_ok.mp undone
  cases undone
  exact .respan linked (moveAround_kept moved) rfl

theorem copyChild_continues {parent : Handle} {answer : Option Handle} (linked : d.WellLinked)
    (edited : d.copyChild l parent h = .ok (answer, d')) : Continues d d' := by
  obtain ⟨span, -, edited⟩ := bind_eq_ok.mp edited
  obtain ⟨tree, moved, edited⟩ := bind_eq_ok.mp edited
  obtain ⟨siblings, -, edited⟩ := bind_eq_ok.mp edited
  have room (text : Buffer) : Continues d { d with text := text, tree := tree } :=
    .respan linked (moveAround_kept moved) rfl
  split at edited
  next => cases edited
  next => exact (room _).trans (undoCopy_continues (room _).linked edited)
  next =>
    split at edited
    · obtain ⟨⟨_, d₁⟩, put, edited⟩ := bind_eq_ok.mp edited
      cases edited
      exact (room _).trans (putForm_continues (room _).linked put)
    · exact (room _).trans (undoCopy_continues (room _).linked edited)

/-- One edit of a document, made or not. -/
inductive Step (l : Language κ) (d d' : Document) : Prop
  | insert {c : Char} {position : Nat} {answer : Except Refusal Outcome}
      (ran : d.insert l c position = .ok (answer, d'))
  | delete {position : Nat} {answer : Except Refusal Outcome}
      (ran : d.delete l position = .ok (answer, d'))
  | moveEarlier {h : Handle} {answer : Except Refusal (Option Handle)}
      (ran : d.moveEarlier l h = .ok (answer, d'))
  | moveLater {h : Handle} {answer : Except Refusal (Option Handle)}
      (ran : d.moveLater l h = .ok (answer, d'))
  | duplicate {h : Handle} {answer : Except Refusal (Option Handle)}
      (ran : d.duplicate l h = .ok (answer, d'))

theorem Step.continues (step : Step l d d') (linked : d.WellLinked) : Continues d d' := by
  cases step with
  | insert ran => exact insert_continues linked ran
  | delete ran => exact delete_continues linked ran
  | moveEarlier ran =>
    unfold Document.moveEarlier at ran
    split at ran
    · obtain ⟨before, -, ran⟩ := bind_eq_ok.mp ran
      exact exchangePair_continues linked ran
    · cases ran
      exact .refl linked
  | moveLater ran =>
    unfold Document.moveLater at ran
    split at ran
    · obtain ⟨after, -, ran⟩ := bind_eq_ok.mp ran
      exact exchangePair_continues linked ran
    · cases ran
      exact .refl linked
  | duplicate ran =>
    unfold Document.duplicate at ran
    split at ran
    · obtain ⟨parent, -, ran⟩ := bind_eq_ok.mp ran
      cases parent with
      | none =>
        cases ran
        exact .refl linked
      | some parent =>
        obtain ⟨⟨root, d₁⟩, copied, ran⟩ := bind_eq_ok.mp ran
        cases ran
        exact copyChild_continues linked copied
    · cases ran
      exact .refl linked

/-- Any number of edits. -/
abbrev Steps (l : Language κ) := Relation.ReflTransGen (Step l)

theorem Steps.continues (steps : Steps l d d') (linked : d.WellLinked) : Continues d d' := by
  induction steps with
  | refl => exact .refl linked
  | tail _ step ih => exact ih.trans (step.continues ih.linked)

/-! ## The store as a whole -/

/-- Parents and children name each other, and only the root has no parent. -/
structure LinksAgree (t : Tree) : Prop where
  down : ∀ h n, t.nodes.get? h = some n → ∀ c ∈ n.children,
    ∃ m, t.nodes.get? c = some m ∧ m.parent = some h
  up : ∀ h n, t.nodes.get? h = some n → ∀ p, n.parent = some p →
    ∃ m, t.nodes.get? p = some m ∧ h ∈ m.children
  top : ∀ h n, t.nodes.get? h = some n → (n.parent = none ↔ h = t.root)

theorem linksAgree {t : Tree} {b : Branch} (holds : Holds t b) : LinksAgree t where
  down := fun h n found => (holds.bears.mutual (holds.full h n found) found).down
  up := fun h n found => (holds.bears.mutual (holds.full h n found) found).up
  top := fun h n found => holds.bears.parent_eq_none (holds.full h n found) found

theorem numbered_empty (next : Nat) : Numbered Slots.empty next where
  sound := sound_empty
  below := by simp [Slots.empty, Slots.get?]
  distinct := by simp [Slots.empty, Slots.get?]
  narrow := narrow_empty next

/-- A document comes from the empty store by changes. -/
theorem ofText_changes {text : String} {ids : IdSource} (read : ofText l text ids = .ok d) :
    d.WellLinked ∧ Changes (Slots.empty, ids) (d.tree.nodes, d.ids) := by
  obtain ⟨form, -, ran⟩ := bind_eq_ok.mp read
  cases ran
  obtain ⟨b, holds, -⟩ := ofForm_holds form ids
  exact ⟨⟨b, holds⟩, plantUnder_changes form none Slots.empty ids sound_empty⟩

/-- The handles under the root are those that resolve, each listed once. -/
theorem handlesUnder_root {b : Branch} (holds : Holds d.tree b) (counted : d.tree.nodes.Counted) :
    ∃ hs, d.tree.handlesUnder d.root = .ok hs ∧ hs.Nodup ∧
      (∀ h, h ∈ hs ↔ d.tree.contains h = true) ∧
      d.tree.size = hs.length := by
  have listed : ∀ h, h ∈ handles b ↔ ∃ n, d.tree.nodes.get? h = some n :=
    fun h => ⟨holds.linked.live h, fun ⟨n, found⟩ => holds.full h n found⟩
  refine ⟨handles b, holds.bears.walk, holds.nodup, ?_, ?_⟩
  · intro h
    rw [listed, contains_eq_true]
  · obtain ⟨hs, nodup, live, length⟩ := counted
    have same : hs.Perm (handles b) :=
      (List.perm_ext_iff_of_nodup nodup holds.nodup).mpr fun h => (live h).trans (listed h).symm
    rw [Tree.size, ← length, same.length_eq]

/-- Whatever language a document is read in and whatever edits follow, as long as its nodes have not
used up the numbers of 32 bits, a handle that resolves to a node of some number and kind resolves
later to a node of the same number and kind or not at all, no number is given to two nodes, not even
to one that comes after the other is gone, and places and generations of slots have 32 bits. At any
time parents and children name each other, and the nodes under the root, each of them once, are all
there are. -/
theorem handles_keep_their_nodes (l : Language κ) {text : String} {next : Nat} {d₀ d d' : Document}
    (read : ofText l text (.counting next) = .ok d₀) (before : Steps l d₀ d)
    (after : Steps l d d') :
    (∃ last, d'.ids = .counting last ∧ (last ≤ IdSource.cycle →
      (∀ h n n', d.tree.nodes.get? h = some n → d'.tree.nodes.get? h = some n' →
        n'.id = n.id ∧ n'.kind = n.kind) ∧
      (∀ h k n m, d.tree.nodes.get? h = some n → d'.tree.nodes.get? k = some m → m.id = n.id →
        k = h) ∧
      d'.tree.nodes.Narrow IdSource.cycle)) ∧
    LinksAgree d.tree ∧
    ∃ hs, d.tree.handlesUnder d.root = .ok hs ∧ hs.Nodup ∧
    (∀ h, h ∈ hs ↔ d.tree.contains h = true) ∧
      d.tree.size = hs.length := by
  obtain ⟨linked₀, started⟩ := ofText_changes read
  have continues := before.continues linked₀
  have changes : Changes (Slots.empty, .counting next) (d.tree.nodes, d.ids) :=
    started.trans continues.changes
  have changes' : Changes (d.tree.nodes, d.ids) (d'.tree.nodes, d'.ids) :=
    (after.continues continues.linked).changes
  obtain ⟨next', counting, -⟩ := changes.counts rfl
  obtain ⟨last, counting', le⟩ := changes'.counts counting
  obtain ⟨b, holds⟩ := continues.linked
  have counted := (changes.counted sound_empty counted_empty).2
  refine ⟨⟨last, counting', fun left => ?_⟩, linksAgree holds, handlesUnder_root holds counted⟩
  have numbered := (changes.evolves rfl counting (Nat.le_trans le left) (numbered_empty next)).1
  obtain ⟨numbered', evolves⟩ := changes'.evolves counting counting' left numbered
  refine ⟨?_, ?_, numbered'.narrow.mono left⟩
  · intro h n n' found found'
    obtain ⟨m, was, id, kind⟩ := evolves.kept h (issued_of_get? found) n' found'
    rw [found] at was
    cases was
    exact ⟨id, kind⟩
  · intro h k n m found found' same
    exact evolves.same_handle numbered found found' same

/-- Typing into an atom twice: the slot of the first node is taken again by the third one, and the
handle of neither of the two that are gone resolves to it. Five numbers have been given by then. -/
theorem retyped_atom_keeps_handles :
    ∃ d₀ d d', ofText Language.parenthesised "(a b)" (.counting 1) = .ok d₀ ∧
    Steps Language.parenthesised d₀ d ∧ Steps Language.parenthesised d d' ∧
    d.tree.contains ⟨3, 0⟩ = true ∧ d'.tree.contains ⟨2, 1⟩ = true ∧
    d'.tree.contains ⟨2, 0⟩ = false ∧
    d'.ids = .counting 6 ∧ 6 ≤ IdSource.cycle ∧
    (∀ h n n', d.tree.nodes.get? h = some n → d'.tree.nodes.get? h = some n' →
      n'.id = n.id ∧ n'.kind = n.kind) ∧
    ∃ hs, d.tree.handlesUnder d.root = .ok hs ∧ d.tree.size = hs.length := by
  have seen : (ofText Language.parenthesised "(a b)" (.counting 1)).map (fun d₀ =>
      (d₀.insert Language.parenthesised 'x' 3).map fun typed => (typed.2.tree.contains ⟨3, 0⟩,
        (typed.2.insert Language.parenthesised 'y' 4).map fun typed =>
          (typed.2.tree.contains ⟨2, 1⟩, typed.2.tree.contains ⟨2, 0⟩, typed.2.ids))) =
      .ok (.ok (true, .ok (true, false, .counting 6))) := by
    decide +kernel
  obtain ⟨d₀, read, seen⟩ := map_eq_ok.mp seen
  obtain ⟨⟨_, d⟩, first, seen⟩ := map_eq_ok.mp seen
  obtain ⟨live, seen⟩ := Prod.mk.inj seen
  obtain ⟨⟨_, d'⟩, second, seen⟩ := map_eq_ok.mp seen
  obtain ⟨taken, seen⟩ := Prod.mk.inj seen
  obtain ⟨gone, counting⟩ := Prod.mk.inj seen
  have before : Steps Language.parenthesised d₀ d := .single (.insert first)
  have after : Steps Language.parenthesised d d' := .single (.insert second)
  have few : 6 ≤ IdSource.cycle := by decide
  obtain ⟨⟨last, counted, kept⟩, -, hs, listed, -, -, size⟩ :=
    handles_keep_their_nodes _ read before after
  cases counting.symm.trans counted
  obtain ⟨same, -⟩ := kept few
  exact ⟨d₀, d, d', read, before, after, live, taken, gone, counting, few, same, hs, listed, size⟩

end FormEdit.Document
