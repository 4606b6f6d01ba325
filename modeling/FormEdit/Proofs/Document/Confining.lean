import FormEdit.Proofs.Document.History
import FormEdit.Proofs.Document.Rearranging
import FormEdit.Proofs.Tree.Seats

/-!
# A stroke touches one subtree

Between a stroke and its answer the root is widened, nodes are moved, several nodes are read, and
one is planted while others are freed. In every language, and whatever is pending, all of this comes
to one of two things (`strokes_touch_one_subtree`). Either nothing reads, and then the tree has its
nodes and links as before and the committed text has not changed; or the node that the stroke falls
in, or one around it, is replaced by a new one, and no other link of the tree has changed.
-/

namespace FormEdit.Document

open Rose Branch Buffer FormEdit.Tree

variable {κ : Type} {l : Language κ} {d d' d₁ : Document} {h k o new : Handle}

/-- The innermost node that contains a position, or the root if there is none. -/
def affected (d : Document) (position : Nat) : Checked Handle := do
  let nodes ← d.tree.enclosing position
  pure (nodes.getLast?.getD d.root)

/-- `o` is `h` or a node around it. -/
abbrev Around (t : Tree) : Handle → Handle → Prop :=
  Relation.ReflTransGen fun h p => t.parent h = .ok (some p)

theorem Around.of_alike {t t' : Tree} (alike : Alike t' t) (around : Around t' h o) :
    Around t h o :=
  Relation.ReflTransGen.mono (fun k _ parent => (alike.parent_eq k).symm.trans parent) h o around

/-! ## Reading again -/

theorem putForm_replaced {f : Form} (linked : d.WellLinked)
    (put : d.putForm h f .current = .ok (new, d')) : Replaced d.tree h d'.tree new := by
  obtain ⟨b, holds⟩ := linked
  obtain ⟨span, found, put⟩ := bind_eq_ok.mp put
  obtain ⟨fs, b, rfl, rfl⟩ := holds.exists_hole (contains_of_span found)
  obtain ⟨c, planted, handle_c⟩ := plantUnder_spec f none d.tree.nodes d.ids holds.sound
  obtain ⟨tree, done, holds'⟩ := holds.substitute planted
  have replaced : Replaced d.tree (handle b) tree (handle (Tree.under (above fs none) c)) := by
    refine holds.replaced (by rwa [handle_under]) fun k inner => ?_
    rw [handles_under]
    exact holds.bears.apart_planted planted inner
  rw [handle_under] at replaced
  obtain ⟨tree', done', put⟩ := bind_eq_ok.mp put
  cases put
  change Tree.substitute ⟨_, d.tree.root⟩ _ (plantUnder none f (d.tree.nodes, d.ids)).1 = _ at done'
  rw [handle_c] at done'
  obtain rfl := Except.ok.inj (done.symm.trans done')
  rw [← handle_c] at replaced
  exact replaced

/-- Reading again replaces the node it starts from or one around it, or changes nothing. -/
theorem rereadFrom_cases {steps : Nat} {outcome : Outcome} (linked : d.WellLinked)
    (ran : rereadFrom l steps d h = .ok (outcome, d')) :
    (outcome = .pending d.root ∧ d' = d) ∨
      ∃ node o, outcome = .reparsed d'.root node ∧ Around d.tree h o ∧
        Replaced d.tree o d'.tree node := by
  induction steps generalizing h with
  | zero => cases ran
  | succ steps ih =>
    obtain ⟨span, is_span, ran⟩ := bind_eq_ok.mp ran
    obtain ⟨form, -, ran⟩ := bind_eq_ok.mp ran
    cases form with
    | some form =>
      obtain ⟨⟨node, d₁⟩, put, ran⟩ := bind_eq_ok.mp ran
      obtain ⟨d₂, committed, ran⟩ := bind_eq_ok.mp ran
      cases ran
      obtain ⟨b, holds⟩ := linked
      have replaced := putForm_replaced ⟨b, holds⟩ put
      exact .inr ⟨node, h, rfl, .refl,
        replaced.of_alike holds ⟨rfl, rfl⟩ (commitNode_alike committed).1⟩
    | none =>
      obtain ⟨parent, above, ran⟩ := bind_eq_ok.mp ran
      cases parent with
      | some parent =>
        rcases ih ran with unread | ⟨node, o, reparsed, around, replaced⟩
        · exact .inl unread
        · exact .inr ⟨node, o, reparsed, .head above around, replaced⟩
      | none =>
        cases ran
        obtain ⟨b, holds⟩ := linked
        obtain ⟨n, stored, orphan⟩ := bind_eq_ok.mp above
        have top :=
          ((linksAgree holds).top h n (Slots.get_eq_ok.mp stored)).mp (Except.ok.inj orphan)
        exact .inl ⟨by rw [top]; rfl, rfl⟩

/-! ## Strokes -/

theorem nodeAround_affected {position width : Nat}
    (around : d.nodeAround position width = .ok (h, d₁)) : d.affected position = .ok h := by
  obtain ⟨nodes, enclosing, around⟩ := bind_eq_ok.mp around
  rw [affected, enclosing, ok_bind]
  split at around
  next found =>
    cases around
    rw [found]
    rfl
  next found =>
    obtain ⟨span, -, around⟩ := bind_eq_ok.mp around
    obtain ⟨tree, -, around⟩ := bind_eq_ok.mp around
    cases around
    rw [found]
    rfl

/-- A document in which nodes have been moved and the text has been changed, but not what is
committed of it. -/
structure Unread (d d₁ : Document) : Prop where
  alike : Alike d₁.tree d.tree
  committed : d₁.text.committed = d.text.committed

/-- What a stroke comes to before anything is read again. -/
theorem stroke_unread {text : Buffer} {position position' width : Nat} {distance : Int}
    {outcome : Outcome} (around : d.nodeAround position width = .ok (h, d₁))
    (committed : text.committed = d.text.committed)
    (edited : (do
      let d ← { d₁ with text := text }.makeRoom h position' distance
      let (outcome, d) ← d.reread l h
      pure (.ok outcome, d) : Checked (Edited Outcome)) = .ok (.ok outcome, d')) :
    ∃ d₂, Unread d d₂ ∧ d.affected position = .ok h ∧ d₂.reread l h = .ok (outcome, d') := by
  obtain ⟨d₂, made, edited⟩ := bind_eq_ok.mp edited
  obtain ⟨⟨outcome', d₃⟩, ran, edited⟩ := bind_eq_ok.mp edited
  cases edited
  have alike := (makeRoom_alike made).1.trans (nodeAround_alike around).1
  have text_eq := makeRoom_text made
  exact ⟨d₂, ⟨alike, by rw [text_eq]; exact committed⟩, nodeAround_affected around, ran⟩

theorem Stroke.exists_unread {s : Stroke} {outcome : Outcome}
    (ran : s.runIn l d = .ok (.ok outcome, d')) :
    ∃ h d₁, Unread d d₁ ∧ d.affected s.place = .ok h ∧ d₁.reread l h = .ok (outcome, d') := by
  cases s with
  | insert c position =>
    rw [Stroke.runIn, Document.insert] at ran
    split at ran
    next => cases ran
    next within =>
      have inside : position ≤ d.text.currentLength := Nat.le_of_not_lt within
      obtain ⟨⟨h, d₁⟩, around, ran⟩ := bind_eq_ok.mp ran
      obtain ⟨span, -, ran⟩ := bind_eq_ok.mp ran
      dsimp only at ran
      rw [nodeAround_text around] at ran
      split at ran
      next =>
        obtain ⟨text, typed, ran⟩ := bind_eq_ok.mp ran
        have overwrites := insertPastDeleted_overwrites inside typed
        exact ⟨h, stroke_unread around overwrites.committed_eq ran⟩
      next =>
        obtain ⟨text, typed, ran⟩ := bind_eq_ok.mp ran
        have overwrites := insert_overwrites inside typed
        exact ⟨h, stroke_unread around overwrites.committed_eq ran⟩
  | delete position =>
    rw [Stroke.runIn, Document.delete] at ran
    split at ran
    next => cases ran
    next within =>
      have inside : position < d.text.currentLength := Nat.lt_of_not_le within
      obtain ⟨⟨h, d₁⟩, around, ran⟩ := bind_eq_ok.mp ran
      dsimp only at ran
      rw [nodeAround_text around] at ran
      obtain ⟨text, deleted, ran⟩ := bind_eq_ok.mp ran
      have overwrites := delete_overwrites inside deleted
      exact ⟨h, stroke_unread around overwrites.committed_eq ran⟩

/-- A stroke that is left pending changes no link and nothing of the committed text. One that is
taken in replaces the node that it falls in, or one around it, and changes no other link. -/
theorem strokes_touch_one_subtree (l : Language κ) {d d' : Document} {s : Stroke}
    {outcome : Outcome} (linked : d.WellLinked) (ran : s.runIn l d = .ok (.ok outcome, d')) :
    match outcome with
    | .pending root => root = d.root ∧ d'.root = d.root ∧ d'.text.committed = d.text.committed ∧
        ∀ k n, d.tree.nodes.get? k = some n → ∃ m, d'.tree.nodes.get? k = some m ∧ Keeps id n m
    | .reparsed root new => root = d'.root ∧ ∃ h o, d.affected s.place = .ok h ∧
        Around d.tree h o ∧ Replaced d.tree o d'.tree new := by
  obtain ⟨h, d₁, unread, affected, reread⟩ := Stroke.exists_unread ran
  obtain ⟨b, holds⟩ := linked
  have root : d₁.root = d.root := unread.alike.2
  rcases rereadFrom_cases (holds.respan unread.alike) reread with
    ⟨rfl, rfl⟩ | ⟨node, o, rfl, around, replaced⟩
  · refine ⟨root, root, unread.committed, fun k n found => ?_⟩
    obtain ⟨m, stored, same⟩ := unread.alike.get? found
    exact ⟨m, stored, keeps_of_bare same⟩
  · exact ⟨rfl, h, o, affected, around.of_alike unread.alike,
      replaced.of_alike holds unread.alike ⟨rfl, rfl⟩⟩

/-- Deleting the `c` leaves nothing that reads of the atom, so the list around it is replaced. -/
theorem emptied_list_is_replaced : commentedPair.WellLinked ∧ ∃ root node d',
    (Stroke.delete 7).runIn Language.parenthesised commentedPair =
      .ok (.ok (.reparsed root node), d') ∧
    d'.tree.contains ⟨2, 0⟩ = false ∧ root = d'.root ∧
    ∃ h o, commentedPair.affected 7 = .ok h ∧ Around commentedPair.tree h o ∧
      Replaced commentedPair.tree o d'.tree node := by
  have seen : ((Stroke.delete 7).runIn Language.parenthesised commentedPair).map
      (fun edited => (edited.1, edited.2.tree.contains ⟨2, 0⟩)) =
      .ok (.ok (.reparsed ⟨0, 0⟩ ⟨4, 0⟩), false) := by decide +kernel
  obtain ⟨⟨answer, d'⟩, ran, seen⟩ := map_eq_ok.mp seen
  obtain ⟨rfl, gone⟩ := Prod.mk.inj seen
  exact ⟨commentedPair_linked, _, _, d', ran, gone,
    strokes_touch_one_subtree Language.parenthesised commentedPair_linked ran⟩

end FormEdit.Document
