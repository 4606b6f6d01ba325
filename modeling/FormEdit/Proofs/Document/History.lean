import FormEdit.Proofs.Buffer.Slicing
import FormEdit.Proofs.Document.CurrentText
import FormEdit.Proofs.Document.Handles
import FormEdit.Proofs.Document.Reaching
import FormEdit.Proofs.Tree.Sparing

/-!
# History does not show

Two documents may have the same text and the same tree and remember different things about their
text: which characters were typed or deleted since the last commit, and what the text was then.
`Document.face` is all of a document but its memory. A stroke does the same to the faces of two such
documents, in every language: storage places, cancelled characters and committed spans differ on the
way, and nothing of that reaches the tree (`strokes_hide_history`). What reading again sees of a
text is its current view (`slice_of_current`).
-/

namespace FormEdit

namespace Document

open Buffer FormEdit.Tree

variable {κ α β : Type} {l : Language κ} {d e : Document} {h : Handle}

/-- A document without what its text remembers. -/
structure Face where
  text : List Char
  tree : Tree
  ids : IdSource
  widened : Bool

def face (d : Document) : Face := ⟨d.text.current, d.tree, d.ids, d.widened⟩

/-- Documents with one face differ in what their texts remember. -/
theorem cases_face (same : d.face = e.face) : ∃ text text' tree ids widened,
    d = ⟨text, tree, ids, widened⟩ ∧ e = ⟨text', tree, ids, widened⟩ ∧
    text.current = text'.current := by
  obtain ⟨text, tree, ids, widened⟩ := d
  obtain ⟨text', tree', ids', widened'⟩ := e
  rw [face, face, Face.mk.injEq] at same
  obtain ⟨current, rfl, rfl, rfl⟩ := same
  exact ⟨text, text', tree, ids, widened, rfl, rfl, current⟩

/-- The answer of an edit, and the face of the document after it. -/
def shownAfter (result : Checked (α × Document)) : Checked (α × Face) :=
  result.map fun edited => (edited.1, edited.2.face)

@[simp] theorem shownAfter_ok (a : α) (d : Document) :
    shownAfter (.ok (a, d)) = .ok (a, d.face) := rfl

@[simp] theorem shownAfter_error (fault : Fault) :
    shownAfter (.error fault : Checked (α × Document)) = .error fault := rfl

/-- Two computations that show the same go on to show the same. -/
theorem shownAfter_bind {x y : Checked (α × Document)} {f g : α × Document → Checked (β × Document)}
    (first : shownAfter x = shownAfter y)
    (next : ∀ a d e, x = .ok (a, d) → d.face = e.face →
      shownAfter (f (a, d)) = shownAfter (g (a, e))) :
    shownAfter (x >>= f) = shownAfter (y >>= g) := by
  cases x with
  | error fault =>
    cases y with
    | error fault' =>
      cases first
      rfl
    | ok result => cases first
  | ok result =>
    cases y with
    | error fault => cases first
    | ok result' =>
      obtain ⟨a, d⟩ := result
      obtain ⟨a', e⟩ := result'
      rw [shownAfter_ok, shownAfter_ok, Except.ok.injEq, Prod.mk.injEq] at first
      obtain ⟨rfl, same⟩ := first
      exact next a d e rfl same

/-- The same behind a computation that answers nothing but a document. -/
theorem shownAfter_step {x y : Checked Document} {f g : Document → Checked (β × Document)}
    (first : x.map face = y.map face)
    (next : ∀ d e, x = .ok d → d.face = e.face → shownAfter (f d) = shownAfter (g e)) :
    shownAfter (x >>= f) = shownAfter (y >>= g) := by
  cases x with
  | error fault =>
    cases y with
    | error fault' =>
      cases first
      rfl
    | ok e => cases first
  | ok d =>
    cases y with
    | error fault => cases first
    | ok e => exact next d e rfl (Except.ok.inj first)

/-! ## Reading again -/

theorem readNode_of_face (same : d.face = e.face) :
    d.readNode l h .current = e.readNode l h .current := by
  obtain ⟨text, text', tree, ids, widened, rfl, rfl, current⟩ := cases_face same
  simp only [readNode, slice_of_current current]

theorem isFused_of_face (same : d.face = e.face) : d.isFused l h = e.isFused l h := by
  obtain ⟨text, text', tree, ids, widened, rfl, rfl, current⟩ := cases_face same
  simp only [isFused, slice_of_current current]

theorem rereadNode_of_face (same : d.face = e.face) : d.rereadNode l h = e.rereadNode l h := by
  rw [rereadNode, rereadNode, isFused_of_face same, readNode_of_face same]

theorem putForm_of_face {f : Form} (same : d.face = e.face) :
    shownAfter (d.putForm h f .current) = shownAfter (e.putForm h f .current) := by
  obtain ⟨text, text', tree, ids, widened, rfl, rfl, current⟩ := cases_face same
  simp only [putForm]
  cases tree.span h with
  | error fault => rfl
  | ok span =>
    cases (tree.plant f ids).2.1.substitute h (tree.plant f ids).1 with
    | error fault => simp only [ok_bind, error_bind, shownAfter_error]
    | ok tree' => simp only [ok_bind, pure_eq_ok, shownAfter_ok, face, current]

/-- A root that was widened is not narrowed while something hangs above the node that was read, so
nothing depends on whether the text is settled. -/
theorem commitNode_of_face {span : Span} (same : d.face = e.face)
    (narrow : d.widened = true → ∀ p, d.tree.parent h ≠ .ok (some p)) :
    (d.commitNode l h span).map face = (e.commitNode l h span).map face := by
  obtain ⟨text, text', tree, ids, widened, rfl, rfl, current⟩ := cases_face same
  simp only [commitNode]
  cases parent : tree.parent h with
  | error fault => rfl
  | ok above =>
    cases above with
    | none =>
      simp only [ok_bind, pure_eq_ok, Except.map, face, commitAll_current]
      rw [show text.current = text'.current from current]
    | some p =>
      cases widened with
      | true => exact absurd parent (narrow rfl p)
      | false =>
        simp only [ok_bind, pure_eq_ok, Bool.false_and, Bool.false_eq_true, if_false, Except.map,
          face, commit_current]
        rw [show text.current = text'.current from current]

/-- What takes the place of a node without a parent has none either. -/
theorem putForm_parent {f : Form} {d' : Document} {new : Handle} (top : d.tree.parent h = .ok none)
    (put : d.putForm h f .current = .ok (new, d')) (p : Handle) :
    d'.tree.parent new ≠ .ok (some p) := by
  obtain ⟨span, -, put⟩ := bind_eq_ok.mp put
  obtain ⟨tree, substituted, put⟩ := bind_eq_ok.mp put
  cases put
  exact parent_substitute (parent_plant top) substituted p

theorem putForm_widened {f : Form} {d' : Document} {new : Handle}
    (put : d.putForm h f .current = .ok (new, d')) : d'.widened = d.widened := by
  obtain ⟨span, -, put⟩ := bind_eq_ok.mp put
  obtain ⟨tree, -, put⟩ := bind_eq_ok.mp put
  cases put
  rfl

theorem rereadFrom_of_face {steps : Nat} (same : d.face = e.face)
    (narrow : d.widened = true → d.tree.parent h = .ok none) :
    shownAfter (rereadFrom l steps d h) = shownAfter (rereadFrom l steps e h) := by
  induction steps generalizing h with
  | zero => rfl
  | succ steps ih =>
    have trees : d.tree = e.tree := congrArg Face.tree same
    simp only [rereadFrom, ← trees, rereadNode_of_face same]
    cases d.tree.span h with
    | error fault => rfl
    | ok span =>
      simp only [ok_bind]
      cases e.rereadNode l h with
      | error fault => rfl
      | ok found =>
        cases found with
        | some f =>
          refine shownAfter_bind (putForm_of_face same) fun new d₁ e₁ put same₁ => ?_
          have narrow₁ : d₁.widened = true → ∀ p, d₁.tree.parent new ≠ .ok (some p) := by
            intro widened
            rw [putForm_widened put] at widened
            exact putForm_parent (narrow widened) put
          have committed : (d₁.commitNode l new span).map face =
              (e₁.commitNode l new span).map face :=
            commitNode_of_face same₁ narrow₁
          refine shownAfter_step committed fun d₂ e₂ _ same₂ => ?_
          have roots : d₂.root = e₂.root := congrArg (fun face => face.tree.root) same₂
          simp only [pure_eq_ok, shownAfter_ok, roots, same₂]
        | none =>
          simp only [ok_bind]
          cases parent : d.tree.parent h with
          | error fault => rfl
          | ok above =>
            cases above with
            | none => simp only [ok_bind, pure_eq_ok, shownAfter_ok, same]
            | some p =>
              refine ih fun widened => ?_
              rw [narrow widened] at parent
              cases parent

/-! ## Strokes -/

/-- A stroke on a document that is read in any language. -/
def Stroke.runIn (l : Language κ) (d : Document) : Stroke → Checked (Edited Outcome)
  | .insert c position => d.insert l c position
  | .delete position => d.delete l position

theorem nodeAround_of_face {position width : Nat} (same : d.face = e.face) :
    shownAfter (d.nodeAround position width) = shownAfter (e.nodeAround position width) := by
  obtain ⟨text, text', tree, ids, widened, rfl, rfl, current⟩ := cases_face same
  simp only [nodeAround]
  cases tree.enclosing position with
  | error fault => rfl
  | ok nodes =>
    simp only [ok_bind]
    cases nodes.getLast? with
    | some h => simp only [pure_eq_ok, shownAfter_ok, face, current]
    | none =>
      simp only [root]
      cases tree.span tree.root with
      | error fault => rfl
      | ok span =>
        simp only [ok_bind]
        cases tree.setSpan tree.root (span.cover (Span.sized position width)) with
        | error fault => rfl
        | ok tree' => simp only [ok_bind, pure_eq_ok, shownAfter_ok, face, current]

/-- A root that the search for a node widens has no parent, unless it had one before. -/
theorem nodeAround_narrow {position width : Nat} {d₁ : Document} (narrow : d.widened = false)
    (top : ∀ p, d.tree.parent d.root ≠ .ok (some p))
    (around : d.nodeAround position width = .ok (h, d₁)) (widened : d₁.widened = true) :
    d₁.tree.parent h = .ok none := by
  obtain ⟨nodes, -, around⟩ := bind_eq_ok.mp around
  split at around
  next =>
    cases around
    rw [narrow] at widened
    cases widened
  next =>
    obtain ⟨span, found, around⟩ := bind_eq_ok.mp around
    obtain ⟨tree, set, around⟩ := bind_eq_ok.mp around
    cases around
    obtain ⟨n, stored, -⟩ := bind_eq_ok.mp found
    have parent : d.tree.parent d.root = .ok n.parent := by
      rw [Tree.parent, stored]
      rfl
    cases above : n.parent with
    | some p =>
      rw [above] at parent
      exact absurd parent (top p)
    | none =>
      rw [above] at parent
      exact ((setSpan_kept set).parent_eq d.root).trans parent

theorem makeRoom_of_face {position : Nat} {distance : Int} (same : d.face = e.face) :
    (d.makeRoom h position distance).map face = (e.makeRoom h position distance).map face := by
  obtain ⟨text, text', tree, ids, widened, rfl, rfl, current⟩ := cases_face same
  simp only [makeRoom]
  cases tree.stretch h distance with
  | error fault => rfl
  | ok stretched =>
    simp only [ok_bind]
    cases stretched.moveChildrenFrom h position distance with
    | error fault => rfl
    | ok moved =>
      simp only [ok_bind]
      cases moved.moveSuccessors h distance with
      | error fault => rfl
      | ok made => simp only [ok_bind, pure_eq_ok, Except.map, face, current]

theorem makeRoom_widened {position : Nat} {distance : Int} {d' : Document}
    (made : d.makeRoom h position distance = .ok d') : d'.widened = d.widened := by
  obtain ⟨t₁, -, made⟩ := bind_eq_ok.mp made
  obtain ⟨t₂, -, made⟩ := bind_eq_ok.mp made
  obtain ⟨t₃, -, made⟩ := bind_eq_ok.mp made
  cases made
  rfl

/-- What follows a change of the text. -/
theorem stroke_of_face {text text' : Buffer} {position : Nat} {distance : Int}
    (same : d.face = e.face) (current : text.current = text'.current)
    (narrow : d.widened = true → d.tree.parent h = .ok none) :
    shownAfter (do
      let d ← { d with text := text }.makeRoom h position distance
      let (outcome, d) ← d.reread l h
      pure (.ok outcome, d) : Checked (Edited Outcome)) = shownAfter (do
      let e ← { e with text := text' }.makeRoom h position distance
      let (outcome, e) ← e.reread l h
      pure (.ok outcome, e) : Checked (Edited Outcome)) := by
  rw [face, face, Face.mk.injEq] at same
  obtain ⟨-, trees, ids, widened⟩ := same
  have same : ({ d with text := text } : Document).face =
      ({ e with text := text' } : Document).face := by
    simp only [face, current, trees, ids, widened]
  refine shownAfter_step (makeRoom_of_face same) fun d₁ e₁ made same₁ => ?_
  have reach : Tree.reach d₁.tree.nodes = Tree.reach e₁.tree.nodes :=
    congrArg (fun face => Tree.reach face.tree.nodes) same₁
  have narrow₁ : d₁.widened = true → d₁.tree.parent h = .ok none := by
    intro wide
    rw [makeRoom_widened made] at wide
    exact ((makeRoom_alike made).1.parent_eq h).trans (narrow wide)
  rw [reread, reread, reach]
  refine shownAfter_bind (rereadFrom_of_face same₁ narrow₁) fun outcome d₂ e₂ _ same₂ => ?_
  simp only [pure_eq_ok, shownAfter_ok, same₂]

theorem insert_of_face {c : Char} {position : Nat} (same : d.face = e.face)
    (narrow : d.widened = false) (top : ∀ p, d.tree.parent d.root ≠ .ok (some p)) :
    shownAfter (d.insert l c position) = shownAfter (e.insert l c position) := by
  have current : d.text.current = e.text.current := congrArg Face.text same
  have length : d.text.currentLength = e.text.currentLength := by
    rw [← length_current, ← length_current, current]
  rw [insert, insert, length]
  split
  next => simp only [pure_eq_ok, shownAfter_ok, same]
  next within =>
    have inside : position ≤ e.text.currentLength := Nat.le_of_not_lt within
    refine shownAfter_bind (nodeAround_of_face same) fun h d₁ e₁ around same₁ => ?_
    have current₁ : d₁.text.current = e₁.text.current := congrArg Face.text same₁
    have trees : d₁.tree = e₁.tree := congrArg Face.tree same₁
    have narrow₁ := nodeAround_narrow narrow top around
    have inside₁ : position ≤ d₁.text.currentLength := by
      rw [nodeAround_text around, length]
      exact inside
    have inside₂ : position ≤ e₁.text.currentLength := by
      rwa [← length_current, ← current₁, length_current]
    simp only [trees]
    cases e₁.tree.span h with
    | error fault => simp only [error_bind, shownAfter_error]
    | ok span =>
      obtain ⟨text, typed, text_eq⟩ := typed_current (d := d₁) span c inside₁
      obtain ⟨text', typed', text_eq'⟩ := typed_current (d := e₁) span c inside₂
      have texts : text.current = text'.current := by rw [text_eq, text_eq', current₁]
      have rest := @stroke_of_face _ l _ _ h _ _ position 1 same₁ texts narrow₁
      rw [Document.typed] at typed typed'
      by_cases starts : span.start = position
      · rw [if_pos starts] at typed typed'
        simpa only [ok_bind, if_pos starts, typed, typed', ← trees] using rest
      · rw [if_neg starts] at typed typed'
        simpa only [ok_bind, if_neg starts, typed, typed', ← trees] using rest

theorem delete_of_face {position : Nat} (same : d.face = e.face) (narrow : d.widened = false)
    (top : ∀ p, d.tree.parent d.root ≠ .ok (some p)) :
    shownAfter (d.delete l position) = shownAfter (e.delete l position) := by
  have current : d.text.current = e.text.current := congrArg Face.text same
  have length : d.text.currentLength = e.text.currentLength := by
    rw [← length_current, ← length_current, current]
  rw [delete, delete, length]
  split
  next => simp only [pure_eq_ok, shownAfter_ok, same]
  next within =>
    have inside : position < e.text.currentLength := Nat.lt_of_not_le within
    refine shownAfter_bind (nodeAround_of_face same) fun h d₁ e₁ around same₁ => ?_
    have current₁ : d₁.text.current = e₁.text.current := congrArg Face.text same₁
    have inside₁ : position < d₁.text.currentLength := by
      rw [nodeAround_text around, length]
      exact inside
    obtain ⟨text, deleted, text_eq⟩ := delete_current d₁.text inside₁
    have inside₂ : position < e₁.text.currentLength := by
      rwa [← length_current, ← current₁, length_current]
    obtain ⟨text', deleted', text_eq'⟩ := delete_current e₁.text inside₂
    simp only [ok_bind, deleted, deleted']
    exact stroke_of_face same₁ (by rw [text_eq, text_eq', current₁])
      (nodeAround_narrow narrow top around)

/-- Two documents that differ only in what their texts remember answer a stroke alike, refusals and
faults included, and differ only in that again. The root must not be widened, since it is narrowed
when nothing is pending any more, and must not have a parent. -/
theorem strokes_hide_history (l : Language κ) {d e : Document} (same : d.face = e.face)
    (narrow : d.widened = false) (top : ∀ p, d.tree.parent d.root ≠ .ok (some p)) (s : Stroke) :
    shownAfter (s.runIn l d) = shownAfter (s.runIn l e) := by
  cases s with
  | insert c position => exact insert_of_face same narrow top
  | delete position => exact delete_of_face same narrow top

/-- The same text and tree as those of `shortenedPair`, of which the `a` was typed and nothing was
deleted. -/
def typedPair : Document :=
  { shortenedPair with
    text := ⟨[⟨'(', .kept⟩, ⟨'a', .inserted⟩, ⟨' ', .kept⟩, ⟨'b', .kept⟩, ⟨')', .kept⟩]⟩ }

/-- Deleting the `a` cancels it in one document and marks it in the other. -/
theorem deleted_head_hides_history : typedPair.text ≠ shortenedPair.text ∧
    typedPair.face = shortenedPair.face ∧ typedPair.widened = false ∧
    (∀ p, typedPair.tree.parent typedPair.root ≠ .ok (some p)) ∧
    shownAfter ((Stroke.delete 1).runIn Language.parenthesised typedPair) =
      shownAfter ((Stroke.delete 1).runIn Language.parenthesised shortenedPair) := by
  have top : ∀ p, typedPair.tree.parent typedPair.root ≠ .ok (some p) := by
    intro p
    rw [show typedPair.tree.parent typedPair.root = .ok none by decide]
    exact nofun
  have same : typedPair.face = shortenedPair.face := rfl
  exact ⟨by decide, same, rfl, top,
    strokes_hide_history Language.parenthesised same rfl top (.delete 1)⟩

end Document

end FormEdit
