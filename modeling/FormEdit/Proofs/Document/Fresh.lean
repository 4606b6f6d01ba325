import FormEdit.Document
import FormEdit.Proofs.Buffer.Current
import FormEdit.Proofs.Grammar.Derives
import FormEdit.Proofs.Tree.Planting

/-!
# Reading afresh

A document is in step with its text if its tree is what a fresh reading of the text gives, comments
and all. What a fresh reading gives is the form that the grammar derives: `freshForm_eq_ok`.
-/

namespace FormEdit.Document

open Buffer FormEdit.Language FormEdit.Tree

/-- The form that a fresh reading of a text gives. -/
def freshForm (text : List Char) : Except Failure Form := do
  let d ← ofText parenthesised (String.ofList text) .fromOne
  (d.tree.form d.root).mapError .fault

/-- The tree is what a fresh reading of the current text gives. -/
def InStep (d : Document) : Prop :=
  ∃ f, freshForm d.text.current = .ok f ∧ d.tree.form d.root = .ok f

/-- The store of the tree holds the nodes of one tree in their places, each once. -/
def WellLinked (d : Document) : Prop := ∃ b, Holds d.tree b

theorem current_ofText (text : List Char) :
    (Buffer.ofText (String.ofList text)).current = text := by
  simp [Buffer.ofText, current, Cell.isCurrent, List.filter_map, Function.comp_def]

/-- Reading a text afresh. -/
theorem ofText_eq (text : List Char) (ids : IdSource) :
    ofText parenthesised (String.ofList text) ids = (do
      let form ← parenthesised.readWhole (Placed.run 0 text)
      let (tree, ids) := Tree.ofForm form ids
      pure ⟨Buffer.ofText (String.ofList text), tree, ids, false⟩) := by
  have length_eq : (Buffer.ofText (String.ofList text)).currentLength = text.length := by
    rw [← length_current, current_ofText]
  have slice_eq : (Buffer.ofText (String.ofList text)).slice .current (Span.sized 0 text.length) =
      Placed.run 0 text := by
    rw [slice_current _ (by simp [Span.sized]), current_ofText]
    simp [Span.sized, Span.length]
  simp only [ofText, length_eq, slice_eq]

theorem freshForm_eq_ok {text : List Char} {f : Form} (fits : text.length < positionLimit) :
    freshForm text = .ok f ↔ Parses 0 text f := by
  have whole : 0 + text.length < positionLimit := by omega
  rw [← readWhole_eq_ok whole, freshForm, ofText_eq]
  cases read : parenthesised.readWhole (Placed.run 0 text) with
  | error failure => simp
  | ok g =>
    obtain ⟨b, holds, form⟩ := ofForm_holds g .fromOne
    have shown := holds.form
    rw [form] at shown
    simp only [ok_bind, pure_eq_ok, root, shown, mapError_ok]

/-- The branch of a document that is in step is the fresh reading of its text. -/
theorem InStep.parses {d : Document} {b : Branch} (in_step : d.InStep) (holds : Holds d.tree b)
    (fits : d.text.currentLength < positionLimit) : Parses 0 d.text.current (Branch.form b) := by
  obtain ⟨f, fresh, tree_form⟩ := in_step
  rw [← length_current] at fits
  have same : d.tree.form d.tree.root = .ok f := tree_form
  rw [holds.form] at same
  cases same
  exact (freshForm_eq_ok fits).mp fresh

theorem inStep_of_parses {d : Document} {b : Branch} (holds : Holds d.tree b)
    (fits : d.text.currentLength < positionLimit)
    (parses : Parses 0 d.text.current (Branch.form b)) :
    d.InStep := by
  rw [← length_current] at fits
  exact ⟨Branch.form b, (freshForm_eq_ok fits).mpr parses, holds.form⟩

end FormEdit.Document
