import FormEdit.Proofs.Document.Resting

/-!
# Runs of moves and copies

A settled document that is in step with its text stays so whatever nodes are moved or copied, made
or not: what one edit leaves is `Resting.rearrange`, and `Rearrangements.resting` follows a run of
them.
-/

namespace FormEdit.Document

open Rose Buffer Branch FormEdit.Language FormEdit.Tree

variable {d d₁ d' : Document} {b e l : Branch} {fs : List (Frame (Handle × Node))}
  {value : Handle × Node} {before after : List Branch}

theorem isSettled_iff : d.isSettled = true ↔ AllKept d.text.cells := by
  simp [isSettled, isChanged, AllKept]

theorem exists_resting (linked : d.WellLinked) (settled : d.isSettled = true) (in_step : d.InStep)
    (fits : d.text.currentLength < positionLimit) : ∃ b, Resting d b := by
  obtain ⟨b, holds⟩ := linked
  exact ⟨b, holds, isSettled_iff.mp settled, in_step.parses holds fits⟩

/-- An edit that moves or copies a node. -/
inductive Rearrangement where
  | moveEarlier (h : Handle)
  | moveLater (h : Handle)
  | duplicate (h : Handle)

namespace Rearrangement

def run (d : Document) : Rearrangement → Checked (Edited (Option Handle))
  | .moveEarlier h => d.moveEarlier parenthesised h
  | .moveLater h => d.moveLater parenthesised h
  | .duplicate h => d.duplicate parenthesised h

/-- The node that is to be moved or copied. -/
def node : Rearrangement → Handle
  | .moveEarlier h => h
  | .moveLater h => h
  | .duplicate h => h

/-- How much longer the text becomes if the edit is made. -/
def growth (d : Document) : Rearrangement → Nat
  | .duplicate h =>
    match d.tree.span h with
    | .ok span => span.length + 1
    | .error _ => 0
  | _ => 0

/-- All positions can still be numbered after the edit. -/
def Fits (d : Document) (r : Rearrangement) : Prop :=
  d.text.currentLength + r.growth d < positionLimit

end Rearrangement

/-- What an edit leaves of a document without changes: another one whose text reads as its tree. -/
structure Rearranged (d : Document) (r : Rearrangement) (d' : Document) : Prop where
  resting : ∃ b, Resting d' b
  widened : d'.widened = d.widened
  chars : ∀ c ∈ d'.text.current, c ∈ d.text.current ∨ c = ' '
  length : d'.text.currentLength ≤ d.text.currentLength + r.growth d

theorem Resting.unchanged (resting : Resting d b) (r : Rearrangement) : Rearranged d r d :=
  ⟨⟨b, resting⟩, rfl, fun _ mem => .inl mem, Nat.le_add_right _ _⟩

/-- Two neighbours are exchanged, or nothing changes. -/
theorem Resting.exchangePair
    (resting : Resting d (plug fs (.node value (before ++ e :: l :: after))))
    (fits : d.text.currentLength < positionLimit) (r : Rearrangement) :
    ∃ answer d', d.exchangePair parenthesised (some (handle e, handle l)) = .ok (answer, d') ∧
      Rearranged d r d' := by
  obtain ⟨ahead, pre, first, gap, second, post, behind, pair⟩ := resting.exists_pair
  rcases pair.exchange resting fits with
    ⟨g, root, d', fs', c, -, ran, current_eq, widened, resting', -⟩ | ⟨-, ran⟩
  · refine ⟨.ok (some root), d', ?_, ⟨_, resting'⟩, widened, ?_, ?_⟩
    · simp only [Document.exchangePair, ran, ok_bind, pure_eq_ok]
    · intro c mem
      rw [current_eq] at mem
      exact .inl (mem_exchangedText mem)
    · have length := congrArg List.length (current_eq.trans pair.text_eq)
      have old := congrArg List.length pair.enclosed.text
      simp only [length_current, List.length_append, length_parens, List.flatten_cons,
        List.flatten_nil, List.length_nil] at length old
      omega
  · refine ⟨.ok none, d, ?_, resting.unchanged r⟩
    simp only [Document.exchangePair, ran, ok_bind, pure_eq_ok]

theorem Resting.no_pair (resting : Resting d b) (r : Rearrangement) :
    ∃ answer d', d.exchangePair parenthesised none = .ok (answer, d') ∧ Rearranged d r d' :=
  ⟨.ok none, d, rfl, resting.unchanged r⟩

variable {h : Handle}

theorem Resting.moveEarlier (resting : Resting d b) (fits : d.text.currentLength < positionLimit)
    (r : Rearrangement) :
    ∃ answer d', d.moveEarlier parenthesised h = .ok (answer, d') ∧ Rearranged d r d' := by
  by_cases live : d.tree.contains h = true
  · obtain ⟨fs, c, rfl, rfl⟩ := resting.holds.exists_hole live
    rw [Document.moveEarlier, if_pos live]
    cases fs with
    | nil =>
      have holds : Holds d.tree c := resting.holds
      rw [holds.bears.siblings_root.1]
      exact resting.no_pair r
    | cons f fs =>
      obtain ⟨value, before, after⟩ := f
      rw [resting.holds.bears.siblingBefore_eq, ok_bind]
      rcases List.eq_nil_or_concat before with rfl | ⟨before, e, rfl⟩
      · exact resting.no_pair r
      · have both : Resting d (plug fs (.node value (before ++ e :: c :: after))) := by
          simpa [Frame.fill] using resting
        simp only [List.concat_eq_append, List.getLast?_concat, Option.map_some]
        exact both.exchangePair fits r
  · rw [Document.moveEarlier, if_neg live]
    exact ⟨.error .staleNode, d, rfl, resting.unchanged r⟩

theorem Resting.moveLater (resting : Resting d b) (fits : d.text.currentLength < positionLimit)
    (r : Rearrangement) :
    ∃ answer d', d.moveLater parenthesised h = .ok (answer, d') ∧ Rearranged d r d' := by
  by_cases live : d.tree.contains h = true
  · obtain ⟨fs, c, rfl, rfl⟩ := resting.holds.exists_hole live
    rw [Document.moveLater, if_pos live]
    cases fs with
    | nil =>
      have holds : Holds d.tree c := resting.holds
      rw [holds.bears.siblings_root.2]
      exact resting.no_pair r
    | cons f fs =>
      obtain ⟨value, before, after⟩ := f
      rw [resting.holds.bears.siblingAfter_eq, ok_bind]
      cases after with
      | nil => exact resting.no_pair r
      | cons e after => exact Resting.exchangePair resting fits r
  · rw [Document.moveLater, if_neg live]
    exact ⟨.error .staleNode, d, rfl, resting.unchanged r⟩

theorem Resting.duplicate (resting : Resting d b) (fits : (Rearrangement.duplicate h).Fits d) :
    ∃ answer d', d.duplicate parenthesised h = .ok (answer, d') ∧
      Rearranged d (.duplicate h) d' := by
  by_cases live : d.tree.contains h = true
  · obtain ⟨fs, c, rfl, rfl⟩ := resting.holds.exists_hole live
    have parent : d.tree.parent (handle c) = .ok _ := resting.holds.hole.parent_ok
    rw [Document.duplicate, if_pos live, parent, ok_bind]
    cases fs with
    | nil => exact ⟨.ok none, d, rfl, resting.unchanged _⟩
    | cons f fs =>
      obtain ⟨value, before, after⟩ := f
      have span : d.tree.span (handle c) = .ok c.value.2.span := resting.holds.hole.span_eq
      have growth : (Rearrangement.duplicate (handle c)).growth d = c.value.2.span.length + 1 := by
        rw [Rearrangement.growth, span]
      rw [Rearrangement.Fits, growth] at fits
      have listed : Resting d (plug fs (.node value (before ++ c :: after))) := resting
      rcases listed.copyChild fits with ⟨root, d', b', ran, current_eq, widened, resting'⟩ | ran
      · refine ⟨.ok (some root), d', ?_, ⟨b', resting'⟩, widened, ?_, ?_⟩
        · simp only [above, ran, ok_bind, pure_eq_ok]
        · intro char mem
          rw [current_eq] at mem
          rcases mem_insertedText mem with mem | mem
          · exact .inl mem
          · rcases List.mem_cons.mp mem with blank | mem
            · exact .inr blank
            · exact .inl (mem_pieceOf mem)
        · have bound : c.value.2.span.stop ≤ d.text.current.length := by
            rw [length_current]
            exact resting.hole_inside
          have length := congrArg List.length current_eq
          rw [copiedText, length_insertedText, List.length_cons, length_pieceOf bound,
            length_current, length_current] at length
          omega
      · refine ⟨.ok none, d, ?_, resting.unchanged _⟩
        simp only [above, ran, ok_bind, pure_eq_ok]
  · rw [Document.duplicate, if_neg live]
    exact ⟨.error .staleNode, d, rfl, resting.unchanged _⟩

/-- Moving or copying a node of a document without changes that is in step with its text. -/
theorem Resting.rearrange (resting : Resting d b) (r : Rearrangement) (fits : r.Fits d) :
    ∃ answer d', r.run d = .ok (answer, d') ∧ Rearranged d r d' := by
  cases r with
  | moveEarlier h => exact resting.moveEarlier fits _
  | moveLater h => exact resting.moveLater fits _
  | duplicate h => exact resting.duplicate fits

/-- A run of edits, with room for each of them. -/
inductive Rearrangements : Document → List Rearrangement → Document → Prop
  | nil {d : Document} : Rearrangements d [] d
  | cons {d d₁ d' : Document} {r : Rearrangement} {rs : List Rearrangement}
      {answer : Except Refusal (Option Handle)} (fits : r.Fits d) (ran : r.run d = .ok (answer, d₁))
      (more : Rearrangements d₁ rs d') : Rearrangements d (r :: rs) d'

theorem Rearrangements.resting {rs : List Rearrangement} (run : Rearrangements d rs d')
    (resting : ∃ b, Resting d b) (fits : d.text.currentLength < positionLimit) :
    (∃ b, Resting d' b) ∧ d'.text.currentLength < positionLimit := by
  induction run with
  | nil => exact ⟨resting, fits⟩
  | cons fits_first ran _ ih =>
    obtain ⟨b, resting⟩ := resting
    obtain ⟨_, _, ran', rearranged⟩ := resting.rearrange _ fits_first
    rw [ran'] at ran
    cases ran
    exact ih rearranged.resting (Nat.lt_of_le_of_lt rearranged.length fits_first)

theorem Resting.in_step (resting : Resting d b) (fits : d.text.currentLength < positionLimit) :
    d.WellLinked ∧ d.isSettled = true ∧ d.InStep :=
  ⟨⟨b, resting.holds⟩, isSettled_iff.mpr resting.kept,
    inStep_of_parses resting.holds fits resting.parses⟩

/-- A document without pending changes that is in step with its text, comments and all, stays so
when a node is moved or copied, whether the edit is made or not, and so after any run of such
edits. -/
theorem rearranged_document_stays_in_step (d : Document) (linked : d.WellLinked)
    (settled : d.isSettled = true) (in_step : d.InStep)
    (short : d.text.currentLength < positionLimit) :
    (∀ r : Rearrangement, r.Fits d → ∃ answer d', r.run d = .ok (answer, d') ∧
      d'.WellLinked ∧ d'.isSettled = true ∧ d'.InStep) ∧
    ∀ rs d', Rearrangements d rs d' → d'.WellLinked ∧ d'.isSettled = true ∧ d'.InStep := by
  have start := exists_resting linked settled in_step short
  refine ⟨?_, ?_⟩
  · intro r fits
    obtain ⟨b, resting⟩ := start
    obtain ⟨answer, d', ran, rearranged⟩ := resting.rearrange r fits
    obtain ⟨b', resting'⟩ := rearranged.resting
    exact ⟨answer, d', ran, resting'.in_step (Nat.lt_of_le_of_lt rearranged.length fits)⟩
  · intro rs d' run
    obtain ⟨⟨b', resting'⟩, short'⟩ := run.resting start short
    exact resting'.in_step short'

/-- The text `(a ;b` with `(c))` on the next line, and its tree. -/
def commentedPair : Document where
  text := Buffer.ofText "(a ;b\n(c))"
  tree := (Tree.ofForm (.node ⟨.list, Span.sized 0 10⟩ [.leaf ⟨.atom "a", Span.sized 1 1⟩,
    .node ⟨.list, Span.sized 6 3⟩ [.leaf ⟨.atom "c", Span.sized 7 1⟩]]) .fromOne).1
  ids := .counting 5
  widened := false

theorem commentedPair_linked : commentedPair.WellLinked := by
  obtain ⟨b, holds, -⟩ := Tree.ofForm_holds (.node ⟨.list, Span.sized 0 10⟩
    [.leaf ⟨.atom "a", Span.sized 1 1⟩,
      .node ⟨.list, Span.sized 6 3⟩ [.leaf ⟨.atom "c", Span.sized 7 1⟩]]) .fromOne
  exact ⟨b, holds⟩

theorem commentedPair_inStep : commentedPair.InStep := by
  refine ⟨.node ⟨.list, Span.sized 0 10⟩ [.leaf ⟨.atom "a", Span.sized 1 1⟩,
    .node ⟨.list, Span.sized 6 3⟩ [.leaf ⟨.atom "c", Span.sized 7 1⟩]], ?_, ?_⟩
  · decide +kernel
  · decide +kernel

/-- The two children trade places around the comment between them. -/
theorem commentedPair_trades_places : commentedPair.WellLinked ∧ commentedPair.isSettled = true ∧
    commentedPair.InStep ∧ ∃ root d',
      (Rearrangement.moveEarlier ⟨2, 0⟩).run commentedPair = .ok (.ok (some root), d') ∧
      d'.text.current = "((c) ;b\na)".toList ∧ d'.isSettled = true ∧ d'.InStep := by
  have settled : commentedPair.isSettled = true := by decide
  have short : commentedPair.text.currentLength < positionLimit := by decide
  obtain ⟨answer, d', ran, -, settled', in_step'⟩ :=
    (rearranged_document_stays_in_step commentedPair commentedPair_linked settled
      commentedPair_inStep short).1 (.moveEarlier ⟨2, 0⟩) short
  have made : ((Rearrangement.moveEarlier ⟨2, 0⟩).run commentedPair).map
      (fun edited => (edited.1, edited.2.text.current)) =
      .ok (.ok (some ⟨4, 0⟩), "((c) ;b\na)".toList) := by decide +kernel
  rw [ran] at made
  obtain ⟨rfl, text⟩ : answer = .ok (some ⟨4, 0⟩) ∧ d'.text.current = "((c) ;b\na)".toList := by
    simpa [Except.map] using made
  exact ⟨commentedPair_linked, settled, commentedPair_inStep, _, d', ran, text, settled', in_step'⟩

end FormEdit.Document
