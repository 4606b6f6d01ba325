import FormEdit.Document.Restructuring
import FormEdit.Document.Typing
import FormEdit.Proofs.Buffer.Undoing
import FormEdit.Proofs.Tree.Balance

/-!
# Failed edits change nothing

Moving and copying change the text first and ask the reader afterwards. When the reader says no,
both halves are undone: the text by `Buffer.undo_exchange` and `Buffer.patchOut_patchIn`, the tree
by `Tree.moveSuccessors_back`. All that this takes is that no child reaches past the text.
-/

namespace FormEdit

namespace Document

variable {κ : Type}

/-- No child in the store reaches past the end of the text. -/
def ChildrenInside (d : Document) : Prop :=
  ∀ h n, d.tree.nodes.get? h = some n → ∀ c ∈ n.children, ∀ m, d.tree.nodes.get? c = some m →
    m.span.stop ≤ d.text.currentLength

/-- The answer of a structural edit that was not made. -/
def Declined : Except Refusal (Option Handle) → Prop
  | .ok none => True
  | .ok (some _) => False
  | .error _ => True

/-- A node with a seat is listed by its parent. -/
theorem seat_listed {t : Tree} {h parent : Handle} {index : Nat}
    (seat : t.seat h = .ok (some (parent, index))) :
    ∃ n, t.nodes.get? parent = some n ∧ h ∈ n.children := by
  obtain ⟨above, -, seat⟩ := bind_eq_ok.mp seat
  cases above with
  | none => cases seat
  | some p =>
    obtain ⟨siblings, hsiblings, seat⟩ := bind_eq_ok.mp seat
    obtain ⟨n, hn, found⟩ := bind_eq_ok.mp hsiblings
    cases found
    cases place : n.children.idxOf? h with
    | none => simp [place] at seat
    | some i =>
      simp only [place, pure_eq_ok, Except.ok.injEq, Option.some.injEq, Prod.mk.injEq] at seat
      obtain ⟨rfl, rfl⟩ := seat
      refine ⟨n, Slots.get_eq_ok.mp hn, ?_⟩
      rw [← List.isSome_idxOf?, place]
      rfl

theorem exchange_declined {l : Language κ} {d d' : Document} {earlier later : Handle}
    (inside : ∀ m, d.tree.nodes.get? later = some m → m.span.stop ≤ d.text.currentLength)
    (declined : d.exchange l earlier later = .ok (none, d')) : d' = d := by
  obtain ⟨above, -, declined⟩ := bind_eq_ok.mp declined
  cases above with
  | none => cases declined
  | some parent =>
    obtain ⟨first, -, declined⟩ := bind_eq_ok.mp declined
    obtain ⟨second, hsecond, declined⟩ := bind_eq_ok.mp declined
    obtain ⟨⟨done, text⟩, exchanged, declined⟩ := bind_eq_ok.mp declined
    have reach : second.stop ≤ d.text.currentLength := by
      obtain ⟨m, hm, span⟩ := bind_eq_ok.mp hsecond
      cases span
      exact inside m (Slots.get_eq_ok.mp hm)
    dsimp only at declined
    split at declined
    next form read =>
      obtain ⟨_, _, answer⟩ := bind_eq_ok.mp declined
      cases answer
    next rejection read =>
      cases declined
      rw [Buffer.undo_exchange reach exchanged]
    next fault read => cases declined

theorem exchangePair_declined {l : Language κ} {d d' : Document} {pair : Option (Handle × Handle)}
    {answer : Except Refusal (Option Handle)}
    (inside : ∀ earlier later, pair = some (earlier, later) →
      ∀ m, d.tree.nodes.get? later = some m → m.span.stop ≤ d.text.currentLength)
    (edited : d.exchangePair l pair = .ok (answer, d')) (declined : Declined answer) : d' = d := by
  cases pair with
  | none => cases edited; rfl
  | some pair =>
    obtain ⟨⟨root, d₁⟩, exchanged, edited⟩ := bind_eq_ok.mp edited
    cases edited
    cases root with
    | none => exact exchange_declined (inside _ _ rfl) exchanged
    | some root => cases declined

/-- A node with a sibling before it is a child. -/
theorem ChildrenInside.of_siblingBefore {d : Document} {h earlier : Handle}
    (inside : d.ChildrenInside) (found : d.tree.siblingBefore h = .ok (some earlier)) {m : Node}
    (stored : d.tree.nodes.get? h = some m) : m.span.stop ≤ d.text.currentLength := by
  obtain ⟨seat, hseat, found⟩ := bind_eq_ok.mp found
  cases seat with
  | none => cases found
  | some seat =>
    obtain ⟨n, hn, listed⟩ := seat_listed hseat
    exact inside _ n hn _ listed m stored

/-- The sibling behind a node is a child. -/
theorem ChildrenInside.of_siblingAfter {d : Document} {h later : Handle} (inside : d.ChildrenInside)
    (found : d.tree.siblingAfter h = .ok (some later)) {m : Node}
    (stored : d.tree.nodes.get? later = some m) : m.span.stop ≤ d.text.currentLength := by
  obtain ⟨seat, hseat, found⟩ := bind_eq_ok.mp found
  cases seat with
  | none => cases found
  | some seat =>
    obtain ⟨siblings, hsiblings, found⟩ := bind_eq_ok.mp found
    obtain ⟨n, hn, list⟩ := bind_eq_ok.mp hsiblings
    cases list
    simp only [pure_eq_ok, Except.ok.injEq] at found
    exact inside _ n (Slots.get_eq_ok.mp hn) _ (List.mem_of_getElem? found) m stored

theorem moveEarlier_declined {l : Language κ} {d d' : Document} {h : Handle}
    {answer : Except Refusal (Option Handle)} (inside : d.ChildrenInside)
    (edited : d.moveEarlier l h = .ok (answer, d')) (declined : Declined answer) : d' = d := by
  simp only [moveEarlier] at edited
  split at edited
  next live =>
    obtain ⟨before, hbefore, edited⟩ := bind_eq_ok.mp edited
    refine exchangePair_declined ?_ edited declined
    intro earlier later pair m hm
    cases before with
    | none => cases pair
    | some b =>
      cases pair
      exact inside.of_siblingBefore hbefore hm
  next => cases edited; rfl

theorem moveLater_declined {l : Language κ} {d d' : Document} {h : Handle}
    {answer : Except Refusal (Option Handle)} (inside : d.ChildrenInside)
    (edited : d.moveLater l h = .ok (answer, d')) (declined : Declined answer) : d' = d := by
  simp only [moveLater] at edited
  split at edited
  next live =>
    obtain ⟨after, hafter, edited⟩ := bind_eq_ok.mp edited
    refine exchangePair_declined ?_ edited declined
    intro earlier later pair m hm
    cases after with
    | none => cases pair
    | some a =>
      cases pair
      exact inside.of_siblingAfter hafter hm
  next => cases edited; rfl

/-- A node that was moved has traded places with the sibling before it. -/
theorem moveEarlier_made {l : Language κ} {d d' : Document} {h root : Handle}
    (edited : d.moveEarlier l h = .ok (.ok (some root), d')) :
    ∃ earlier, d.tree.siblingBefore h = .ok (some earlier) ∧
      d.exchange l earlier h = .ok (some root, d') := by
  rw [moveEarlier] at edited
  split at edited
  next live =>
    obtain ⟨before, found, edited⟩ := bind_eq_ok.mp edited
    cases before with
    | none => cases edited
    | some earlier =>
      obtain ⟨⟨answer, d₁⟩, exchanged, edited⟩ := bind_eq_ok.mp edited
      cases edited
      exact ⟨earlier, found, exchanged⟩
  next => cases edited

/-- A node that was moved has traded places with the sibling after it. -/
theorem moveLater_made {l : Language κ} {d d' : Document} {h root : Handle}
    (edited : d.moveLater l h = .ok (.ok (some root), d')) :
    ∃ later, d.tree.siblingAfter h = .ok (some later) ∧
      d.exchange l h later = .ok (some root, d') := by
  rw [moveLater] at edited
  split at edited
  next live =>
    obtain ⟨after, found, edited⟩ := bind_eq_ok.mp edited
    cases after with
    | none => cases edited
    | some later =>
      obtain ⟨⟨answer, d₁⟩, exchanged, edited⟩ := bind_eq_ok.mp edited
      cases edited
      exact ⟨later, found, exchanged⟩
  next => cases edited

/-- A node that was copied has a parent. -/
theorem duplicate_made {l : Language κ} {d d' : Document} {h root : Handle}
    (edited : d.duplicate l h = .ok (.ok (some root), d')) :
    ∃ parent, d.tree.parent h = .ok (some parent) ∧
      d.copyChild l parent h = .ok (some root, d') := by
  rw [duplicate] at edited
  split at edited
  next live =>
    obtain ⟨above, up, edited⟩ := bind_eq_ok.mp edited
    cases above with
    | none => cases edited
    | some parent =>
      obtain ⟨⟨answer, d₁⟩, copied, edited⟩ := bind_eq_ok.mp edited
      cases edited
      exact ⟨parent, up, copied⟩
  next => cases edited

/-- Taking the copy out again undoes putting it in. -/
theorem undoCopy_eq {d d' : Document} {h : Handle} {slice : Buffer} {position length : Nat}
    {tree : Tree} {answer : Option Handle}
    (moved : d.tree.moveSuccessors h (length : Int) = .ok tree)
    (undone : undoCopy { d with text := (d.text.patchIn position slice).1, tree := tree } h
      (d.text.patchIn position slice).2 length = .ok (answer, d')) : d' = d := by
  obtain ⟨text, htext, undone⟩ := bind_eq_ok.mp undone
  obtain ⟨back, hback, undone⟩ := bind_eq_ok.mp undone
  rw [Buffer.patchOut_patchIn] at htext
  cases htext
  cases undone
  rw [Tree.moveSuccessors_back moved hback]

theorem copyChild_declined {l : Language κ} {d d' : Document} {parent h : Handle}
    (declined : d.copyChild l parent h = .ok (none, d')) : d' = d := by
  obtain ⟨span, -, declined⟩ := bind_eq_ok.mp declined
  obtain ⟨tree, moved, declined⟩ := bind_eq_ok.mp declined
  obtain ⟨siblings, -, declined⟩ := bind_eq_ok.mp declined
  split at declined
  next => cases declined
  next => exact undoCopy_eq moved declined
  next form read =>
    split at declined
    next =>
      obtain ⟨_, _, answer⟩ := bind_eq_ok.mp declined
      cases answer
    next => exact undoCopy_eq moved declined

theorem duplicate_declined {l : Language κ} {d d' : Document} {h : Handle}
    {answer : Except Refusal (Option Handle)}
    (edited : d.duplicate l h = .ok (answer, d')) (declined : Declined answer) : d' = d := by
  simp only [duplicate] at edited
  split at edited
  next live =>
    obtain ⟨above, -, edited⟩ := bind_eq_ok.mp edited
    cases above with
    | none => cases edited; rfl
    | some parent =>
      obtain ⟨⟨root, d₁⟩, copied, edited⟩ := bind_eq_ok.mp edited
      cases edited
      cases root with
      | none => exact copyChild_declined copied
      | some root => cases declined
  next => cases edited; rfl

theorem insert_refused {l : Language κ} {d d' : Document} {c : Char} {position : Nat}
    {refusal : Refusal} (refused : d.insert l c position = .ok (.error refusal, d')) : d' = d := by
  simp only [insert] at refused
  split at refused
  next => cases refused; rfl
  next =>
    obtain ⟨⟨h, d₁⟩, -, refused⟩ := bind_eq_ok.mp refused
    obtain ⟨span, -, refused⟩ := bind_eq_ok.mp refused
    split at refused
    all_goals
      obtain ⟨text, -, refused⟩ := bind_eq_ok.mp refused
      obtain ⟨d₂, -, refused⟩ := bind_eq_ok.mp refused
      obtain ⟨⟨outcome, d₃⟩, -, refused⟩ := bind_eq_ok.mp refused
      cases refused

theorem delete_refused {l : Language κ} {d d' : Document} {position : Nat} {refusal : Refusal}
    (refused : d.delete l position = .ok (.error refusal, d')) : d' = d := by
  simp only [delete] at refused
  split at refused
  next => cases refused; rfl
  next =>
    obtain ⟨⟨h, d₁⟩, -, refused⟩ := bind_eq_ok.mp refused
    obtain ⟨text, -, refused⟩ := bind_eq_ok.mp refused
    obtain ⟨d₂, -, refused⟩ := bind_eq_ok.mp refused
    obtain ⟨⟨outcome, d₃⟩, -, refused⟩ := bind_eq_ok.mp refused
    cases refused

/-- An edit that is not made leaves the document as it was, down to the marks in the text and the
free slots of the store: in every language, at every node, as long as the children end inside of
the text. -/
theorem declined_edit_changes_nothing (l : Language κ) {d : Document} (inside : d.ChildrenInside)
    (d' : Document) :
    (∀ h answer, (d.moveEarlier l h = .ok (answer, d') ∨ d.moveLater l h = .ok (answer, d') ∨
        d.duplicate l h = .ok (answer, d')) →
      answer = .ok none ∨ answer = .error .staleNode → d' = d) ∧
    (∀ c position refusal, d.insert l c position = .ok (.error refusal, d') → d' = d) ∧
    (∀ position refusal, d.delete l position = .ok (.error refusal, d') → d' = d) := by
  refine ⟨?_, fun _ _ _ => insert_refused, fun _ _ => delete_refused⟩
  intro h answer edited declined
  have declined : Declined answer := by
    rcases declined with rfl | rfl <;> trivial
  rcases edited with edited | edited | edited
  · exact moveEarlier_declined inside edited declined
  · exact moveLater_declined inside edited declined
  · exact duplicate_declined edited declined

/-- The text `'a` with a deleted character at its end. -/
def quotedAtom : Document where
  text := ⟨[⟨'\x27', .kept⟩, ⟨'a', .kept⟩, ⟨'b', .deleted⟩]⟩
  tree := ⟨⟨#[⟨0, some ⟨1, .quote, Span.sized 0 2, none, [⟨1, 0⟩]⟩⟩,
    ⟨0, some ⟨2, .atom "a", Span.sized 1 1, some ⟨0, 0⟩, []⟩⟩], [], 2⟩, ⟨0, 0⟩⟩
  ids := .counting 3
  widened := false

theorem quotedAtom_inside : quotedAtom.ChildrenInside := by
  intro h n hn c hc m hm
  obtain ⟨index, generation⟩ := c
  rw [Slots.get?_eq_some] at hm
  match index with
  | 0 | 1 =>
    cases hm
    decide
  | index + 2 => simp [quotedAtom] at hm

/-- A quote takes no second form, so the copy of its child is taken out again. -/
theorem quotedAtom_keeps_one_child : ∃ d',
    quotedAtom.duplicate Language.parenthesised ⟨1, 0⟩ = .ok (.ok none, d') ∧ d' = quotedAtom := by
  have copied : quotedAtom.duplicate Language.parenthesised ⟨1, 0⟩ = .ok (.ok none, quotedAtom) :=
    rfl
  have unchanged :=
    declined_edit_changes_nothing Language.parenthesised quotedAtom_inside quotedAtom
  exact ⟨quotedAtom, copied, unchanged.1 _ _ (.inr (.inr copied)) (.inl rfl)⟩

end Document

end FormEdit
