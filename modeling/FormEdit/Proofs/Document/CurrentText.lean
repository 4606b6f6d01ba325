import FormEdit.Document.Typing
import FormEdit.Proofs.Buffer.Moving
import FormEdit.Proofs.Document.Undoing

/-!
# What edits do to the current text

Whatever is pending, and whatever is committed or read again on the way, an edit does to the current
text what it would do to a plain list of characters: a stroke inserts or removes one of them, a move
makes two stretches trade places, a copy is put in behind the spacer. Reading again changes the tree
and commits cells, neither of which shows (`rereadFrom_text`).
-/

namespace FormEdit.Document

open Buffer

variable {κ : Type} {l : Language κ} {d d' : Document} {h : Handle}

/-! ## Reading again -/

theorem putForm_text {f : Form} {view : View} {new : Handle}
    (put : d.putForm h f view = .ok (new, d')) : d'.text = d.text := by
  obtain ⟨span, -, put⟩ := bind_eq_ok.mp put
  obtain ⟨tree, -, put⟩ := bind_eq_ok.mp put
  cases view with
  | current =>
    cases put
    rfl
  | committed =>
    obtain ⟨tree', -, put⟩ := bind_eq_ok.mp put
    cases put
    rfl

theorem narrowRoot_text (narrowed : d.narrowRoot l = .ok d') : d'.text = d.text := by
  obtain ⟨span, -, narrowed⟩ := bind_eq_ok.mp narrowed
  split at narrowed
  next => cases narrowed
  next =>
    cases narrowed
    rfl
  next tokens split_eq =>
    split at narrowed
    next first last first_eq last_eq =>
      obtain ⟨span', -, narrowed⟩ := bind_eq_ok.mp narrowed
      obtain ⟨tree, -, narrowed⟩ := bind_eq_ok.mp narrowed
      cases narrowed
      rfl
    next =>
      cases narrowed
      rfl

/-- A buffer of which some or all has been committed, or nothing. -/
inductive Settles (text : Buffer) : Buffer → Prop
  | none : Settles text text
  | some (span : Span) : Settles text (text.commit span)
  | all : Settles text text.commitAll

theorem Settles.current {text text' : Buffer} (settles : Settles text text') :
    text'.current = text.current := by
  cases settles with
  | none => rfl
  | some span => exact commit_current text span
  | all => exact commitAll_current text

theorem Settles.kept {text text' : Buffer} (settles : Settles text text')
    (kept : ∀ c ∈ text.cells, c.status = .kept) : ∀ c ∈ text'.cells, c.status = .kept := by
  have settled {cells : List Cell} : ∀ c ∈ settle cells, c.status = .kept := by
    intro c mem
    obtain ⟨_, -, rfl⟩ := List.mem_map.mp mem
    rfl
  cases settles with
  | none => exact kept
  | all => exact settled
  | some span =>
    unfold commit
    split
    · exact kept
    · intro c mem
      simp only [List.mem_append] at mem
      rcases mem with (mem | mem) | mem
      · exact kept c (List.mem_of_mem_take mem)
      · exact settled c mem
      · exact kept c (List.mem_of_mem_drop mem)

theorem commitNode_text {span : Span} (done : d.commitNode l h span = .ok d') :
    Settles d.text d'.text := by
  obtain ⟨parent, -, done⟩ := bind_eq_ok.mp done
  cases parent with
  | none =>
    cases done
    exact .all
  | some parent =>
    dsimp only at done
    split at done
    next =>
      obtain ⟨d₁, narrowed, done⟩ := bind_eq_ok.mp done
      cases done
      change Settles d.text d₁.text
      rw [narrowRoot_text narrowed]
      exact .some span
    next =>
      cases done
      exact .some span

/-- However far out the text is read again, it stays the same but for what is committed. -/
theorem rereadFrom_text {steps : Nat} {outcome : Outcome}
    (ran : rereadFrom l steps d h = .ok (outcome, d')) : Settles d.text d'.text := by
  induction steps generalizing h with
  | zero => cases ran
  | succ steps ih =>
    obtain ⟨span, -, ran⟩ := bind_eq_ok.mp ran
    obtain ⟨form, -, ran⟩ := bind_eq_ok.mp ran
    cases form with
    | some form =>
      obtain ⟨⟨new, d₁⟩, put, ran⟩ := bind_eq_ok.mp ran
      obtain ⟨d₂, committed, ran⟩ := bind_eq_ok.mp ran
      cases ran
      have settles := commitNode_text committed
      rwa [putForm_text put] at settles
    | none =>
      obtain ⟨parent, -, ran⟩ := bind_eq_ok.mp ran
      cases parent with
      | some parent => exact ih ran
      | none =>
        cases ran
        exact .none

/-! ## Strokes -/

theorem nodeAround_text {position width : Nat}
    (around : d.nodeAround position width = .ok (h, d')) :
    d'.text = d.text := by
  obtain ⟨nodes, -, around⟩ := bind_eq_ok.mp around
  split at around
  next =>
    cases around
    rfl
  next =>
    obtain ⟨span, -, around⟩ := bind_eq_ok.mp around
    obtain ⟨tree, -, around⟩ := bind_eq_ok.mp around
    cases around
    rfl

theorem makeRoom_text {position : Nat} {distance : Int}
    (made : d.makeRoom h position distance = .ok d') : d'.text = d.text := by
  obtain ⟨tree₁, -, made⟩ := bind_eq_ok.mp made
  obtain ⟨tree₂, -, made⟩ := bind_eq_ok.mp made
  obtain ⟨tree₃, -, made⟩ := bind_eq_ok.mp made
  cases made
  rfl

/-- What follows the change of the text leaves it alone. -/
theorem stroke_current {text : Buffer} {position : Nat} {distance : Int} {outcome : Outcome}
    (edited : (do
      let d ← { d with text := text }.makeRoom h position distance
      let (outcome, d) ← d.reread l h
      pure (.ok outcome, d) : Checked (Edited Outcome)) = .ok (.ok outcome, d')) :
    d'.text.current = text.current := by
  obtain ⟨d₁, made, edited⟩ := bind_eq_ok.mp edited
  obtain ⟨⟨outcome', d₂⟩, ran, edited⟩ := bind_eq_ok.mp edited
  cases edited
  rw [(rereadFrom_text ran).current, makeRoom_text made]

theorem insert_accepted {c : Char} {position : Nat} {outcome : Outcome}
    (edited : d.insert l c position = .ok (.ok outcome, d')) :
    position ≤ d.text.currentLength ∧ d'.text.current = typedText d.text.current c position := by
  rw [insert] at edited
  split at edited
  next => cases edited
  next within =>
    have inside : position ≤ d.text.currentLength := Nat.le_of_not_lt within
    obtain ⟨⟨node, d₁⟩, around, edited⟩ := bind_eq_ok.mp edited
    obtain ⟨span, -, edited⟩ := bind_eq_ok.mp edited
    refine ⟨inside, ?_⟩
    rw [nodeAround_text around] at edited
    split at edited
    next =>
      obtain ⟨text, typed, current_eq⟩ := insertPastDeleted_current d.text c inside
      rw [typed] at edited
      rw [stroke_current edited, current_eq]
    next =>
      obtain ⟨text, typed, current_eq⟩ := insert_current d.text c inside
      rw [typed] at edited
      rw [stroke_current edited, current_eq]

theorem delete_accepted {position : Nat} {outcome : Outcome}
    (edited : d.delete l position = .ok (.ok outcome, d')) :
    position < d.text.currentLength ∧ d'.text.current = d.text.current.eraseIdx position := by
  rw [delete] at edited
  split at edited
  next => cases edited
  next within =>
    have inside : position < d.text.currentLength := Nat.lt_of_not_le within
    obtain ⟨⟨node, d₁⟩, around, edited⟩ := bind_eq_ok.mp edited
    obtain ⟨text, deleted, current_eq⟩ := delete_current d.text inside
    dsimp only at edited
    rw [nodeAround_text around, deleted] at edited
    exact ⟨inside, by rw [stroke_current edited, current_eq]⟩

/-- Once the text is changed the stroke is made. -/
theorem stroke_made {text : Buffer} {position : Nat} {distance : Int}
    {answer : Except Refusal Outcome}
    (edited : (do
      let d ← { d with text := text }.makeRoom h position distance
      let (outcome, d) ← d.reread l h
      pure (.ok outcome, d) : Checked (Edited Outcome)) = .ok (answer, d')) :
    ∃ outcome, answer = .ok outcome := by
  obtain ⟨d₁, -, edited⟩ := bind_eq_ok.mp edited
  obtain ⟨⟨outcome, d₂⟩, -, edited⟩ := bind_eq_ok.mp edited
  cases edited
  exact ⟨outcome, rfl⟩

theorem insert_within {c : Char} {position : Nat} {answer : Except Refusal Outcome}
    (inside : position ≤ d.text.currentLength) (edited : d.insert l c position = .ok (answer, d')) :
    ∃ outcome, answer = .ok outcome := by
  rw [insert, if_neg (Nat.not_lt.mpr inside)] at edited
  obtain ⟨⟨node, d₁⟩, -, edited⟩ := bind_eq_ok.mp edited
  obtain ⟨span, -, edited⟩ := bind_eq_ok.mp edited
  dsimp only at edited
  split at edited
  next =>
    obtain ⟨text, -, edited⟩ := bind_eq_ok.mp edited
    exact stroke_made edited
  next =>
    obtain ⟨text, -, edited⟩ := bind_eq_ok.mp edited
    exact stroke_made edited

theorem delete_within {position : Nat} {answer : Except Refusal Outcome}
    (inside : position < d.text.currentLength) (edited : d.delete l position = .ok (answer, d')) :
    ∃ outcome, answer = .ok outcome := by
  rw [delete, if_neg (Nat.not_le.mpr inside)] at edited
  obtain ⟨⟨node, d₁⟩, -, edited⟩ := bind_eq_ok.mp edited
  obtain ⟨text, -, edited⟩ := bind_eq_ok.mp edited
  exact stroke_made edited

/-! ## Moves and copies -/

/-- Two nodes have been exchanged, and so has their text. -/
def Exchanged (d d' : Document) (earlier later : Handle) : Prop :=
  ∃ first second, d.tree.span earlier = .ok first ∧ d.tree.span later = .ok second ∧
    d'.text.current = exchangedText d.text.current first second

theorem exchange_accepted {earlier later root : Handle}
    (inside : ∀ m, d.tree.nodes.get? later = some m → m.span.stop ≤ d.text.currentLength)
    (edited : d.exchange l earlier later = .ok (some root, d')) : Exchanged d d' earlier later := by
  obtain ⟨parent, -, edited⟩ := bind_eq_ok.mp edited
  cases parent with
  | none => cases edited
  | some parent =>
    obtain ⟨first, span_first, edited⟩ := bind_eq_ok.mp edited
    obtain ⟨second, span_second, edited⟩ := bind_eq_ok.mp edited
    obtain ⟨⟨done, text⟩, exchanged, edited⟩ := bind_eq_ok.mp edited
    have reach : second.stop ≤ d.text.currentLength := by
      obtain ⟨m, found, span⟩ := bind_eq_ok.mp span_second
      cases span
      exact inside m (Slots.get_eq_ok.mp found)
    have order : first.stop ≤ second.start := by
      by_contra reversed
      rw [Buffer.exchange, if_neg reversed] at exchanged
      cases exchanged
    obtain ⟨x, text', exchanged', current_eq, -⟩ := exchange_spec order reach
    rw [exchanged'] at exchanged
    cases exchanged
    refine ⟨first, second, span_first, span_second, ?_⟩
    dsimp only at edited
    split at edited
    next form read =>
      obtain ⟨⟨new, d₁⟩, put, edited⟩ := bind_eq_ok.mp edited
      cases edited
      rw [putForm_text put]
      exact current_eq
    next => cases edited
    next => cases edited

theorem moveEarlier_accepted {root : Handle} (inside : d.ChildrenInside)
    (edited : d.moveEarlier l h = .ok (.ok (some root), d')) :
    ∃ earlier, d.tree.siblingBefore h = .ok (some earlier) ∧ Exchanged d d' earlier h := by
  obtain ⟨earlier, found, exchanged⟩ := moveEarlier_made edited
  exact ⟨earlier, found, exchange_accepted (fun m => inside.of_siblingBefore found) exchanged⟩

theorem moveLater_accepted {root : Handle} (inside : d.ChildrenInside)
    (edited : d.moveLater l h = .ok (.ok (some root), d')) :
    ∃ later, d.tree.siblingAfter h = .ok (some later) ∧ Exchanged d d' h later := by
  obtain ⟨later, found, exchanged⟩ := moveLater_made edited
  exact ⟨later, found, exchange_accepted (fun m => inside.of_siblingAfter found) exchanged⟩

/-- A node that makes room behind it without fault, and has a parent, is listed by it. -/
theorem listed_of_moveSuccessors {parent : Handle} {distance : Int} {tree : Tree}
    (above : d.tree.parent h = .ok (some parent))
    (moved : d.tree.moveSuccessors h distance = .ok tree) :
    ∃ n, d.tree.nodes.get? parent = some n ∧ h ∈ n.children := by
  rw [Tree.moveSuccessors] at moved
  cases steps : Tree.movingReach d.tree.nodes distance with
  | zero =>
    rw [steps] at moved
    cases moved
  | succ steps' =>
    rw [steps] at moved
    obtain ⟨seat, is_seat, -⟩ := bind_eq_ok.mp moved
    have is_seat' := is_seat
    rw [Tree.seat, above, ok_bind] at is_seat'
    obtain ⟨siblings, -, found⟩ := bind_eq_ok.mp is_seat'
    split at found
    next index _ =>
      cases found
      exact seat_listed is_seat
    next => cases found

theorem copyChild_accepted {parent root : Handle} (inside : d.ChildrenInside)
    (above : d.tree.parent h = .ok (some parent))
    (edited : d.copyChild l parent h = .ok (some root, d')) :
    ∃ span, d.tree.span h = .ok span ∧ d'.text.current =
      insertedText d.text.current span.stop (l.spacer.toList ++ pieceOf d.text.current span) := by
  obtain ⟨span, span_eq, edited⟩ := bind_eq_ok.mp edited
  obtain ⟨tree, moved, edited⟩ := bind_eq_ok.mp edited
  obtain ⟨siblings, -, edited⟩ := bind_eq_ok.mp edited
  have reach : span.stop ≤ d.text.currentLength := by
    obtain ⟨m, found, same⟩ := bind_eq_ok.mp span_eq
    cases same
    obtain ⟨n, stored, listed⟩ := listed_of_moveSuccessors above moved
    exact inside _ n stored _ listed m (Slots.get_eq_ok.mp found)
  have start : span.start ≤ d.text.currentLength := Nat.le_trans span.start_le_stop reach
  have copied : (Buffer.ofText l.spacer ++ d.text.copy span).current =
      l.spacer.toList ++ pieceOf d.text.current span := by
    have spaced : (Buffer.ofText l.spacer).current = l.spacer.toList := by
      simp [Buffer.ofText, Buffer.current, Cell.isCurrent, List.filter_map, Function.comp_def]
    rw [← copy_current start, ← spaced]
    exact shown_append _ _
  refine ⟨span, span_eq, ?_⟩
  split at edited
  next => cases edited
  next =>
    obtain ⟨text, -, edited⟩ := bind_eq_ok.mp edited
    obtain ⟨tree', -, edited⟩ := bind_eq_ok.mp edited
    cases edited
  next form read =>
    split at edited
    next =>
      obtain ⟨⟨new, d₁⟩, put, edited⟩ := bind_eq_ok.mp edited
      cases edited
      rw [putForm_text put, ← copied]
      exact patchIn_current d.text _ reach
    next =>
      obtain ⟨text, -, edited⟩ := bind_eq_ok.mp edited
      obtain ⟨tree', -, edited⟩ := bind_eq_ok.mp edited
      cases edited

theorem duplicate_accepted {root : Handle} (inside : d.ChildrenInside)
    (edited : d.duplicate l h = .ok (.ok (some root), d')) :
    ∃ span, d.tree.span h = .ok span ∧ d'.text.current =
      insertedText d.text.current span.stop (l.spacer.toList ++ pieceOf d.text.current span) := by
  obtain ⟨parent, above, copied⟩ := duplicate_made edited
  exact copyChild_accepted inside above copied

/-- Every edit does to the current text what it would do to a plain list of characters, in every
language and whatever is pending, as long as the children end inside of the text. A stroke that
returns is made just if its position is inside of the text. -/
theorem edits_act_on_plain_text (l : Language κ) {d : Document} (inside : d.ChildrenInside)
    (d' : Document) :
    (∀ c position outcome, d.insert l c position = .ok (.ok outcome, d') →
      position ≤ d.text.current.length ∧
        d'.text.current = typedText d.text.current c position) ∧
    (∀ position outcome, d.delete l position = .ok (.ok outcome, d') →
      position < d.text.current.length ∧ d'.text.current = d.text.current.eraseIdx position) ∧
    (∀ h root, d.moveEarlier l h = .ok (.ok (some root), d') →
      ∃ earlier, d.tree.siblingBefore h = .ok (some earlier) ∧ Exchanged d d' earlier h) ∧
    (∀ h root, d.moveLater l h = .ok (.ok (some root), d') →
      ∃ later, d.tree.siblingAfter h = .ok (some later) ∧ Exchanged d d' h later) ∧
    (∀ h root, d.duplicate l h = .ok (.ok (some root), d') →
      ∃ span, d.tree.span h = .ok span ∧ d'.text.current =
        insertedText d.text.current span.stop (l.spacer.toList ++ pieceOf d.text.current span)) ∧
    (∀ h answer, (d.moveEarlier l h = .ok (answer, d') ∨ d.moveLater l h = .ok (answer, d') ∨
        d.duplicate l h = .ok (answer, d')) → Declined answer →
      d'.text.current = d.text.current) ∧
    (∀ refusal, ((∃ c position, d.insert l c position = .ok (.error refusal, d')) ∨
        ∃ position, d.delete l position = .ok (.error refusal, d')) →
      d'.text.current = d.text.current) ∧
    (∀ c position answer, d.insert l c position = .ok (answer, d') →
      position ≤ d.text.current.length → ∃ outcome, answer = .ok outcome) ∧
    ∀ position answer, d.delete l position = .ok (answer, d') →
      position < d.text.current.length → ∃ outcome, answer = .ok outcome := by
  rw [length_current]
  refine ⟨fun c position outcome => insert_accepted, fun position outcome => delete_accepted,
    fun h root => moveEarlier_accepted inside, fun h root => moveLater_accepted inside,
    fun h root => duplicate_accepted inside, ?_, ?_, ?_, ?_⟩
  · rintro h answer (edited | edited | edited) declined
    · rw [moveEarlier_declined inside edited declined]
    · rw [moveLater_declined inside edited declined]
    · rw [duplicate_declined edited declined]
  · rintro refusal (⟨c, position, refused⟩ | ⟨position, refused⟩)
    · rw [insert_refused refused]
    · rw [delete_refused refused]
  · exact fun c position answer edited within => insert_within within edited
  · exact fun position answer edited within => delete_within within edited

/-- The text `(a b)` of which a character behind `a` was deleted, with its tree. -/
def shortenedPair : Document where
  text := ⟨[⟨'(', .kept⟩, ⟨'a', .kept⟩, ⟨'x', .deleted⟩, ⟨' ', .kept⟩, ⟨'b', .kept⟩, ⟨')', .kept⟩]⟩
  tree := ⟨⟨#[⟨0, some ⟨1, .list, Span.sized 0 5, none, [⟨1, 0⟩, ⟨2, 0⟩]⟩⟩,
    ⟨0, some ⟨2, .atom "a", Span.sized 1 1, some ⟨0, 0⟩, []⟩⟩,
    ⟨0, some ⟨3, .atom "b", Span.sized 3 1, some ⟨0, 0⟩, []⟩⟩], [], 3⟩, ⟨0, 0⟩⟩
  ids := .counting 4
  widened := false

theorem shortenedPair_inside : shortenedPair.ChildrenInside := by
  intro h n stored c listed m stored'
  obtain ⟨index, generation⟩ := c
  rw [Slots.get?_eq_some] at stored'
  match index with
  | 0 | 1 | 2 =>
    cases stored'
    decide
  | index + 3 => simp [shortenedPair] at stored'

/-- The deleted character goes along with the text before it and does not show. -/
theorem shortenedPair_trades_text : shortenedPair.ChildrenInside ∧ ∃ root d',
    shortenedPair.moveLater Language.parenthesised ⟨1, 0⟩ = .ok (.ok (some root), d') ∧
    Exchanged shortenedPair d' ⟨1, 0⟩ ⟨2, 0⟩ ∧ d'.text.current = "(b a)".toList := by
  have found : shortenedPair.tree.siblingAfter ⟨1, 0⟩ = .ok (some ⟨2, 0⟩) := by decide +kernel
  have made : (shortenedPair.moveLater Language.parenthesised ⟨1, 0⟩).map
      (fun edited => (edited.1, edited.2.text.current)) =
      .ok (.ok (some ⟨3, 0⟩), "(b a)".toList) := by decide +kernel
  cases ran : shortenedPair.moveLater Language.parenthesised ⟨1, 0⟩ with
  | error fault =>
    rw [ran] at made
    cases made
  | ok edited =>
    obtain ⟨answer, d'⟩ := edited
    rw [ran] at made
    obtain ⟨rfl, text⟩ : answer = .ok (some ⟨3, 0⟩) ∧ d'.text.current = "(b a)".toList := by
      simpa [Except.map] using made
    obtain ⟨later, after, exchanged⟩ := (edits_act_on_plain_text Language.parenthesised
      shortenedPair_inside d').2.2.2.1 ⟨1, 0⟩ _ ran
    rw [found] at after
    cases after
    exact ⟨shortenedPair_inside, _, d', rfl, exchanged, text⟩

end FormEdit.Document
