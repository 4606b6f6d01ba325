import FormEdit.Edit
import FormEdit.Proofs.Buffer.Committed
import FormEdit.Proofs.Document.Rearranging
import FormEdit.Proofs.Document.Settled
import FormEdit.Proofs.Document.Striking
import Mathlib.Algebra.Group.Nat.Defs

/-!
# Editing sessions

A session starts from a text and goes on with characters typed and deleted and nodes moved and
copied. As long as no semicolon is involved and nothing is moved or copied under a node in which a
change is pending, the document stays orderly (`Session.orderly`). From this follows what a user
relies on: the tree is in step with the text whenever nothing is pending, spans are nested at all
times, and no edit ends in a fault. Without the conditions each of the three can fail.
-/

namespace FormEdit.Document

open Rose Buffer Branch Weave FormEdit.Language FormEdit.Tree

variable {d d' : Document} {b : Branch} {fs : List (Rose.Frame (Handle × Node))} {la ra : List Cell}
  {w : Weave} {value : Handle × Node} {before after : List Branch} {e l c : Branch}

/-! ## Moving and copying while a change is pending -/

theorem Laid.childrenInside (laid : Laid d b) : d.ChildrenInside :=
  fun _ _ _ _ _ _ stored => laid.inside _ (laid.holds.mem_preorder stored)

/-- A node reads as something in the committed view, or it is rejected. -/
theorem readNode_answers (holds : Holds d.tree (Rose.plug fs c))
    (inside : c.value.2.span.stop ≤ d.text.currentLength)
    (fits : d.text.currentLength + 1 < positionLimit) :
    (∃ f, d.readNode parenthesised (handle c) .committed = .ok f) ∨
      ∃ r, d.readNode parenthesised (handle c) .committed = .error (.rejected r) := by
  have span : d.tree.span (handle c) = .ok c.value.2.span := holds.hole.span_eq
  rw [Document.readNode, span, mapError_ok, ok_bind]
  rcases readWhole_sorted (sorted_slice_committed inside fits) with ⟨_, f, -, -, ok⟩ | rejected
  · exact .inl ⟨f, ok⟩
  · exact .inr rejected

/-- Two neighbours can be asked to trade places whatever is pending. -/
theorem Laid.exchange (laid : Laid d (Rose.plug fs (.node value (before ++ e :: l :: after))))
    (order : e.value.2.span.stop ≤ l.value.2.span.start)
    (fits : d.text.currentLength + 1 < positionLimit) :
    ∃ answer d', d.exchange parenthesised (handle e) (handle l) = .ok (answer, d') := by
  have at_e : Holds d.tree (Rose.plug (⟨value, before, l :: after⟩ :: fs) e) := laid.holds
  have at_l : Laid d (Rose.plug (⟨value, before ++ [e], after⟩ :: fs) l) := by
    simpa [Rose.Frame.fill] using laid
  have up : d.tree.parent (handle e) = .ok (some value.1) := at_e.hole.parent_ok
  have span_e : d.tree.span (handle e) = .ok e.value.2.span := at_e.hole.span_eq
  have span_l : d.tree.span (handle l) = .ok l.value.2.span := at_l.holds.hole.span_eq
  obtain ⟨x, text, exchanged, -, perm⟩ := exchange_spec order at_l.hole_inside
  have length : text.currentLength = d.text.currentLength := perm.countP_eq _
  have holds : Holds ({ d with text := text } : Document).tree
      (Rose.plug fs (.node value (before ++ e :: l :: after))) := laid.holds
  have inside : value.2.span.stop ≤ text.currentLength := by
    rw [length]
    exact laid.hole_inside
  rcases readNode_answers holds inside (by rwa [length]) with ⟨f, ok⟩ | ⟨r, rejected⟩
  · obtain ⟨tree, ids, _, _, put, -⟩ := putForm_committed holds f
    have read : ({ d with text := text } : Document).readNode parenthesised value.1 .committed =
      .ok f := ok
    have put_here : ({ d with text := text } : Document).putForm value.1 f .committed = _ := put
    refine ⟨some tree.root, { d with text := text, tree := tree, ids := ids }, ?_⟩
    simp only [Document.exchange, up, span_e, span_l, exchanged, ok_bind]
    rw [read]
    simp only [put_here, ok_bind]
    rfl
  · have read : ({ d with text := text } : Document).readNode parenthesised value.1 .committed =
      .error (.rejected r) := rejected
    refine ⟨none, { d with text := x.undo text }, ?_⟩
    simp only [Document.exchange, up, span_e, span_l, exchanged, ok_bind]
    rw [read]
    rfl

/-- A child can be asked for a copy whatever is pending. -/
theorem Laid.copyChild (laid : Laid d (Rose.plug fs (.node value (before ++ c :: after))))
    (fits : d.text.currentLength + (c.value.2.span.length + 1) + 1 < positionLimit) :
    ∃ answer d', d.copyChild parenthesised value.1 (handle c) = .ok (answer, d') := by
  obtain ⟨text, tree, copying⟩ := laid.exists_copying (Nat.lt_of_succ_lt fits)
  have at_c : Laid d (Rose.plug (⟨value, before, after⟩ :: fs) c) := laid
  have bound : c.value.2.span.stop ≤ d.text.current.length := by
    rw [length_current]
    exact at_c.hole_inside
  have length : text.currentLength = d.text.currentLength + (c.value.2.span.length + 1) := by
    rw [← length_current, copying.current, copiedText, length_insertedText, List.length_cons,
      length_pieceOf bound, length_current]
  have inside : (value.2.stretched (c.value.2.span.length + 1 : Nat)).span.stop ≤
      text.currentLength := by
    have stop := laid.hole_inside
    have order := value.2.span.start_le_stop
    simp only [Node.stretched, Span.stretched, Rose.value_node] at stop ⊢
    omega
  have holds : Holds ({ d with text := text, tree := tree } : Document).tree _ := copying.holds
  rw [copying.run]
  rcases readNode_answers holds inside (by rwa [length]) with ⟨f, ok⟩ | ⟨r, rejected⟩
  · have read : ({ d with text := text, tree := tree } : Document).readNode parenthesised value.1
      .committed = .ok f := ok
    rw [read]
    obtain ⟨tree', ids, _, _, put, -⟩ := putForm_committed holds f
    have put_here :
        ({ d with text := text, tree := tree } : Document).putForm value.1 f .committed = _ := put
    by_cases count : f.children.length = (before ++ c :: after).length + 1
    · refine ⟨some tree'.root, { d with text := text, tree := tree', ids := ids }, ?_⟩
      simp only [if_pos count]
      rw [put_here]
      rfl
    · exact ⟨none, d, by simp only [if_neg count]⟩
  · have read : ({ d with text := text, tree := tree } : Document).readNode parenthesised value.1
      .committed = .error (.rejected r) := rejected
    rw [read]
    exact ⟨none, d, rfl⟩

theorem Laid.exchangePair (laid : Laid d (Rose.plug fs (.node value (before ++ e :: l :: after))))
    (nested : (Branch.form (Rose.plug fs (.node value (before ++ e :: l :: after)))).Nested)
    (fits : d.text.currentLength + 1 < positionLimit) :
    ∃ answer d', d.exchangePair parenthesised (some (handle e, handle l)) = .ok (answer, d') := by
  obtain ⟨answer, d', ran⟩ := laid.exchange (neighbours_apart nested) fits
  exact ⟨.ok answer, d', by simp only [Document.exchangePair, ran, ok_bind, pure_eq_ok]⟩

theorem siblings_ok {h : Handle} (holds : Holds d.tree b) (live : d.tree.contains h = true) :
    (∃ earlier, d.tree.siblingBefore h = .ok earlier) ∧ ∃ later,
      d.tree.siblingAfter h = .ok later := by
  obtain ⟨fs, c, rfl, rfl⟩ := holds.exists_hole live
  cases fs with
  | nil => exact ⟨⟨_, holds.bears.siblings_root.1⟩, ⟨_, holds.bears.siblings_root.2⟩⟩
  | cons f fs => exact ⟨⟨_, holds.bears.siblingBefore_eq⟩, ⟨_, holds.bears.siblingAfter_eq⟩⟩

theorem Laid.moveEarlier {h : Handle} (laid : Laid d b) (nested : (Branch.form b).Nested)
    (fits : d.text.currentLength + 1 < positionLimit) (live : d.tree.contains h = true) :
    ∃ answer d', d.moveEarlier parenthesised h = .ok (answer, d') := by
  obtain ⟨⟨earlier, found⟩, -⟩ := siblings_ok laid.holds live
  rw [Document.moveEarlier, if_pos live, found, ok_bind]
  cases earlier with
  | none => exact ⟨_, _, rfl⟩
  | some earlier =>
    obtain ⟨fs, value, before, e, l, after, rfl, rfl, rfl⟩ :=
      laid.holds.exists_siblings (.inl found)
    exact laid.exchangePair nested fits

theorem Laid.moveLater {h : Handle} (laid : Laid d b) (nested : (Branch.form b).Nested)
    (fits : d.text.currentLength + 1 < positionLimit) (live : d.tree.contains h = true) :
    ∃ answer d', d.moveLater parenthesised h = .ok (answer, d') := by
  obtain ⟨-, later, found⟩ := siblings_ok laid.holds live
  rw [Document.moveLater, if_pos live, found, ok_bind]
  cases later with
  | none => exact ⟨_, _, rfl⟩
  | some later =>
    obtain ⟨fs, value, before, e, l, after, rfl, rfl, rfl⟩ :=
      laid.holds.exists_siblings (.inr found)
    exact laid.exchangePair nested fits

theorem Laid.duplicate {h : Handle} (laid : Laid d b)
    (fits : d.text.currentLength + (Rearrangement.duplicate h).growth d + 1 < positionLimit)
    (live : d.tree.contains h = true) :
    ∃ answer d', d.duplicate parenthesised h = .ok (answer, d') := by
  obtain ⟨fs, c, rfl, rfl⟩ := laid.holds.exists_hole live
  have parent : d.tree.parent (handle c) = .ok _ := laid.holds.hole.parent_ok
  have span : d.tree.span (handle c) = .ok c.value.2.span := laid.holds.hole.span_eq
  rw [Document.duplicate, if_pos live, parent, ok_bind]
  cases fs with
  | nil => exact ⟨_, _, rfl⟩
  | cons f fs =>
    rw [Rearrangement.growth, span] at fits
    have listed : Laid d (Rose.plug fs (.node f.value (f.before ++ c :: f.after))) := laid
    obtain ⟨answer, d', ran⟩ := listed.copyChild fits
    refine ⟨.ok answer, d', ?_⟩
    simp only [above, ran, ok_bind, pure_eq_ok]

/-- Nodes can be moved and copied whatever is pending. -/
theorem Laid.rearrange (laid : Laid d b) (nested : (Branch.form b).Nested) (r : Rearrangement)
    (fits : d.text.currentLength + r.growth d + 1 < positionLimit) :
    ∃ answer d', r.run d = .ok (answer, d') := by
  have short : d.text.currentLength + 1 < positionLimit := by omega
  have stale {h : Handle} (gone : ¬d.tree.contains h = true) :
      (∃ answer d', d.moveEarlier parenthesised h = .ok (answer, d')) ∧
        (∃ answer d', d.moveLater parenthesised h = .ok (answer, d')) ∧
        ∃ answer d', d.duplicate parenthesised h = .ok (answer, d') :=
    ⟨⟨_, _, if_neg gone⟩, ⟨_, _, if_neg gone⟩, ⟨_, _, if_neg gone⟩⟩
  cases r with
  | moveEarlier h => exact (em _).elim (laid.moveEarlier nested short) fun gone => (stale gone).1
  | moveLater h => exact (em _).elim (laid.moveLater nested short) fun gone => (stale gone).2.1
  | duplicate h => exact (em _).elim (laid.duplicate fits) fun gone => (stale gone).2.2

/-! ## Sessions -/

/-- A stroke that types no semicolon. -/
def Stroke.Plain : Stroke → Prop
  | .insert c _ => c ≠ ';'
  | .delete _ => True

instance : DecidablePred Stroke.Plain
  | .insert c _ => inferInstanceAs (Decidable (c ≠ ';'))
  | .delete _ => inferInstanceAs (Decidable True)

/-- Nothing is pending, or nothing is pending under the parent of the node, whose text reads as
it. -/
def Rearrangement.Calm (d : Document) (r : Rearrangement) : Prop :=
  d.isSettled = true ∨ ∃ parent, d.tree.parent r.node = .ok (some parent) ∧ d.SettledAt parent

/-- The documents of a session without semicolons, in which no node is moved or copied under a
parent with pending changes. All positions can be numbered at any time. -/
inductive Session : Document → Prop
  | start {text : String} {ids : IdSource} {d : Document} (plain : ';' ∉ text.toList)
      (short : text.toList.length < positionLimit) (read : ofText parenthesised text ids = .ok d) :
      Session d
  | stroke {d d' : Document} {s : Stroke} {answer : Except Refusal Outcome} (session : Session d)
      (plain : s.Plain) (short : d.text.currentLength + 2 < positionLimit)
      (ran : s.run d = .ok (answer, d')) : Session d'
  | rearrange {d d' : Document} {r : Rearrangement} {answer : Except Refusal (Option Handle)}
      (session : Session d) (fits : r.Fits d) (ran : r.run d = .ok (answer, d'))
      (calm : r.Calm d ∨ Declined answer) : Session d'

/-- What holds all through a session. -/
structure Orderly (d : Document) : Prop where
  sound : Sound d
  plain : ';' ∉ d.text.current
  short : d.text.currentLength < positionLimit

namespace Orderly

theorem of_resting (resting : Resting d b) (narrow : d.widened = false)
    (plain : ';' ∉ d.text.current) (short : d.text.currentLength < positionLimit) : Orderly d :=
  ⟨sound_of_reads resting.holds resting.kept ((parses_iff_reads plain).mp resting.parses) narrow,
    plain, short⟩

theorem resting (orderly : Orderly d) (settled : d.isSettled = true) : ∃ b, Resting d b := by
  obtain ⟨b, la, w, ra, tracked⟩ := orderly.sound.tracked
  have reads := tracked.reads settled (orderly.sound.narrow settled)
  exact ⟨b, tracked.holds, status_of_settled settled, (parses_iff_reads orderly.plain).mpr reads⟩

theorem start {text : String} {ids : IdSource} (plain : ';' ∉ text.toList)
    (short : text.toList.length < positionLimit) (read : ofText parenthesised text ids = .ok d) :
    Orderly d := by
  rw [← String.ofList_toList (s := text), ofText_eq] at read
  obtain ⟨f, whole, ran⟩ := bind_eq_ok.mp read
  obtain ⟨b, holds, form⟩ := ofForm_holds f ids
  cases ran
  have current := current_ofText text.toList
  have parses : Parses 0 text.toList f := (readWhole_eq_ok (by omega)).mp whole
  refine of_resting (b := b) ⟨holds, kept_ofText _, ?_⟩ rfl ?_ ?_
  · rwa [current, form]
  · rwa [current]
  · rwa [← length_current, current]

/-- A stroke returns whatever is pending, and at most the one character comes into the text. -/
theorem exists_stroke (orderly : Orderly d) {s : Stroke} (plain : s.Plain)
    (short : d.text.currentLength + 2 < positionLimit) :
    ∃ answer d', s.run d = .ok (answer, d') ∧ Orderly d' ∧
      d'.text.currentLength ≤ d.text.currentLength + 1 := by
  obtain ⟨b, la, w, ra, tracked⟩ := orderly.sound.tracked
  cases s with
  | insert c position =>
    by_cases inside : position ≤ d.text.currentLength
    · obtain ⟨outcome, d', ran, current, sound⟩ := tracked.insert plain inside orderly.plain short
      have length : d'.text.currentLength = d.text.currentLength + 1 := by
        rw [← length_current, current, length_typedText, length_current]
      refine ⟨_, d', ran, ⟨sound, ?_, by omega⟩, Nat.le_of_eq length⟩
      rw [current]
      exact not_mem_typedText orderly.plain plain
    · exact ⟨_, d, if_pos (by omega), orderly, Nat.le_succ _⟩
  | delete position =>
    by_cases inside : position < d.text.currentLength
    · obtain ⟨outcome, d', ran, current, sound⟩ := tracked.delete inside orderly.plain short
      have length : d'.text.currentLength ≤ d.text.currentLength := by
        rw [← length_current, current, ← length_current]
        exact List.length_eraseIdx_le _ position
      refine ⟨_, d', ran, ⟨sound, ?_, by omega⟩, Nat.le_succ_of_le length⟩
      rw [current]
      exact fun typed => orderly.plain (List.mem_of_mem_eraseIdx typed)
    · exact ⟨_, d, if_pos (by omega), orderly, Nat.le_succ _⟩

/-- A rearrangement that is declined changes nothing. -/
theorem declined {r : Rearrangement} {answer : Except Refusal (Option Handle)} (orderly : Orderly d)
    (ran : r.run d = .ok (answer, d')) (declined : Declined answer) : d' = d := by
  obtain ⟨b, la, w, ra, tracked⟩ := orderly.sound.tracked
  have inside := tracked.laid.childrenInside
  cases r with
  | moveEarlier h => exact moveEarlier_declined inside ran declined
  | moveLater h => exact moveLater_declined inside ran declined
  | duplicate h => exact duplicate_declined ran declined

/-- A node is moved or copied in a document without pending changes. -/
theorem rearrange_settled {r : Rearrangement} {answer : Except Refusal (Option Handle)}
    (orderly : Orderly d) (fits : r.Fits d) (ran : r.run d = .ok (answer, d'))
    (settled : d.isSettled = true) : Orderly d' := by
  obtain ⟨b, resting⟩ := orderly.resting settled
  obtain ⟨_, _, ran', rearranged⟩ := resting.rearrange r fits
  rw [ran] at ran'
  cases ran'
  obtain ⟨b', resting'⟩ := rearranged.resting
  refine of_resting resting' ?_ ?_ (Nat.lt_of_le_of_lt rearranged.length fits)
  · rw [rearranged.widened, orderly.sound.narrow settled]
  · intro typed
    rcases rearranged.chars _ typed with old | blank
    · exact orderly.plain old
    · exact absurd blank (by decide)

/-- A node is moved or copied under a settled one. -/
theorem rearrange_under {r : Rearrangement} {parent root : Handle} (orderly : Orderly d)
    (fits : r.Fits d) (up : d.tree.parent r.node = .ok (some parent)) (settled : d.SettledAt parent)
    (ran : r.run d = .ok (.ok (some root), d')) : Orderly d' := by
  obtain ⟨b, la, w, ra, tracked⟩ := orderly.sound.tracked
  obtain ⟨fs, p, before, mid, behind, mid', fs', c, rfl, -, trade⟩ :=
    tracked.laid.exists_trade tracked.nested orderly.plain fits up settled ran
  obtain ⟨w', tracked'⟩ := tracked.trade trade
  refine ⟨⟨⟨_, _, w', _, tracked'⟩, ?_⟩, ?_, by rwa [trade.length]⟩
  · intro none_pending
    rw [trade.widened]
    apply orderly.sound.narrow
    exact isSettled_iff.mpr fun x mem => isSettled_iff.mp none_pending x (trade.stays x mem)
  · intro typed
    obtain ⟨x, mem, semicolon⟩ := List.mem_map.mp typed
    obtain ⟨mem, current⟩ := List.mem_filter.mp mem
    rcases trade.comes x mem with old | rfl
    · exact orderly.plain (List.mem_map.mpr ⟨x, List.mem_filter.mpr ⟨old, current⟩, semicolon⟩)
    · exact absurd semicolon (by decide)

/-- Nodes are moved and copied. -/
theorem rearrange {r : Rearrangement} {answer : Except Refusal (Option Handle)}
    (orderly : Orderly d) (fits : r.Fits d) (ran : r.run d = .ok (answer, d'))
    (calm : r.Calm d ∨ Declined answer) : Orderly d' := by
  rcases calm with (settled | ⟨parent, up, settled⟩) | declined
  · exact orderly.rearrange_settled fits ran settled
  · match answer, ran with
    | .ok (some root), ran => exact orderly.rearrange_under fits up settled ran
    | .ok none, ran => rwa [orderly.declined ran trivial]
    | .error refusal, ran => rwa [orderly.declined ran trivial]
  · rwa [orderly.declined ran declined]

end Orderly

theorem Session.orderly (session : Session d) : Orderly d := by
  induction session with
  | start plain short read => exact .start plain short read
  | stroke _ plain short ran ih =>
    obtain ⟨_, _, ran', orderly, -⟩ := ih.exists_stroke plain short
    rw [ran] at ran'
    cases ran'
    exact orderly
  | rearrange _ fits ran calm ih => exact ih.rearrange fits ran calm

/-- In a session without semicolons, in which nothing is moved or copied under a node with pending
changes, the tree is in step with the text whenever nothing is pending. -/
theorem settled_session_is_in_step {d : Document} (session : Session d)
    (settled : d.isSettled = true) : d.InStep := by
  obtain ⟨b, resting⟩ := session.orderly.resting settled
  exact (resting.in_step session.orderly.short).2.2

/-- The text `(a b)` of which the last character was deleted, with its tree. -/
def openPair : Document where
  text := ⟨[⟨'(', .kept⟩, ⟨'a', .kept⟩, ⟨' ', .kept⟩, ⟨'b', .kept⟩, ⟨')', .deleted⟩]⟩
  tree := (Tree.ofForm (.node ⟨.list, Span.sized 0 4⟩ [.leaf ⟨.atom "a", Span.sized 1 1⟩,
    .leaf ⟨.atom "b", Span.sized 3 1⟩]) .fromOne).1
  ids := .counting 4
  widened := false

/-- The pair before its last character was deleted. -/
def pair : Document :=
  { openPair with
    text := .ofText "(a b)"
    tree := (Tree.ofForm (.node ⟨.list, Span.sized 0 5⟩ [.leaf ⟨.atom "a", Span.sized 1 1⟩,
      .leaf ⟨.atom "b", Span.sized 3 1⟩]) .fromOne).1 }

theorem pair_session : Session pair :=
  @Session.start "(a b)" .fromOne pair (by decide) (by decide) (by decide +kernel)

theorem pair_opens : (Stroke.delete 4).run pair = .ok (.ok (.pending openPair.root), openPair) := by
  decide +kernel

theorem openPair_session : Session openPair :=
  pair_session.stroke (s := .delete 4) trivial (by decide) pair_opens

/-- As soon as its end is typed again the pair is in step. -/
theorem openPair_closes_in_step : Session openPair ∧ openPair.isSettled = false ∧ ∃ answer d',
    (Stroke.insert ')' 4).run openPair = .ok (answer, d') ∧ d'.isSettled = true ∧ d'.InStep := by
  have typed : ((Stroke.insert ')' 4).run openPair).map (fun edited => edited.2.isSettled) =
      .ok true := by decide +kernel
  obtain ⟨⟨answer, d'⟩, ran, settled⟩ := map_eq_ok.mp typed
  have session : Session d' := .stroke openPair_session (by decide) (by decide) ran
  exact ⟨openPair_session, by decide, answer, d', ran, settled,
    settled_session_is_in_step session settled⟩

/-- The text `((a b) c)` of which the last character was deleted, with its tree. -/
def openNest : Document where
  text := ⟨[⟨'(', .kept⟩, ⟨'(', .kept⟩, ⟨'a', .kept⟩, ⟨' ', .kept⟩, ⟨'b', .kept⟩, ⟨')', .kept⟩,
    ⟨' ', .kept⟩, ⟨'c', .kept⟩, ⟨')', .deleted⟩]⟩
  tree := (Tree.ofForm (.node ⟨.list, Span.sized 0 8⟩ [.node ⟨.list, Span.sized 1 5⟩
    [.leaf ⟨.atom "a", Span.sized 2 1⟩, .leaf ⟨.atom "b", Span.sized 4 1⟩],
    .leaf ⟨.atom "c", Span.sized 7 1⟩]) .fromOne).1
  ids := .counting 6
  widened := false

/-- The two lists before the last character was deleted. -/
def nest : Document :=
  { openNest with
    text := .ofText "((a b) c)"
    tree := (Tree.ofForm (.node ⟨.list, Span.sized 0 9⟩ [.node ⟨.list, Span.sized 1 5⟩
      [.leaf ⟨.atom "a", Span.sized 2 1⟩, .leaf ⟨.atom "b", Span.sized 4 1⟩],
      .leaf ⟨.atom "c", Span.sized 7 1⟩]) .fromOne).1 }

theorem openNest_session : Session openNest := by
  have session : Session nest :=
    @Session.start "((a b) c)" .fromOne nest (by decide) (by decide) (by decide +kernel)
  have ran : (Stroke.delete 8).run nest = .ok (.ok (.pending openNest.root), openNest) := by
    decide +kernel
  exact session.stroke (s := .delete 8) trivial (by decide) ran

/-- Although the outer list has lost its end, the children of the inner one can trade places. -/
theorem openNest_moves : openNest.isSettled = false ∧ ∃ root d',
    (Rearrangement.moveLater ⟨2, 0⟩).run openNest = .ok (.ok (some root), d') ∧ Session d' := by
  have moved : ((Rearrangement.moveLater ⟨2, 0⟩).run openNest).map Prod.fst =
      .ok (.ok (some ⟨0, 0⟩)) := by decide +kernel
  obtain ⟨⟨answer, d'⟩, ran, rfl⟩ := map_eq_ok.mp moved
  have inner : openNest.SettledAt ⟨1, 0⟩ := by
    refine ⟨Span.sized 1 5, .node ⟨.list, Span.sized 1 5⟩ [.leaf ⟨.atom "a", Span.sized 2 1⟩,
      .leaf ⟨.atom "b", Span.sized 4 1⟩], rfl, ?_, ?_, ?_⟩
    · unfold AllKept
      decide
    · decide +kernel
    · decide +kernel
  have calm : (Rearrangement.moveLater ⟨2, 0⟩).Calm openNest := .inr ⟨⟨1, 0⟩, rfl, inner⟩
  have fits : (Rearrangement.moveLater ⟨2, 0⟩).Fits openNest := by
    unfold Rearrangement.Fits
    decide
  exact ⟨by decide, _, d', ran, .rearrange openNest_session fits ran (.inl calm)⟩

/-- The document of a text after some edits. -/
def edited (text : String) (edits : List Edit) : Except Failure Document := do
  let d ← ofText parenthesised text .fromOne
  edits.foldlM (fun d edit => do
    let (_, d) ← (edit.run parenthesised d).mapError .fault
    pure d) d

theorem not_inStep {f g : Form} (fresh : freshForm d.text.current = .ok f)
    (form : d.tree.form d.root = .ok g) (differ : f ≠ g) : ¬d.InStep := by
  rintro ⟨f', fresh', form'⟩
  rw [fresh] at fresh'
  rw [form] at form'
  cases fresh'
  cases form'
  exact differ rfl

/-- An atom that comes to stand before a comment takes it in; read on its own it does not. -/
theorem comment_taken_in_unnoticed : ∃ d, edited "a ;" [.delete 1] = .ok d ∧
    d.isSettled = true ∧ ¬d.InStep := by
  have ran : (edited "a ;" [.delete 1]).map
      (fun d => (d.isSettled, freshForm d.text.current, d.tree.form d.root)) =
      .ok (true, .ok (.leaf ⟨.atom "a;", Span.sized 0 2⟩),
        .ok (.leaf ⟨.atom "a", Span.sized 0 1⟩)) := by
    decide +kernel
  obtain ⟨d, ran, seen⟩ := map_eq_ok.mp ran
  simp only [Prod.mk.injEq] at seen
  obtain ⟨settled, fresh, form⟩ := seen
  exact ⟨d, ran, settled, not_inStep fresh form (by decide)⟩

/-- In a session without semicolons, in which nothing is moved or copied under a node with pending
changes, every child lies inside of its parent, siblings stand one behind the other and the root
lies inside of the text, whatever is pending. -/
theorem session_keeps_spans_nested {d : Document} (session : Session d) :
    ∃ f, d.tree.form d.root = .ok f ∧ f.Nested ∧ f.span.stop ≤ d.text.currentLength := by
  obtain ⟨b, la, w, ra, tracked⟩ := session.orderly.sound.tracked
  have inside : (Branch.form b).span.stop ≤ d.text.currentLength := by
    rw [span_form]
    exact tracked.inside
  exact ⟨Branch.form b, tracked.holds.form, tracked.nested, inside⟩

theorem openPair_is_nested : Session openPair ∧
    ∃ f, openPair.tree.form openPair.root = .ok f ∧ f.Nested ∧
      f.span.stop ≤ openPair.text.currentLength :=
  ⟨openPair_session, session_keeps_spans_nested openPair_session⟩

/-- A list that has lost its end reaches past the quote before it once two of its children are
exchanged, since the deleted character is given a position of its own. -/
theorem quoted_list_reaches_out : ∃ d f,
    edited "(\x27(a b c) d)" [.delete 1, .delete 7, .up [0, 1]] = .ok d ∧
    d.tree.form d.root = .ok f ∧ ¬f.Nested := by
  have ran : (edited "(\x27(a b c) d)" [.delete 1, .delete 7, .up [0, 1]]).map
      (fun d => d.tree.form d.root) = .ok (.ok (.node ⟨.list, Span.sized 0 10⟩
        [.node ⟨.quote, Span.sized 1 6⟩
          [.node ⟨.list, Span.sized 1 7⟩ [.leaf ⟨.atom "b", Span.sized 2 1⟩,
            .leaf ⟨.atom "a", Span.sized 4 1⟩, .leaf ⟨.atom "c", Span.sized 6 1⟩]],
        .leaf ⟨.atom "d", Span.sized 8 1⟩])) := by decide +kernel
  obtain ⟨d, ran, form⟩ := map_eq_ok.mp ran
  refine ⟨d, _, ran, form, ?_⟩
  rintro ⟨-, -, each⟩
  obtain ⟨inside, -, -⟩ := each _ (List.mem_cons_self ..)
  exact absurd (inside _ (List.mem_cons_self ..)).2 (by decide)

/-- In a session without semicolons, in which nothing is moved or copied under a node with pending
changes, no edit ends in a fault: every character typed or deleted at any position, and every node
moved or copied by any handle, live or stale, whatever is pending. As long as the conditions hold,
the session goes on. -/
theorem session_edits_return {d : Document} (session : Session d)
    (short : d.text.cells.length < 2 ^ 31) :
    (∀ s : Stroke, s.Plain → ∃ answer d', s.run d = .ok (answer, d') ∧ Session d') ∧
    ∀ r : Rearrangement, d.text.cells.length + r.growth d < 2 ^ 31 →
      ∃ answer d', r.run d = .ok (answer, d') ∧
        (r.Calm d ∨ Declined answer → Session d') := by
  have limit : positionLimit = 2 ^ 32 := rfl
  have length : d.text.currentLength ≤ d.text.cells.length := List.countP_le_length
  have orderly := session.orderly
  constructor
  · intro s plain
    have room : d.text.currentLength + 2 < positionLimit := by omega
    obtain ⟨answer, d', ran, -⟩ := orderly.exists_stroke plain room
    exact ⟨answer, d', ran, .stroke session plain room ran⟩
  · intro r fits
    obtain ⟨b, la, w, ra, tracked⟩ := orderly.sound.tracked
    have room : d.text.currentLength + r.growth d + 1 < positionLimit := by omega
    obtain ⟨answer, d', ran⟩ := tracked.laid.rearrange tracked.nested r room
    exact ⟨answer, d', ran, .rearrange session (Nat.lt_of_succ_lt room) ran⟩

/-- The children of the pair that has lost its end can be asked to trade places. -/
theorem openPair_edits_return : Session openPair ∧ openPair.text.cells.length < 2 ^ 31 ∧
    (∃ answer d', (Stroke.insert ')' 4).run openPair = .ok (answer, d')) ∧
    ∃ answer d', (Rearrangement.moveEarlier ⟨2, 0⟩).run openPair = .ok (answer, d') := by
  have edits := session_edits_return openPair_session (by decide)
  obtain ⟨answer, d', ran, -⟩ := edits.1 (.insert ')' 4) (by decide)
  obtain ⟨answer', d'', ran', -⟩ := edits.2 (.moveEarlier ⟨2, 0⟩) (by decide)
  exact ⟨openPair_session, by decide, ⟨answer, d', ran⟩, answer', d'', ran'⟩

/-- Beside a comment two siblings come to overlap, and to exchange them is a fault. -/
theorem siblings_overlap_beside_comment :
    edited ";\n((a) b)" [.delete 1, .insert 0 'x', .delete 0, .insert 3 '\n', .delete 3, .delete 2,
      .up [1]] = .error (.fault .overlap) := by
  decide +kernel

end FormEdit.Document
