import FormEdit.Proofs.Document.Recalling

/-!
# The tree while an edit is pending

An edit that is left pending changes the current text and not the tree, so the tree goes on showing
the committed text. Nodes that can be read on their own are committed one by one meanwhile. A
character that is deleted at the edge of such a node is not committed with it, since it may belong
to a neighbour; from then on the committed text has a character that the tree has not. A node that
is moved or copied under a parent with pending changes can take in characters of what surrounds the
parent. As long as neither happens (`Firm`), the committed text of the root reads as the tree
whenever an edit is left pending (`pending_tree_shows_committed_text`).
-/

namespace FormEdit.Document

open Rose Buffer Branch Weave FormEdit.Language FormEdit.Tree

variable {d d' d'' : Document} {b n : Branch} {fs : List (Rose.Frame (Handle × Node))}
  {la ra : List Cell}
  {w : Weave} {s : Stroke} {answer : Except Refusal Outcome}

/-- The node that takes in a stroke has, after the stroke, the first and the last of its committed
characters still. -/
def Stroke.KeepsEdges (s : Stroke) (d d' : Document) (node : Handle) : Prop :=
  ∃ text route, s.change d.text = .ok text ∧ d'.tree.route node = .ok route ∧
    Document.KeepsEdges (saved text.cells) route

/-- The node is moved or copied under a settled one that has the first and the last of its committed
characters still. -/
def Rearrangement.KeepsEdges (d : Document) (r : Rearrangement) : Prop :=
  ∃ parent route, d.tree.parent r.node = .ok (some parent) ∧ d.SettledAt parent ∧
    d.tree.route parent = .ok route ∧ Document.KeepsEdges (saved d.text.cells) route

/-- The documents of a session without semicolons, in which no node is moved or copied under a
parent with pending changes, and every node that is read again while others stay pending keeps its
edges. -/
inductive Firm : Document → Prop
  | settled {d : Document} (session : Session d) (settled : d.isSettled = true) : Firm d
  | stroke {d d' : Document} {s : Stroke} {answer : Except Refusal Outcome} (firm : Firm d)
      (plain : s.Plain) (short : d.text.currentLength + 2 < positionLimit)
      (ran : s.run d = .ok (answer, d'))
      (keeps : ∀ root node, answer = .ok (.reparsed root node) → d'.isSettled = false →
        s.KeepsEdges d d' node) : Firm d'
  | rearrange {d d' : Document} {r : Rearrangement} {answer : Except Refusal (Option Handle)}
      (firm : Firm d) (fits : r.Fits d) (ran : r.run d = .ok (answer, d'))
      (keeps : r.KeepsEdges d ∨ Declined answer) : Firm d'

theorem Firm.session (firm : Firm d) : Session d := by
  induction firm with
  | settled session _ => exact session
  | stroke _ plain short ran _ ih => exact .stroke ih plain short ran
  | rearrange _ fits ran keeps ih =>
    apply Session.rearrange ih fits ran
    rcases keeps with ⟨parent, route, up, settled, -⟩ | declined
    · exact .inl (.inr ⟨parent, up, settled⟩)
    · exact .inr declined

theorem recalls_of_settled (session : Session d) (settled : d.isSettled = true) :
    ∃ b la w ra, Recalls d b la w ra := by
  have orderly := session.orderly
  obtain ⟨b, resting⟩ := orderly.resting settled
  have reads := (parses_iff_reads orderly.plain).mp resting.parses
  exact ⟨b, Recalls.of_reads resting.holds resting.kept reads (orderly.sound.narrow settled)
    orderly.plain⟩

/-- What a node that is read again does to a document that recalls its committed text. -/
theorem Left.cases (left : Left s d d' n) (recalls : Recalls d' (Rose.plug fs n) la w ra)
    (short : d.text.currentLength + 2 < positionLimit) (ran : s.run d = .ok (answer, d''))
    (keeps : ∀ root node, answer = .ok (.reparsed root node) → d''.isSettled = false →
      s.KeepsEdges d d'' node) :
    d''.isSettled = true ∨ ∃ b la w ra, Recalls d'' b la w ra := by
  have length := left.short
  rw [left.run] at ran
  obtain ⟨⟨outcome, d₃⟩, reread, ran⟩ := bind_eq_ok.mp ran
  cases ran
  rcases recalls.reread (by omega) reread with
    ⟨rfl, rfl⟩ | ⟨root, node, rfl, settled | ⟨route, at_route, recalled⟩⟩
  · exact .inr ⟨_, _, _, _, recalls⟩
  · exact .inl settled
  · cases settled : d''.isSettled with
    | true => exact .inl rfl
    | false =>
      obtain ⟨text, route', changed, at_route', kept⟩ := keeps root node rfl settled
      obtain ⟨text', changed', saved_eq⟩ := left.changed
      rw [changed] at changed'
      rw [at_route] at at_route'
      cases changed'
      cases at_route'
      rw [saved_eq] at recalled
      exact .inr (recalled kept)

/-- A stroke settles a document or leaves it recalling its committed text. -/
theorem Recalls.stroke (recalls : Recalls d b la w ra) (plain : s.Plain)
    (short : d.text.currentLength + 2 < positionLimit) (ran : s.run d = .ok (answer, d'))
    (keeps : ∀ root node, answer = .ok (.reparsed root node) → d'.isSettled = false →
      s.KeepsEdges d d' node) :
    d'.isSettled = true ∨ ∃ b la w ra, Recalls d' b la w ra := by
  cases s with
  | insert c position =>
    by_cases inside : position ≤ d.text.currentLength
    · obtain ⟨_, _, _, _, _, _, recalls', left⟩ := recalls.insert plain inside (by omega)
      exact left.cases recalls' short ran keeps
    · cases (show _ = _ from if_pos (Nat.not_le.mp inside)).symm.trans ran
      exact .inr ⟨_, _, _, _, recalls⟩
  | delete position =>
    by_cases inside : position < d.text.currentLength
    · obtain ⟨_, _, _, _, _, _, recalls', left⟩ := recalls.delete inside (by omega)
      exact left.cases recalls' short ran keeps
    · cases (show _ = _ from if_pos (Nat.not_lt.mp inside)).symm.trans ran
      exact .inr ⟨_, _, _, _, recalls⟩

/-- A node that is moved or copied settles a document or leaves it recalling its committed text. -/
theorem Recalls.rearrange {r : Rearrangement} {root : Handle} (recalls : Recalls d b la w ra)
    (fits : r.Fits d) (keeps : r.KeepsEdges d) (ran : r.run d = .ok (.ok (some root), d')) :
    d'.isSettled = true ∨ ∃ b la w ra, Recalls d' b la w ra := by
  obtain ⟨parent, route, up, settled, at_route, keeps⟩ := keeps
  obtain ⟨fs, p, before, mid, behind, mid', fs', c, rfl, rfl, trade⟩ :=
    recalls.laid.exists_trade recalls.nested recalls.plain_current fits up settled ran
  cases fs with
  | nil =>
    have kept := isSettled_iff.mp (recalls.settled_of_root trade.steady)
    refine .inl (isSettled_iff.mpr fun x mem => ?_)
    rcases trade.comes x mem with old | rfl
    · exact kept x old
    · rfl
  | cons o fs =>
    cases recalls.holds.bears.route.symm.trans at_route
    obtain ⟨w', recalls'⟩ := recalls.trade trade keeps
    exact .inr ⟨_, _, w', _, recalls'⟩

theorem Firm.recalls (firm : Firm d) : ∃ b la w ra, Recalls d b la w ra := by
  induction firm with
  | settled session settled => exact recalls_of_settled session settled
  | @stroke d d' s answer firm plain short ran keeps ih =>
    obtain ⟨b, la, w, ra, recalls⟩ := ih
    rcases recalls.stroke plain short ran keeps with settled | recalled
    · exact recalls_of_settled (.stroke firm.session plain short ran) settled
    · exact recalled
  | @rearrange d d' r answer firm fits ran keeps ih =>
    have session : Session d' := (Firm.rearrange firm fits ran keeps).session
    rcases keeps with keeps | declined
    · match answer, ran with
      | .ok (some root), ran =>
        obtain ⟨b, la, w, ra, recalls⟩ := ih
        rcases recalls.rearrange fits keeps ran with settled | recalled
        · exact recalls_of_settled session settled
        · exact recalled
      | .ok none, ran => rwa [firm.session.orderly.declined ran trivial]
      | .error refusal, ran => rwa [firm.session.orderly.declined ran trivial]
    · rwa [firm.session.orderly.declined ran declined]

/-- When a stroke is left pending, the committed text of the root reads as a form with the kinds,
the contents and the children that the tree has, as long as all nodes that were read again kept
their edges. -/
theorem pending_tree_shows_committed_text {root : Handle} (firm : Firm d) (plain : s.Plain)
    (short : d.text.currentLength + 2 < positionLimit)
    (pending : s.run d = .ok (.ok (.pending root), d')) : d'.ShowsCommitted := by
  have firm' : Firm d' := .stroke firm plain short pending nofun
  obtain ⟨b, la, w, ra, recalls⟩ := firm'.recalls
  obtain ⟨_, _, ran, -, length⟩ := firm.session.orderly.exists_stroke plain short
  rw [pending] at ran
  cases ran
  exact recalls.showsCommitted (by omega)

theorem openPair_firm : Firm openPair :=
  (Firm.settled pair_session (by decide)).stroke (s := .delete 4) trivial (by decide)
    pair_opens nofun

/-- An atom of the pair that has lost its end grows and is committed. Then the pair loses its
start. -/
theorem openPair_shows_committed_text : ∃ d root d', Firm d ∧
    (∃ node, (Stroke.insert 'x' 1).run openPair = .ok (.ok (.reparsed root node), d)) ∧
    (Stroke.delete 0).run d = .ok (.ok (.pending root), d') ∧ d'.ShowsCommitted := by
  have typed : ((Stroke.insert 'x' 1).run openPair >>= fun grown => do
      let route ← grown.2.tree.route ⟨3, 0⟩
      let opened ← (Stroke.delete 0).run grown.2
      pure (grown.1, route, grown.2.text.currentLength, opened.1)) =
      .ok (.ok (.reparsed ⟨0, 0⟩ ⟨3, 0⟩), [0], 5, .ok (.pending ⟨0, 0⟩)) := by decide +kernel
  obtain ⟨⟨answer, d⟩, ran, typed⟩ := bind_eq_ok.mp typed
  obtain ⟨route, at_route, typed⟩ := bind_eq_ok.mp typed
  obtain ⟨⟨answer', d'⟩, ran', typed⟩ := bind_eq_ok.mp typed
  simp only [pure_eq_ok, Except.ok.injEq, Prod.mk.injEq] at typed
  obtain ⟨rfl, rfl, length, rfl⟩ := typed
  have firm : Firm d := openPair_firm.stroke (s := .insert 'x' 1) (by decide) (by decide) ran (by
    rintro _ _ ⟨⟩ -
    refine ⟨⟨⟨'(', .kept⟩ :: ⟨'x', .inserted⟩ :: openPair.text.cells.tail⟩, [0], rfl, at_route,
      .node ⟨.list, Span.sized 0 5⟩ [.leaf ⟨.atom "a", Span.sized 1 1⟩,
        .leaf ⟨.atom "b", Span.sized 3 1⟩],
      .leaf ⟨.atom "a", Span.sized 1 1⟩, ⟨'a', .kept⟩, ⟨'a', .kept⟩, ?_, rfl, rfl, rfl, rfl, rfl⟩
    exact (readWhole_eq_ok (by decide)).mp (by decide +kernel))
  exact ⟨d, _, d', firm, ⟨_, ran⟩, ran',
    pending_tree_shows_committed_text firm (s := .delete 0) trivial (by rw [length]; decide) ran'⟩

/-- The answer of a stroke after some edits, the shape of the tree and that of the committed
text. -/
def shapesAfter (text : String) (edits : List Edit) (s : Stroke) :
    Except Failure (Except Refusal Outcome × Rose Kind × Option (Rose Kind)) := do
  let d ← edited text edits
  let (answer, d') ← (s.run d).mapError .fault
  let f ← (d'.tree.form d'.root).mapError .fault
  pure (answer, f.shape, (d'.readNode parenthesised d'.root .committed).toOption.map Form.shape)

theorem exists_stray {text : String} {edits : List Edit} {root : Handle} {shape : Rose Kind}
    {other : Option (Rose Kind)}
    (seen : shapesAfter text edits s = .ok (.ok (.pending root), shape, other))
    (differ : other ≠ some shape) :
    ∃ d d', edited text edits = .ok d ∧ s.run d = .ok (.ok (.pending root), d') ∧
      ¬d'.ShowsCommitted := by
  obtain ⟨d, made, seen⟩ := bind_eq_ok.mp seen
  obtain ⟨⟨answer, d'⟩, ran, seen⟩ := bind_eq_ok.mp seen
  obtain ⟨f, form, seen⟩ := bind_eq_ok.mp seen
  cases seen
  refine ⟨d, d', made, mapError_eq_ok.mp ran, ?_⟩
  rintro ⟨f', g, form', read, same⟩
  rw [mapError_eq_ok.mp form] at form'
  cases form'
  exact differ (by rw [read, ← same]; rfl)

/-- The tree shows another text than the committed one if a character was deleted at the edge of a
node that was read again, if the root has come to take in the end of a comment, or if children of a
node were exchanged behind a quote that was deleted. -/
theorem pending_tree_strays :
    (∃ root d d', edited "(ab c)" [.delete 2] = .ok d ∧
      (Stroke.delete 0).run d = .ok (.ok (.pending root), d') ∧ ¬d'.ShowsCommitted) ∧
    (∃ root d d', edited ";a\n(c)" [] = .ok d ∧
      (Stroke.insert 'a' 1).run d = .ok (.ok (.pending root), d') ∧ ¬d'.ShowsCommitted) ∧
    ∃ root d d', edited "(\x27(a b d) c)" [.delete 8, .delete 1, .up [0, 0, 1]] = .ok d ∧
      (Stroke.insert '(' 9).run d = .ok (.ok (.pending root), d') ∧ ¬d'.ShowsCommitted := by
  have edge : shapesAfter "(ab c)" [.delete 2] (.delete 0) = .ok (.ok (.pending ⟨0, 0⟩),
      .node .list [.leaf (.atom "a"), .leaf (.atom "c")],
      some (.node .list [.leaf (.atom "ab"), .leaf (.atom "c")])) := by decide +kernel
  have comment : shapesAfter ";a\n(c)" [] (.insert 'a' 1) = .ok (.ok (.pending ⟨0, 0⟩),
      .node .list [.leaf (.atom "c")], none) := by decide +kernel
  have exchanged :
      shapesAfter "(\x27(a b d) c)" [.delete 8, .delete 1, .up [0, 0, 1]] (.insert '(' 9) =
        .ok (.ok (.pending ⟨0, 0⟩),
          .node .list [
            .node .quote [.node .quote [
              .node .list [.leaf (.atom "b"), .leaf (.atom "a"), .leaf (.atom "d")]]],
            .leaf (.atom "c")],
          some (.node .list [
            .node .quote [
              .node .list [.leaf (.atom "b"), .leaf (.atom "a"), .leaf (.atom "d")]],
            .leaf (.atom "c")])) := by decide +kernel
  exact ⟨⟨_, exists_stray edge (by decide)⟩, ⟨_, exists_stray comment (by decide)⟩, _,
    exists_stray exchanged (by decide)⟩

end FormEdit.Document
