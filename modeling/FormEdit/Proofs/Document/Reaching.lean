import FormEdit.Proofs.Buffer.Committed
import FormEdit.Proofs.Document.Incremental
import FormEdit.Proofs.Weave.Nesting

/-!
# How far the root reaches

Before anything is read again, a stroke changes the text and has the tree make room for it. Whatever
the text reads as, comments and all, the tree keeps its shape, stays nested, and its root reaches
over the stroke (`Stroke.run_eq`); and a stroke that is left pending does no more than that
(`Stroke.pending_eq`).
-/

namespace FormEdit.Document

open Rose Buffer Branch Weave FormEdit.Language FormEdit.Tree

variable {d : Document} {b : Branch} {fs : List (Rose.Frame (Handle × Node))} {position count : Nat}

namespace Stroke

/-- Where the stroke falls. -/
def place : Stroke → Nat
  | .insert _ position => position
  | .delete position => position

/-- The number of characters that the stroke takes away. -/
def taken : Stroke → Nat
  | .insert _ _ => 0
  | .delete _ => 1

/-- The number of characters that the stroke adds. -/
def added : Stroke → Nat
  | .insert _ _ => 1
  | .delete _ => 0

/-- The stroke falls inside of the text. -/
def Within (text : List Char) (s : Stroke) : Prop := s.place + s.taken ≤ text.length

/-- The span that a root comes to have when it takes in a stroke. -/
def reach (root : Span) (s : Stroke) : Span :=
  (root.cover (Span.sized s.place s.taken)).stretched (s.added - s.taken)

theorem reach_eq {s : Stroke} {start length start' length' : Nat}
    (start_eq : start' = min start s.place)
    (stop_eq : start' + length' + s.taken = max (start + length) (s.place + s.taken) + s.added) :
    s.reach (Span.sized start length) = Span.sized start' length' := by
  ext <;> simp only [reach, Span.stretched, Span.cover, Span.sized] <;> omega

end Stroke

/-- The node that a change belongs to, found in the weave of a nested tree. -/
theorem exists_site (holds : Holds d.tree b) (nested : (Branch.form b).Nested)
    (inside : b.value.2.span.stop ≤ d.text.currentLength) (single : count ≤ 1)
    (enough : position + count ≤ d.text.currentLength) :
    ∃ d₁ before w fs n gs kind parts, d.nodeAround position count = .ok (handle n, d₁) ∧
      d₁.text = d.text ∧ Site d₁.tree position count before w fs n gs kind parts ∧
      b.value.2.span.cover (Span.sized position count) = Span.sized (currentCount before) w.room ∧
      ∀ p, (formsOf p w).map Form.shape = [(Branch.form b).shape] := by
  obtain ⟨kind, parts, form⟩ := exists_weave nested
  have order := b.value.2.span.start_le_stop
  have start_eq : currentCount (keptCells (d.text.current.take b.value.2.span.start)) =
      b.value.2.span.start := by
    rw [currentCount_keptCells, List.length_take, length_current]
    omega
  have shape_eq (p : Nat) :
      (formsOf p (.node kind parts)).map Form.shape = [(Branch.form b).shape] := by
    have same := shape_formsAt p (Form.span (Branch.form b)).start [.node kind parts]
    rwa [formsAt_singleton, formsAt_singleton, form] at same
  rw [span_form, ← start_eq] at form
  have span_eq : b.value.2.span = Span.sized b.value.2.span.start (width parts) := by
    have root := form
    rw [formsOf_node, List.cons.injEq, start_eq] at root
    rw [← span_form, ← root.1]
    rfl
  cases contained : b.value.2.span.contains position with
  | true =>
    obtain ⟨fs, n, gs, kind', parts', around, site, -⟩ :=
      nodeAround_inside holds form single contained
    refine ⟨d, _, _, fs, n, gs, kind', parts', around, rfl, site, ?_, shape_eq⟩
    obtain ⟨after, before⟩ := Span.contains_iff.mp contained
    rw [start_eq, room_node, ← span_eq]
    ext <;> simp only [Span.cover, Span.sized] <;> omega
  | false =>
    have stop_eq := congrArg Span.stop span_eq
    simp only [Span.sized] at stop_eq
    obtain ⟨before, la, ra, behind, tree, n, -, -, around, site, cover⟩ :=
      nodeAround_outside (keptCells (d.text.current.drop b.value.2.span.stop)) holds form single
        contained (by
          rw [start_eq, currentCount_keptCells, List.length_drop, length_current]
          omega)
    refine ⟨_, before, _, [], n, [], kind, _, around, rfl, site, ?_, fun p => ?_⟩
    · rw [room_node]
      exact cover
    · rw [← shape_eq p]
      refine alike_node (fun p p' => ?_) p p
      simp only [formsAt_append, formsAt_map_cell, List.nil_append, List.append_nil]
      exact shape_formsAt _ _ _

theorem room_wrap (gs : List Weave.Frame) (kind : Kind) (us vs : List Weave) (mid : List Cell) :
    (wrap gs (.node kind (us ++ mid.map cell ++ vs))).room =
      currentCount (left gs) + (width us + currentCount mid + width vs) +
        currentCount (right gs) := by
  simp only [room, cells_wrap, cells_node, stored_append, stored_map_cell, currentCount_append,
    width]

/-- Room is made for a change, and the root ends that much further on. -/
theorem Site.exists_room {n : Branch} {before : List Cell} {w : Weave} {gs : List Weave.Frame}
    {kind : Kind} {us vs : List Weave} {old new : List Cell} {seam : Nat} {distance : Int}
    (site : Site d.tree position count before w fs n gs kind (us ++ old.map cell ++ vs))
    (grows : (currentCount new : Int) = currentCount old + distance)
    (ahead : ∀ f ∈ formsAt (currentCount before + currentCount (left gs)) us,
      (Form.span f).start < seam)
    (behind : seam ≤ currentCount before + currentCount (left gs) + width us + currentCount old)
    (fits : (currentCount before + w.room : Int) + distance < positionLimit) :
    ∃ tree fs' n', d.makeRoom (handle n) seam distance = .ok { d with tree := tree } ∧
      handle n' = handle n ∧ Holds tree (plug fs' n') ∧ (Branch.form (plug fs' n')).Nested ∧
      (plug fs' n').value.2.span = (Span.sized (currentCount before) w.room).stretched distance ∧
      ∀ p, (formsOf p w).map Form.shape = [(Branch.form (plug fs' n')).shape] := by
  have old_room := room_wrap gs kind us vs old
  have new_room := room_wrap gs kind us vs new
  rw [site.wrapped] at old_room
  obtain ⟨tree, fs', n', made, handle_eq, focus⟩ := makeRoom_spec site.focus grows ahead behind (by
    rw [width_append, width_append, width_map_cell]
    omega)
  have whole := focus.whole
  have mem : Branch.form (plug fs' n') ∈
      formsOf (currentCount before) (wrap gs (.node kind (us ++ new.map cell ++ vs))) := by
    rw [whole]
    exact List.mem_singleton_self _
  obtain ⟨nested, start, stop⟩ := nests _ _ _ mem
  rw [span_form] at start stop
  refine ⟨tree, fs', n', made, handle_eq, focus.holds, nested, ?_, fun p => ?_⟩
  · ext
    · rw [start]
      rfl
    · rw [stop]
      simp only [Span.sized, Span.stretched]
      omega
  · rw [← site.wrapped, (alike_cells old new).wrap gs p (currentCount before), whole]
    rfl

theorem typed_overwrites {span : Span} {c : Char} {text : Buffer}
    (inside : position ≤ d.text.currentLength) (is_typed : d.typed span c position = .ok text) :
    Overwrites position 0 1 d.text.cells text.cells := by
  unfold typed at is_typed
  by_cases starts : span.start = position
  · rw [if_pos starts] at is_typed
    exact insertPastDeleted_overwrites inside is_typed
  · rw [if_neg starts] at is_typed
    exact insert_overwrites inside is_typed

/-- A document after a stroke and before anything is read again: the text is changed, and the root
of the tree reaches as far as it has to. -/
structure Reaches (d : Document) (b : Branch) (s : Stroke) (d₁ : Document)
    (b₁ : Branch) : Prop where
  current : d₁.text.current = s.applied d.text.current
  cells : Overwrites s.place s.taken s.added d.text.cells d₁.text.cells
  holds : Holds d₁.tree b₁
  nested : (Branch.form b₁).Nested
  span_eq : b₁.value.2.span = s.reach b.value.2.span
  shape : (Branch.form b₁).shape = (Branch.form b).shape

/-- What a stroke comes to before anything is read again. -/
theorem Stroke.run_eq (holds : Holds d.tree b) (nested : (Branch.form b).Nested)
    (inside : b.value.2.span.stop ≤ d.text.currentLength)
    (fits : d.text.currentLength + 2 < positionLimit) (s : Stroke)
    (within : s.Within d.text.current) :
    ∃ d₁ fs n, s.run d = (do
        let (outcome, d₂) ← d₁.reread parenthesised (handle n)
        pure (.ok outcome, d₂)) ∧ Reaches d b s d₁ (plug fs n) := by
  have order := b.value.2.span.start_le_stop
  unfold Within at within
  rw [length_current] at within
  cases s with
  | insert c position =>
    have place : position ≤ d.text.currentLength := within
    obtain ⟨d₁, before, w, fs, n, gs, kind, parts, around, same, site, cover, shape⟩ :=
      exists_site holds nested inside (Nat.zero_le 1) place
    obtain ⟨us, vs, rfl, seam, ahead⟩ :=
      exists_seam site.after (by simpa using site.enough) site.outside
    obtain ⟨text, is_typed, text_eq⟩ := typed_current (d := d) n.value.2.span c place
    have parts_eq : us ++ vs = us ++ ([] : List Cell).map cell ++ vs := by simp
    have ran := insert_run place around same site.focus.holds.hole.span_eq is_typed
    rw [parts_eq] at site
    have grows : (currentCount [⟨c, .kept⟩] : Int) = currentCount [] + 1 := by simp [Cell.isCurrent]
    have cover_stop := congrArg Span.stop cover
    simp only [Span.cover, Span.sized] at cover_stop
    obtain ⟨tree, fs', n', made, handle_eq, holds', nested', span_eq, shape'⟩ :=
      Site.exists_room (d := { d₁ with text := text }) site grows ahead (by simp [seam]) (by omega)
    refine ⟨{ d₁ with text := text, tree := tree }, fs', n', ?_, text_eq,
      typed_overwrites place is_typed, holds', nested', ?_, ?_⟩
    · rw [Stroke.run, ran, made, handle_eq]
      rfl
    · rw [span_eq, ← cover]
      rfl
    · exact List.singleton_inj.mp ((shape' 0).symm.trans (shape 0))
  | delete position =>
    have place : position < d.text.currentLength := within
    obtain ⟨d₁, before, w, fs, n, gs, kind, parts, around, same, site, cover, shape⟩ :=
      exists_site holds nested inside (Nat.le_refl 1) place
    obtain ⟨us, c, vs, rfl, seam, current⟩ := exists_cell site.after site.enough site.outside
    obtain ⟨text, deleted, text_eq⟩ := delete_current d.text place
    have parts_eq : us ++ .cell c :: vs = us ++ [c].map cell ++ vs := by simp
    have ran := delete_run place around same deleted
    rw [parts_eq] at site
    have shrinks : (currentCount [] : Int) = currentCount [c] + -1 := by simp [current]
    have ahead : ∀ f ∈ formsAt (currentCount before + currentCount (left gs)) us,
        (Form.span f).start < position + 1 := formsAt_start_lt seam
    have cover_stop := congrArg Span.stop cover
    simp only [Span.cover, Span.sized] at cover_stop
    obtain ⟨tree, fs', n', made, handle_eq, holds', nested', span_eq, shape'⟩ :=
      Site.exists_room (d := { d₁ with text := text }) site shrinks ahead
        (by simp [current, seam]) (by omega)
    refine ⟨{ d₁ with text := text, tree := tree }, fs', n', ?_, text_eq,
      delete_overwrites place deleted, holds', nested', ?_, ?_⟩
    · rw [Stroke.run, ran, made, handle_eq]
      rfl
    · rw [span_eq, ← cover]
      rfl
    · exact List.singleton_inj.mp ((shape' 0).symm.trans (shape 0))

/-- Reading again changes nothing if no node reads. -/
theorem rereadFrom_pending {steps : Nat} {h root : Handle} {d' : Document}
    (ran : rereadFrom parenthesised steps d h = .ok (.pending root, d')) : d' = d := by
  induction steps generalizing h with
  | zero => cases ran
  | succ steps ih =>
    obtain ⟨span, -, ran⟩ := bind_eq_ok.mp ran
    obtain ⟨found, -, ran⟩ := bind_eq_ok.mp ran
    cases found with
    | some f =>
      obtain ⟨⟨new, d₁⟩, -, ran⟩ := bind_eq_ok.mp ran
      obtain ⟨d₂, -, ran⟩ := bind_eq_ok.mp ran
      cases ran
    | none =>
      obtain ⟨parent, -, ran⟩ := bind_eq_ok.mp ran
      cases parent with
      | some parent => exact ih ran
      | none =>
        cases ran
        rfl

/-- A stroke that is left pending leaves the document as it is before anything is read again. -/
theorem Stroke.pending_eq {root : Handle} {d' : Document} (holds : Holds d.tree b)
    (nested : (Branch.form b).Nested) (inside : b.value.2.span.stop ≤ d.text.currentLength)
    (fits : d.text.currentLength + 2 < positionLimit) {s : Stroke}
    (within : s.Within d.text.current) (ran : s.run d = .ok (.ok (.pending root), d')) :
    ∃ b', Reaches d b s d' b' := by
  obtain ⟨d₁, fs, n, run_eq, reaches⟩ := s.run_eq holds nested inside fits within
  rw [run_eq] at ran
  obtain ⟨⟨outcome, d₂⟩, reread, ran⟩ := bind_eq_ok.mp ran
  cases ran
  obtain rfl := rereadFrom_pending reread
  exact ⟨plug fs n, reaches⟩

end FormEdit.Document
