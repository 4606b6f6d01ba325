import FormEdit.Proofs.Document.Tracking

/-!
# Strokes keep documents sound

A typed or deleted character changes the weave of its node, and with it the marks of the nodes
around it. The tree makes the same room, so the document is still woven, and reading a node again
keeps it so: `Sound.stroke`. Nothing is asked of what the text reads as, before or after.
-/

namespace FormEdit.Document

open Rose Buffer Branch Weave FormEdit.Language FormEdit.Tree

variable {d d₁ : Document} {b n : Branch} {fs : List (Rose.Frame (Handle × Node))}
  {la ra : List Cell}
  {w : Weave} {gs : List Weave.Frame} {kind : Kind} {parts us vs : List Weave}
  {position count : Nat}

/-- What looking for the node around a change does to a document and its weave: nothing, or the root
takes in blanks beside it. -/
inductive Reached (d : Document) :
    Document → List Cell → Weave → List Cell → List Cell → Weave → List Cell → Prop
  | inside {la : List Cell} {w : Weave} {ra : List Cell} : Reached d d la w ra la w ra
  | outside {tree : Tree} {la l r ra : List Cell} {kind : Kind} {parts : List Weave} :
      Reached d { d with tree := tree, widened := true } (la ++ l) (.node kind parts) (r ++ ra) la
        (.node kind (l.map cell ++ parts ++ r.map cell)) ra

/-- The node that a change at a position belongs to, in the weave of a document. -/
structure Found (d d₁ : Document) (position count : Nat) (la : List Cell) (w : Weave)
    (ra : List Cell) (fs : List (Rose.Frame (Handle × Node))) (n : Branch) (gs : List Weave.Frame)
    (kind : Kind) (parts : List Weave) : Prop where
  around : d.nodeAround position count = .ok (handle n, d₁)
  same : d₁.text = d.text
  site : Site d₁.tree position count la w fs n gs kind parts
  inner : gs ≠ [] → position < currentCount la + currentCount (left gs) + width parts

theorem exists_found (holds : Holds d.tree b) (form : formsOf (currentCount la) w = [Branch.form b])
    (single : count ≤ 1) (enough : position + count ≤ currentCount la + w.room + currentCount ra) :
    ∃ d₁ la' w' ra' fs n gs kind parts, Reached d d₁ la w ra la' w' ra' ∧
      Found d d₁ position count la' w' ra' fs n gs kind parts := by
  cases contained : b.value.2.span.contains position with
  | true =>
    obtain ⟨fs, n, gs, kind, parts, around, site, inner⟩ :=
      nodeAround_inside holds form single contained
    exact ⟨d, la, w, ra, fs, n, gs, kind, parts, .inside, around, rfl, site, fun _ => inner⟩
  | false =>
    obtain ⟨kind, parts, rfl⟩ := is_node_of_form form
    rw [room_node] at enough
    obtain ⟨before, l, r, behind, tree, n, rfl, rfl, around, site, -⟩ :=
      nodeAround_outside ra holds form single contained enough
    exact ⟨_, before, _, behind, [], n, [], kind, _, .outside, around, rfl, site,
      fun inner => absurd rfl inner⟩

/-- A place in a node at which its parts are parted and that is inside of none of its children. -/
structure Seam (d : Document) (position : Nat) (la : List Cell)
    (fs : List (Rose.Frame (Handle × Node))) (n : Branch) (gs : List Weave.Frame) (kind : Kind)
    (us vs : List Weave) : Prop where
  focus : Focus d.tree la.length fs n gs (.node kind (us ++ vs))
  place : la.length + currentCount (left gs) + width us = position
  ahead : ∀ f ∈ formsAt (la.length + currentCount (left gs)) us, (Form.span f).start < position
  outside : ∀ f ∈ formsAt (la.length + currentCount (left gs)) (us ++ vs),
    (Form.span f).contains position = false
  inner : gs ≠ [] → 0 < width vs

theorem Found.exists_seam (found : Found d d₁ position 0 la w ra fs n gs kind parts)
    (blanks : Blanks la) :
    ∃ us vs, w = wrap gs (.node kind (us ++ vs)) ∧ Seam d₁ position la fs n gs kind us vs := by
  obtain ⟨-, -, ⟨rfl, focus, after, enough, outside⟩, inner⟩ := found
  rw [blanks.currentCount_eq] at focus after enough outside inner
  obtain ⟨us, vs, rfl, seam, ahead⟩ := Weave.exists_seam after enough outside
  refine ⟨us, vs, rfl, focus, seam, ahead, outside, fun inner_node => ?_⟩
  have before := inner inner_node
  rw [width_append] at before
  omega

theorem Found.exists_cell (found : Found d d₁ position 1 la w ra fs n gs kind parts)
    (blanks : Blanks la) :
    ∃ us c vs, w = wrap gs (.node kind (us ++ .cell c :: vs)) ∧ c.isCurrent = true ∧
      Focus d₁.tree la.length fs n gs (.node kind (us ++ [c].map cell ++ vs)) ∧
      la.length + currentCount (left gs) + width us = position := by
  obtain ⟨-, -, ⟨rfl, focus, after, enough, outside⟩, -⟩ := found
  rw [blanks.currentCount_eq] at focus after enough outside
  obtain ⟨us, c, vs, rfl, seam, current⟩ := Weave.exists_cell after enough outside
  exact ⟨us, c, vs, rfl, current, by simpa using focus, seam⟩

/-- The root can take in the blanks beside it. -/
theorem Tracked.reached {la' ra' : List Cell} {w' : Weave} (tracked : Tracked d b la w ra)
    (reached : Reached d d₁ la w ra la' w' ra')
    (site : Site d₁.tree position count la' w' fs n gs kind parts) :
    Tracked d₁ (Rose.plug fs n) la' w' ra' := by
  have whole := site.focus.whole
  rw [site.wrapped] at whole
  cases reached with
  | inside =>
    rw [tracked.blanks.currentCount_eq] at whole
    exact { tracked with holds := site.focus.holds, form := whole }
  | @outside tree la l r ra k ps =>
    have blanks_l := tracked.blanks.right
    have blanks_r := tracked.blanks'.left
    rw [tracked.blanks.left.currentCount_eq] at whole
    refine ⟨site.focus.holds, ?_, tracked.blanks.left, tracked.blanks'.right, whole,
      tracked.good.widen blanks_l blanks_r, ?_⟩
    · rw [tracked.cells]
      simp only [cells_node, stored_append, stored_map_cell, live_append, blanks_l.live_eq,
        blanks_r.live_eq, List.append_assoc]
    · refine Backed.widen ?_ blanks_l blanks_r
      have backed := tracked.backed
      rwa [List.length_append, ← blanks_l.currentCount_eq] at backed

theorem Tracked.exists_found (tracked : Tracked d b la w ra) (single : count ≤ 1)
    (enough : position + count ≤ d.text.currentLength) :
    ∃ d₁ la w ra fs n gs kind parts, Tracked d₁ (Rose.plug fs n) la w ra ∧
      Found d d₁ position count la w ra fs n gs kind parts := by
  have form := tracked.form
  rw [← tracked.blanks.currentCount_eq] at form
  have total := tracked.length_eq
  rw [← tracked.blanks.currentCount_eq, ← tracked.blanks'.currentCount_eq] at total
  rw [total] at enough
  obtain ⟨d₁, la', w', ra', fs, n, gs, kind, parts, reached, found⟩ :=
    Document.exists_found tracked.holds form single enough
  exact ⟨d₁, la', w', ra', fs, n, gs, kind, parts, tracked.reached reached found.site, found⟩

/-- Once the weave of the changed text is known, room is made and a node is read again. -/
theorem exists_strike {old new : List Cell} {text : Buffer} {seam : Nat} {distance : Int}
    {w' : Weave} (focus : Focus d.tree la.length fs n gs (.node kind (us ++ old.map cell ++ vs)))
    (blanks : Blanks la) (blanks' : Blanks ra)
    (looks : Looks w' (wrap gs (.node kind (us ++ new.map cell ++ vs))))
    (cells : live text.cells = la ++ live w'.cells ++ ra) (good : Good d.widened w')
    (backed : Backed (LostAt text.cells) la.length w')
    (grows : (currentCount new : Int) = currentCount old + distance)
    (ahead : ∀ f ∈ formsAt (la.length + currentCount (left gs)) us, (Form.span f).start < seam)
    (behind : seam ≤ la.length + currentCount (left gs) + width us + currentCount old)
    (fits : text.currentLength + 1 < positionLimit) (plain : ';' ∉ text.current) :
    ∃ outcome d', (do
        let d₂ ← { d with text := text }.makeRoom (handle n) seam distance
        let (outcome, d₃) ← d₂.reread parenthesised (handle n)
        pure (.ok outcome, d₃) : Checked (Edited Outcome)) = .ok (.ok outcome, d') ∧
      d'.text.current = text.current ∧ Sound d' := by
  have total : la.length + (currentCount (left gs) + width (us ++ new.map cell ++ vs) +
      currentCount (right gs)) ≤ text.currentLength := by
    have rooms : w'.room =
        currentCount (left gs) + width (us ++ new.map cell ++ vs) + currentCount (right gs) := by
      rw [looks.room, room, cells_wrap, currentCount_append, currentCount_append, cells_node]
      rfl
    have lengths := congrArg List.length cells
    rw [length_live, List.length_append, List.length_append, length_live] at lengths
    have count_eq : text.currentLength = currentCount text.cells := rfl
    rw [count_eq, lengths, ← rooms, room]
    omega
  obtain ⟨tree, fs', n', made, handle_eq, focus'⟩ :=
    makeRoom_spec (d := { d with text := text }) focus grows ahead behind (by omega)
  have tracked : Tracked { d with text := text, tree := tree } (Rose.plug fs' n') la w' ra :=
    ⟨focus'.holds, cells, blanks, blanks', by rw [looks.forms]; exact focus'.whole, good, backed⟩
  obtain ⟨outcome, d', ran, same, sound⟩ := tracked.reread fits plain
  refine ⟨outcome, d', ?_, same, sound⟩
  rw [made, ok_bind, ← handle_eq, ran, ok_bind]
  rfl

/-- The current cells around a place in a node. -/
theorem live_around (la ra : List Cell) (gs : List Weave.Frame) (kind : Kind) (us vs : List Weave)
    (mid : List Cell) :
    la ++ live (wrap gs (.node kind (us ++ mid.map cell ++ vs))).cells ++ ra =
      (la ++ (live (left gs) ++ live (stored us))) ++
        (live mid ++ (live (stored vs) ++ (live (right gs) ++ ra))) := by
  simp [cells_wrap]

theorem length_live_ahead (la : List Cell) (gs : List Weave.Frame) (us : List Weave) :
    (la ++ (live (left gs) ++ live (stored us))).length =
      la.length + currentCount (left gs) + width us := by
  simp [width, Nat.add_assoc]

/-- A typed character is lost to none of the marks. -/
theorem typed_losses (span : Span) (c : Char) (inside : position ≤ d.text.currentLength) :
    ∃ text, d.typed span c position = .ok text ∧
      live text.cells = (live d.text.cells).take position ++
        ⟨c, .inserted⟩ :: (live d.text.cells).drop position ∧
      (∀ x, LostAt d.text.cells x → x < position → LostAt text.cells x) ∧
      (∀ x, LostAt d.text.cells x → position < x → LostAt text.cells (x + 1)) ∧
      (LostAt d.text.cells position → if span.start = position then LostAt text.cells position
        else LostAt text.cells (position + 1)) := by
  rw [typed]
  split
  · obtain ⟨text, is_typed, cells, low, high⟩ := insertPastDeleted_losses d.text c inside
    exact ⟨text, is_typed, cells, fun x lost before => low x lost (Nat.le_of_lt before), high,
      fun lost => low _ lost (Nat.le_refl _)⟩
  · obtain ⟨text, is_typed, cells, low, high⟩ := insert_losses d.text c inside
    exact ⟨text, is_typed, cells, low, fun x lost behind => high x lost (Nat.le_of_lt behind),
      fun lost => high _ lost (Nat.le_refl _)⟩

theorem Tracked.insert {c : Char} (tracked : Tracked d b la w ra) (not_comment : c ≠ ';')
    (inside : position ≤ d.text.currentLength) (plain : ';' ∉ d.text.current)
    (fits : d.text.currentLength + 2 < positionLimit) :
    ∃ outcome d', d.insert parenthesised c position = .ok (.ok outcome, d') ∧
      d'.text.current = typedText d.text.current c position ∧ Sound d' := by
  obtain ⟨d₁, la, w, ra, fs, n, gs, kind, parts, tracked, found⟩ :=
    tracked.exists_found (Nat.zero_le 1) inside
  have same := found.same
  obtain ⟨us, vs, rfl, focus, seam, ahead, outside, inner⟩ := found.exists_seam tracked.blanks
  obtain ⟨text, is_typed, cells, low, high, here⟩ := typed_losses (d := d) n.value.2.span c inside
  have ran := insert_run inside found.around same focus.holds.hole.span_eq is_typed
  have span_start : n.value.2.span.start = la.length + currentCount (left gs) := by
    rw [focus.span_eq]
    rfl
  rw [span_start] at here
  have backed := tracked.backed
  rw [same] at backed
  obtain ⟨v', looks, turns, carries⟩ := exists_typed kind c seam outside low high here
  obtain ⟨w', looks', whole⟩ := turns.exists_wrap fun inner_node => carries (inner inner_node)
  have looks_whole : Looks w' (wrap gs (.node kind (us ++ [⟨c, .inserted⟩].map cell ++ vs))) := by
    simpa using looks'.trans (looks.wrap gs)
  have old_cells : live d.text.cells = (la ++ (live (left gs) ++ live (stored us))) ++
      (live (stored vs) ++ (live (right gs) ++ ra)) := by
    rw [← same, tracked.cells]
    simpa using live_around la ra gs kind us vs []
  have new_cells : live text.cells = la ++ live w'.cells ++ ra := by
    rw [looks_whole.cells, live_around, cells, old_cells, ← seam, ← length_live_ahead,
      List.take_left, List.drop_left]
    rfl
  have text_eq : text.current = typedText d.text.current c position := by
    rw [Buffer.current_eq, Buffer.current_eq, shown_eq_live, shown_eq_live, cells, typedText]
    simp
  have length_eq : text.currentLength = d.text.currentLength + 1 := by
    rw [← length_current, ← length_current, text_eq, length_typedText]
  have plain' : ';' ∉ text.current := by
    rw [text_eq]
    exact not_mem_typedText plain not_comment
  have focus' :
      Focus d₁.tree la.length fs n gs (.node kind (us ++ ([] : List Cell).map cell ++ vs)) := by
    simpa using focus
  have grows : (currentCount [⟨c, .inserted⟩] : Int) = currentCount [] + 1 := by
    simp [Cell.isCurrent]
  obtain ⟨outcome, d', finished, same', sound⟩ :=
    exists_strike focus' tracked.blanks tracked.blanks' looks_whole new_cells
      (whole.good _ backed tracked.good) (whole.backed backed) grows ahead
        (by simp [seam]) (by omega)
      plain'
  exact ⟨outcome, d', ran.trans finished, same'.trans text_eq, sound⟩

theorem Tracked.delete (tracked : Tracked d b la w ra) (inside : position < d.text.currentLength)
    (plain : ';' ∉ d.text.current) (fits : d.text.currentLength + 2 < positionLimit) :
    ∃ outcome d', d.delete parenthesised position = .ok (.ok outcome, d') ∧
      d'.text.current = d.text.current.eraseIdx position ∧ Sound d' := by
  obtain ⟨d₁, la, w, ra, fs, n, gs, kind, parts, tracked, found⟩ :=
    tracked.exists_found (Nat.le_refl 1) inside
  have same := found.same
  obtain ⟨us, c, vs, rfl, current, focus, seam⟩ := found.exists_cell tracked.blanks
  obtain ⟨text, c', deleted, is_cell, cells, low, high, here⟩ := delete_losses d.text inside
  have ran := delete_run inside found.around same deleted
  have old_cells : live d.text.cells = (la ++ (live (left gs) ++ live (stored us))) ++
      (c :: (live (stored vs) ++ (live (right gs) ++ ra))) := by
    have lives : live [c] = [c] := live_eq_self (by simpa using current)
    have around := live_around la ra gs kind us vs [c]
    rw [lives] at around
    rw [← same, tracked.cells]
    simpa using around
  have ahead_length := length_live_ahead la gs us
  rw [seam] at ahead_length
  have same_cell : c' = c := by
    rw [old_cells, ← ahead_length, List.getElem?_append_right (Nat.le_refl _), Nat.sub_self]
      at is_cell
    simpa using is_cell.symm
  subst same_cell
  have backed := tracked.backed
  rw [same] at backed
  obtain ⟨v', looks, carries⟩ := exists_deleted kind vs current seam low high here
  obtain ⟨w', looks', whole⟩ := carries.toTurns.exists_wrap fun _ => carries
  have looks_whole : Looks w' (wrap gs (.node kind (us ++ ([] : List Cell).map cell ++ vs))) := by
    simpa using looks'.trans (looks.wrap gs)
  have new_cells : live text.cells = la ++ live w'.cells ++ ra := by
    rw [looks_whole.cells, live_around, cells, old_cells, ← ahead_length,
      List.eraseIdx_append_of_length_le (Nat.le_refl _)]
    simp
  have text_eq : text.current = d.text.current.eraseIdx position := by
    rw [Buffer.current_eq, Buffer.current_eq, shown_eq_live, shown_eq_live, cells,
      List.eraseIdx_map]
  have length_eq : text.currentLength + 1 = d.text.currentLength := by
    rw [← length_current, text_eq, List.length_eraseIdx_of_lt (by rwa [length_current]),
      length_current]
    omega
  have shrinks : (currentCount [] : Int) = currentCount [c'] + -1 := by simp [current]
  have ahead : ∀ f ∈ formsAt (la.length + currentCount (left gs)) us,
      (Form.span f).start < position + 1 := formsAt_start_lt seam
  obtain ⟨outcome, d', finished, same', sound⟩ :=
    exists_strike focus tracked.blanks tracked.blanks' looks_whole new_cells
      (whole.good _ backed tracked.good) (whole.backed backed) shrinks ahead
      (by simp [current, seam]) (by omega)
      (by rw [text_eq]; exact fun mem => plain (List.mem_of_mem_eraseIdx mem))
  exact ⟨outcome, d', ran.trans finished, same'.trans text_eq, sound⟩

end FormEdit.Document
