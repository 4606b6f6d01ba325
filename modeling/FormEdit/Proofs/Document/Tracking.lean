import FormEdit.Proofs.Document.Incremental
import FormEdit.Proofs.Weave.Rereading
import FormEdit.Proofs.Weave.Striking

/-!
# Text and tree as one weave

While changes are pending, the tree need not be what the text reads as. What relates the two is a
weave (`Tracked`): it has the forms of the tree and the current characters of the text, with only
blanks around it, every node of it is good, and every mark in it is backed by a lost character. As
soon as nothing is pending, there are no marks, and the text reads as the tree (`Tracked.reads`).
-/

namespace FormEdit.Document

open Rose Buffer Branch Weave FormEdit.Language FormEdit.Tree

variable {d : Document} {b : Branch} {fs : List (Rose.Frame (Handle × Node))} {la ra : List Cell}
  {w : Weave}

/-- The document is woven from `w` with the blanks `la` and `ra` around it. -/
structure Tracked (d : Document) (b : Branch) (la : List Cell) (w : Weave)
    (ra : List Cell) : Prop where
  holds : Holds d.tree b
  cells : live d.text.cells = la ++ live w.cells ++ ra
  blanks : Blanks la
  blanks' : Blanks ra
  form : formsOf la.length w = [Branch.form b]
  good : Good d.widened w
  backed : Backed (LostAt d.text.cells) la.length w

/-- A document that can be woven, with a root that is widened only while something is pending. -/
structure Sound (d : Document) : Prop where
  tracked : ∃ b la w ra, Tracked d b la w ra
  narrow : d.isSettled = true → d.widened = false

theorem status_of_settled (settled : d.isSettled = true) :
    ∀ c ∈ d.text.cells, c.status = .kept := by
  simpa [isSettled, isChanged] using settled

namespace Tracked

theorem current_eq (tracked : Tracked d b la w ra) :
    d.text.current = la.map Cell.char ++ shown w.cells ++ ra.map Cell.char := by
  rw [Buffer.current_eq, shown_eq_live, tracked.cells, shown_eq_live]
  simp

theorem length_eq (tracked : Tracked d b la w ra) :
    d.text.currentLength = la.length + w.room + ra.length := by
  rw [← length_current, tracked.current_eq]
  simp only [List.length_append, List.length_map, length_shown, room]

theorem span_eq (tracked : Tracked d b la w ra) : b.value.2.span = Span.sized la.length w.room := by
  obtain ⟨-, start, stop⟩ := nests w _ (Branch.form b) (by rw [tracked.form]; simp)
  rw [span_form] at start stop
  exact Span.ext start stop

theorem nested (tracked : Tracked d b la w ra) : (Branch.form b).Nested :=
  nested_formsOf (by rw [tracked.form]; simp)

theorem inside (tracked : Tracked d b la w ra) : b.value.2.span.stop ≤ d.text.currentLength := by
  rw [tracked.span_eq, tracked.length_eq]
  simp only [Span.sized]
  omega

/-- The characters of a node somewhere in the weave. -/
theorem chars_under {gs : List Weave.Frame} {v : Weave} (tracked : Tracked d b la (wrap gs v) ra)
    {span : Span} (span_eq : span = Span.sized (la.length + currentCount (left gs)) v.room) :
    d.text.current = (la.map Cell.char ++ shown (left gs)) ++
        (shown v.cells ++ (shown (right gs) ++ ra.map Cell.char)) ∧
      (la.map Cell.char ++ shown (left gs)).length = span.start ∧
      (d.text.current.drop span.start).take span.length = shown v.cells := by
  have split : d.text.current = (la.map Cell.char ++ shown (left gs)) ++
      (shown v.cells ++ (shown (right gs) ++ ra.map Cell.char)) := by
    rw [tracked.current_eq, cells_wrap]
    simp only [shown_append, List.append_assoc]
  have start : (la.map Cell.char ++ shown (left gs)).length = span.start := by
    rw [span_eq, List.length_append, List.length_map, length_shown]
    rfl
  have length : span.length = (shown v.cells).length := by
    rw [span_eq, length_shown]
    simp [Span.length, Span.sized, room]
  refine ⟨split, start, ?_⟩
  rw [split, ← start, List.drop_left, length, List.take_left]

theorem chars_root (tracked : Tracked d b la w ra) :
    (d.text.current.drop b.value.2.span.start).take b.value.2.span.length = shown w.cells := by
  have whole : Tracked d b la (wrap [] w) ra := tracked
  refine (whole.chars_under ?_).2.2
  rw [tracked.span_eq]
  simp [left]

/-! ## Settled documents -/

theorem exists_kept (tracked : Tracked d b la w ra) (settled : d.isSettled = true) :
    ∃ kind parts, w = .node kind parts ∧ Kept parts := by
  obtain ⟨kind, parts, rfl⟩ := is_node_of_form tracked.form
  have status := status_of_settled settled
  have nothing_lost : ∀ x, ¬LostAt d.text.cells x :=
    not_lostAt_of_current fun c mem => by simp [Cell.isCurrent, status c mem]
  have unmarked := unmarked_of_backed nothing_lost rfl tracked.backed
  refine ⟨kind, parts, rfl, fun c mem => status c ?_⟩
  have shown_cell : c ∈ live d.text.cells := by
    rw [tracked.cells, cells_node, live_eq_self unmarked]
    simp [mem]
  exact (List.mem_filter.mp shown_cell).1

theorem shown_eq_spelling {parts : List Weave} (kept : Kept parts) :
    shown (stored parts) = spelling parts := by
  rw [shown_eq_live, live_eq_self fun c mem => by simp [Cell.isCurrent, kept c mem]]
  rfl

/-- Once nothing is pending, the text of the root reads as its form, up to the blanks around it. -/
theorem reads_root (tracked : Tracked d b la w ra) (settled : d.isSettled = true) :
    ∃ span, Reads la.length (shown w.cells)
      (.node ⟨(Branch.form b).kind, span⟩ (Branch.form b).children) := by
  obtain ⟨kind, parts, rfl, kept⟩ := tracked.exists_kept settled
  obtain ⟨span, reads⟩ := tracked.good.loosen.narrow kept tracked.form
  refine ⟨span, ?_⟩
  rwa [cells_node, shown_eq_spelling kept]

/-- Once nothing is pending, the text reads as the tree. -/
theorem reads (tracked : Tracked d b la w ra) (settled : d.isSettled = true)
    (narrow : d.widened = false) : Reads 0 d.text.current (Branch.form b) := by
  obtain ⟨kind, parts, rfl, kept⟩ := tracked.exists_kept settled
  have good := tracked.good
  rw [narrow] at good
  rw [tracked.current_eq, cells_node, shown_eq_spelling kept, ← spelling_node kind parts]
  refine reads_of_weave tracked.blanks.chars tracked.blanks'.chars (kept_node.mpr kept) good ?_
  rw [List.length_map, Nat.zero_add]
  exact tracked.form

end Tracked

/-- A text without changes that reads as a form is woven from kept cells. -/
theorem exists_weave {f : Form} (kept : ∀ c ∈ d.text.cells, c.status = .kept)
    (reads : Reads 0 d.text.current f) :
    ∃ la w ra, d.text.cells = la ++ w.cells ++ ra ∧ Blanks la ∧ Blanks ra ∧ Kept [w] ∧
      Good false w ∧
      formsOf la.length w = [f] := by
  obtain ⟨bs, bs', w, text, blank, blank', kept_w, good, form⟩ := weave_of_reads reads
  have current : ∀ c ∈ d.text.cells, c.isCurrent = true := fun c mem => by
    simp [Cell.isCurrent, kept c mem]
  have length_bs : (keptCells bs).length = bs.length := by simp [keptCells]
  have cells_eq : d.text.cells = keptCells d.text.current := by
    rw [Buffer.current_eq, shown_eq_live, live_eq_self current, keptCells, List.map_map]
    refine (List.map_id _).symm.trans (List.map_congr_left fun c mem => ?_)
    obtain ⟨char, status⟩ := c
    cases kept _ mem
    rfl
  have w_eq : w.cells = keptCells (spelling [w]) := by
    simpa using stored_eq_keptCells kept_w
  refine ⟨keptCells bs, w, keptCells bs', ?_, blanks_keptCells blank, blanks_keptCells blank',
    kept_w, good, ?_⟩
  · rw [cells_eq, text, w_eq]
    simp [keptCells]
  · rw [length_bs, ← form, Nat.zero_add]

/-- A document without changes whose text reads as its tree. -/
theorem sound_of_reads (holds : Holds d.tree b) (kept : ∀ c ∈ d.text.cells, c.status = .kept)
    (reads : Reads 0 d.text.current (Branch.form b)) (narrow : d.widened = false) : Sound d := by
  refine ⟨?_, fun _ => narrow⟩
  obtain ⟨la, w, ra, text, blanks, blanks', kept_w, good, form⟩ := exists_weave kept reads
  have current : ∀ c ∈ d.text.cells, c.isCurrent = true := fun c mem => by
    simp [Cell.isCurrent, kept c mem]
  have current_w : ∀ c ∈ w.cells, c.isCurrent = true := fun c mem => by
    simp [Cell.isCurrent, kept_w c (by simpa using mem)]
  refine ⟨b, la, w, ra, holds, ?_, blanks, blanks', form, by rwa [narrow],
    backed_of_unmarked (by simpa [Unmarked] using current_w)⟩
  rw [live_eq_self current, live_eq_self current_w, text]

/-! ## Reading again -/

theorem settle_kept {cells : List Cell} : ∀ c ∈ settle cells, c.status = .kept := by
  intro c mem
  obtain ⟨c, -, rfl⟩ := List.mem_map.mp mem
  rfl

/-- What the root reads as is what the text reads as. -/
theorem Tracked.pad {f : Form} (tracked : Tracked d b la w ra)
    (reads : Reads la.length (shown w.cells) f) : Reads 0 d.text.current f := by
  rw [tracked.current_eq]
  exact Reads.pad (by simpa using reads) tracked.blanks.chars tracked.blanks'.chars

/-- A node other than the root is read again and committed. -/
theorem Tracked.exists_reread {o : Rose.Frame (Handle × Node)} {f : Form} {tree : Tree}
    (ids : IdSource) {fs' : List (Rose.Frame (Handle × Node))} {c : Branch}
    (tracked : Tracked d (Rose.plug (o :: fs) b) la w ra)
    (rereads : Rereads d (o :: fs) b.value.2.span f) (holds : Holds tree (Rose.plug fs' c))
    (tags_eq : tags fs' = tags (o :: fs)) (form : Branch.form c = f) :
    ∃ w', Tracked { d with tree := tree, ids := ids, text := d.text.commit b.value.2.span }
      (Rose.plug fs' c) la w' ra := by
  obtain ⟨gs, v, rfl, focus⟩ := exists_focus tracked.holds tracked.form
  obtain ⟨k, ps, v_eq⟩ := is_node_of_form focus.form
  obtain ⟨g, gs, rfl, -⟩ := focus.out
  obtain ⟨split, start, chars⟩ := tracked.chars_under focus.span_eq
  have reads := rereads.reads
  rw [chars, focus.span_eq] at reads
  have parted : Parted (shown (left (g :: gs))) (shown v.cells) := by
    have apart := (rereads.apart (by simp)).1
    rw [split, ← start] at apart
    exact apart.parted.shrink
  have room_pos : 0 < v.room := by
    rw [room, ← length_shown]
    exact List.length_pos_of_ne_nil reads.nonempty
  have total : la.length + currentCount (left (g :: gs)) + v.room ≤ d.text.currentLength := by
    have rooms : (wrap (g :: gs) v).room =
        currentCount (left (g :: gs)) + v.room + currentCount (right (g :: gs)) := by
      rw [room, cells_wrap, currentCount_append, currentCount_append]
      rfl
    rw [tracked.length_eq, rooms]
    omega
  obtain ⟨cells, losses⟩ := commit_losses d.text b.value.2.span
    (by rw [focus.span_eq]; simp only [Span.sized]; omega)
    (by rw [focus.span_eq]; simpa only [Span.sized] using total)
  rw [focus.span_eq] at losses
  obtain ⟨w', good, backed, cells', forms⟩ := Weave.exists_reread v_eq tracked.good tracked.backed
    reads parted losses
  rw [← focus.span_eq] at backed
  refine ⟨w', holds, ?_, tracked.blanks, tracked.blanks', ?_, good, backed⟩
  · have ahead : (la ++ live (left (g :: gs))).length = b.value.2.span.start := by
      rw [focus.span_eq, List.length_append, length_live]
      rfl
    have within : (live v.cells).length = b.value.2.span.length := by
      rw [focus.span_eq, length_live]
      simp [Span.length, Span.sized, room]
    have stop : b.value.2.span.stop = (la ++ live (left (g :: gs)) ++ live v.cells).length := by
      rw [List.length_append, ahead, within, Span.length]
      have := b.value.2.span.start_le_stop
      omega
    have live_eq : live d.text.cells = (la ++ live (left (g :: gs))) ++
        (live v.cells ++ (live (right (g :: gs)) ++ ra)) := by
      rw [tracked.cells, cells_wrap]
      simp only [live_append, List.append_assoc]
    have kept_eq : keptCells (shown v.cells) = (live v.cells).map fun c => ⟨c.char, .kept⟩ := by
      simp [keptCells, shown_eq_live]
    rw [cells, cells', kept_eq, live_eq, stop, ← ahead, ← within, List.take_left, List.drop_left,
      List.take_left, ← List.append_assoc (la ++ _), List.drop_left]
    simp only [List.append_assoc]
  · rw [forms, form_plug, tags_eq, focus.tags_eq, form]

/-- After a node is read again, the document is sound. -/
theorem Tracked.commitNode {fs' : List (Rose.Frame (Handle × Node))} {c : Branch} {f : Form}
    {o : Rose.Frame (Handle × Node)} {tree : Tree} {ids : IdSource}
    (tracked : Tracked d (Rose.plug (o :: fs) b) la w ra)
    (rereads : Rereads d (o :: fs) b.value.2.span f) (holds : Holds tree (Rose.plug fs' c))
    (tags_eq : tags fs' = tags (o :: fs)) (form : Branch.form c = f)
    (fits : d.text.currentLength < positionLimit) (plain : ';' ∉ d.text.current) :
    ∃ d', Document.commitNode parenthesised { d with tree := tree, ids := ids } (handle c)
        b.value.2.span = .ok d' ∧ d'.text.current = d.text.current ∧ Sound d' := by
  obtain ⟨w', tracked'⟩ := tracked.exists_reread ids rereads holds tags_eq form
  have same := commit_current d.text b.value.2.span
  have same_length : (d.text.commit b.value.2.span).currentLength = d.text.currentLength := by
    rw [← length_current, ← length_current, same]
  cases fs' with
  | nil => cases tags_eq
  | cons o' fs' =>
    cases settled : d.widened && !(d.text.commit b.value.2.span).isChanged with
    | false =>
      refine ⟨_, commitNode_inner (d := { d with tree := tree, ids := ids }) holds _ settled, same,
        ⟨_, _, _, _, tracked'⟩, fun is_settled => ?_⟩
      simpa [isSettled] using Bool.and_eq_false_imp.mp
        ((Bool.and_comm _ _).trans settled) is_settled
    | true =>
      rw [commitNode_narrow (d := { d with tree := tree, ids := ids }) holds _ settled]
      obtain ⟨span, reads⟩ := tracked'.reads_root (Bool.and_eq_true_iff.mp settled).2
      obtain ⟨tree', b', narrowed, holds', form'⟩ := narrowRoot_spec tracked'.holds tracked'.inside
        (by rw [same_length]; exact fits) (by rw [same]; exact plain)
        (by rw [tracked'.chars_root, tracked'.span_eq]; exact reads)
      refine ⟨_, by rw [narrowed]; rfl, same, sound_of_reads holds' ?_ ?_ rfl⟩
      · exact status_of_settled (d := { d with text := d.text.commit b.value.2.span })
          (Bool.and_eq_true_iff.mp settled).2
      · rw [form']
        exact tracked'.pad reads

/-- Reading a node again ends in a sound document. -/
theorem Tracked.reread {n : Branch} (tracked : Tracked d (Rose.plug fs n) la w ra)
    (fits : d.text.currentLength + 1 < positionLimit) (plain : ';' ∉ d.text.current) :
    ∃ outcome d', d.reread parenthesised (handle n) = .ok (outcome, d') ∧
      d'.text.current = d.text.current ∧ Sound d' := by
  rcases rereadFrom_spec tracked.holds tracked.holds.depth_lt tracked.nested tracked.inside
    fits plain with
    ⟨inner, outer, f, rfl, rereads, ran⟩ | ⟨ran, fails⟩
  · rw [Rose.plug_append] at tracked
    obtain ⟨tree, ids, fs', c, put, holds', tags_eq, form⟩ := putForm_current tracked.holds f
    obtain ⟨d', committed, same, sound⟩ : ∃ d', Document.commitNode parenthesised
        { d with tree := tree, ids := ids } (handle c) (Rose.plug inner n).value.2.span = .ok d' ∧
        d'.text.current = d.text.current ∧ Sound d' := by
      cases outer with
      | cons o outer =>
        exact tracked.commitNode rereads holds' tags_eq form (Nat.lt_of_succ_lt fits) plain
      | nil =>
        have top : fs' = [] := by simpa [tags] using tags_eq
        subst top
        refine ⟨_, commitNode_root (d := { d with tree := tree, ids := ids }) holds' _,
          commitAll_current _, sound_of_reads (b := c) holds' settle_kept ?_ rfl⟩
        have reads := rereads.reads
        rw [Rose.plug_nil] at tracked
        rw [tracked.chars_root, tracked.span_eq] at reads
        rw [commitAll_current, form]
        exact tracked.pad reads
    refine ⟨.reparsed d'.root (handle c), d', ?_, same, sound⟩
    rw [Document.reread, ran, put, ok_bind]
    simp only [committed, ok_bind, pure_eq_ok]
  · -- If nothing were pending, the root would have been read.
    refine ⟨.pending d.root, d, ran, rfl, ⟨_, _, _, _, tracked⟩, fun settled => ?_⟩
    obtain ⟨span, reads⟩ := tracked.reads_root settled
    rw [tracked.chars_root, tracked.span_eq] at fails
    exact absurd reads (fails _)

end FormEdit.Document
