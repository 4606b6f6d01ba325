import FormEdit.Proofs.Document.Fresh
import FormEdit.Proofs.Document.Typing
import FormEdit.Proofs.Weave.Renewal

/-!
# Reading again agrees with reading afresh

From a document without comments that is in step with its text, a typed or deleted character leads
to a document in step whenever the new text can be read at all, although only the text of one node
is read: `stroke_agrees_with_fresh_reading`.
-/

namespace FormEdit

open Rose Buffer FormEdit.Language

namespace Document

open Branch Weave FormEdit.Tree

variable {d : Document} {b : Branch} {fs : List (Rose.Frame (Handle × Node))}
  {gs : List Weave.Frame}
  {w : Weave} {bs bs' : List Char}

/-- Where two texts meet, the edge is apart exactly if the texts are. -/
theorem Apart.parted {before behind : List Char} (apart : Apart (before ++ behind) before.length) :
    Parted before behind := by
  intro x y last head
  cases before with
  | nil => cases last
  | cons a before =>
    refine apart x y (by simp) ?_ ?_
    · rw [List.getElem?_append_left (by simp), ← last, List.getLast?_eq_getElem?]
    · rw [List.getElem?_append_right (Nat.le_refl _), Nat.sub_self, ← head, List.head?_eq_getElem?]

/-- A node that is read again and what its whole text then reads as. -/
def Renews (position : Nat) (gs : List Weave.Frame) (w : Weave) : Prop :=
  ∀ gs₁ gs₂ f, gs = gs₁ ++ gs₂ →
    Reads (position + currentCount (left gs₂)) (spelling [wrap gs₁ w]) f →
    (gs₂ ≠ [] → Parted ((left gs₂).map Cell.char) (spelling [wrap gs₁ w]) ∧
      Parted (spelling [wrap gs₁ w]) ((right gs₂).map Cell.char)) →
    Reads position (spelling [wrap gs w])
      (Rose.plug (tagsAt position gs₂ (wrap gs₁ w).room) f)

/-- The root is the whole text. -/
theorem renews_root (position : Nat) (w : Weave) : Renews position [] w := by
  intro gs₁ gs₂ f none reads _
  obtain ⟨rfl, rfl⟩ := List.append_eq_nil_iff.mp none.symm
  simpa [tagsAt, left] using reads

theorem commitNode_keeps {c : Branch} {f : Form} (holds : Holds d.tree (Rose.plug fs c))
    (form : Branch.form (Rose.plug fs c) = f)
    (inside : fs ≠ [] → (Rose.plug fs c).value.2.span.stop ≤ d.text.currentLength)
    (fits : d.text.currentLength < positionLimit) (plain : ';' ∉ d.text.current)
    (reads : fs ≠ [] → Reads (Rose.plug fs c).value.2.span.start
      ((d.text.current.drop (Rose.plug fs c).value.2.span.start).take
        (Rose.plug fs c).value.2.span.length) f) (span : Span) :
    ∃ d', d.commitNode parenthesised (handle c) span = .ok d' ∧ d'.text.current = d.text.current ∧
      d'.tree.form d'.root = .ok f := by
  have holds_form : d.tree.form d.root = .ok f := by rw [← form]; exact holds.form
  cases fs with
  | nil => exact ⟨_, commitNode_root holds span, commitAll_current _, holds_form⟩
  | cons g fs =>
    cases settled : d.widened && !(d.text.commit span).isChanged with
    | false => exact ⟨_, commitNode_inner holds span settled, commit_current _ _, holds_form⟩
    | true =>
      rw [commitNode_narrow holds span settled]
      have same := commit_current d.text span
      have length_same : (d.text.commit span).currentLength = d.text.currentLength := by
        rw [← length_current, ← length_current, same]
      obtain ⟨tree, b', narrowed, holds', form'⟩ :=
        narrowRoot_spec (d := { d with text := d.text.commit span }) holds
          (by rw [length_same]; exact inside (by simp)) (by rw [length_same]; exact fits)
          (by rw [same]; exact plain) (by rw [same]; exact reads (by simp))
      refine ⟨_, by rw [narrowed]; rfl, same, ?_⟩
      have unchanged : Branch.form b' = f := by
        rw [form', form]
        obtain ⟨⟨kind, span⟩, parts⟩ := f
        rfl
      rw [← unchanged]
      exact holds'.form

/-- The characters under a node. -/
theorem chars_under {gs₁ gs₂ : List Weave.Frame} (gs_eq : gs = gs₁ ++ gs₂)
    (text : d.text.current = bs ++ spelling [wrap gs w] ++ bs') (kept : Kept [wrap gs w])
    {span : Span}
    (span_eq : span = Span.sized (bs.length + currentCount (left gs₂)) (wrap gs₁ w).room) :
    d.text.current = (bs ++ (left gs₂).map Cell.char) ++
        (spelling [wrap gs₁ w] ++ ((right gs₂).map Cell.char ++ bs')) ∧
      (bs ++ (left gs₂).map Cell.char).length = span.start ∧
      ((bs ++ (left gs₂).map Cell.char) ++ spelling [wrap gs₁ w]).length = span.stop ∧
      (d.text.current.drop span.start).take span.length = spelling [wrap gs₁ w] := by
  subst gs_eq span_eq
  rw [wrap_append] at text kept
  obtain ⟨kept_left, kept_inner, -⟩ := kept_wrap.mp kept
  have counted := currentCount_left kept
  have measured := room_eq kept_inner
  have split : d.text.current = (bs ++ (left gs₂).map Cell.char) ++
      (spelling [wrap gs₁ w] ++ ((right gs₂).map Cell.char ++ bs')) := by
    rw [text, spelling_wrap]
    simp only [List.append_assoc]
  have start : (bs ++ (left gs₂).map Cell.char).length = bs.length + currentCount (left gs₂) := by
    rw [List.length_append, List.length_map, counted]
  refine ⟨split, start, by rw [List.length_append, start, ← measured]; rfl, ?_⟩
  simp only [Span.sized, Span.length, Nat.add_sub_cancel_left]
  rw [split, ← start, List.drop_left, measured, List.take_left]

/-- The root keeps its span if a node below it is replaced. -/
theorem span_root_eq {fs' : List (Rose.Frame (Handle × Node))} {c : Branch}
    (tags_eq : tags fs' = tags fs) (inner : fs' ≠ []) :
    (Rose.plug fs' c).value.2.span = (Rose.plug fs b).value.2.span := by
  rw [← span_form, ← span_form, form_plug, form_plug, tags_eq]
  cases fs with
  | nil => exact absurd (List.map_eq_nil_iff.mp tags_eq) inner
  | cons g fs => exact congrArg Tag.span (value_plug_cons _ _ _ _)

/-- A form that was read takes the place of its node, and nothing else changes in text and tree. -/
theorem renewNode_keeps (holds : Holds d.tree (Rose.plug fs b)) (f : Form)
    (inside : (Rose.plug fs b).value.2.span.stop ≤ d.text.currentLength)
    (fits : d.text.currentLength < positionLimit) (plain : ';' ∉ d.text.current)
    (reads : Reads (Rose.plug fs b).value.2.span.start
      ((d.text.current.drop (Rose.plug fs b).value.2.span.start).take
        (Rose.plug fs b).value.2.span.length) (Rose.plug (tags fs) f)) (span : Span) :
    ∃ root node d', (do
      let (new, d') ← d.putForm (handle b) f .current
      let d' ← d'.commitNode parenthesised new span
      pure (.reparsed d'.root new, d') : Checked (Outcome × Document)) =
        .ok (.reparsed root node, d') ∧
      d'.text.current = d.text.current ∧ d'.tree.form d'.root = .ok (Rose.plug (tags fs) f) := by
  obtain ⟨tree, ids, fs', c, put, holds', tags_eq, form_c⟩ := putForm_current holds f
  have form_root : Branch.form (Rose.plug fs' c) = Rose.plug (tags fs) f := by
    rw [form_plug, tags_eq, form_c]
  have same_span := span_root_eq (b := b) (c := c) tags_eq
  obtain ⟨d', committed, same_text, form'⟩ :=
    commitNode_keeps (d := { d with tree := tree, ids := ids }) holds' form_root
      (fun inner_node => by rw [same_span inner_node]; exact inside) fits plain
      (fun inner_node => by rw [same_span inner_node]; exact reads) span
  refine ⟨d'.root, handle c, d', ?_, same_text, form'⟩
  rw [put, ok_bind]
  simp only [committed, ok_bind, pure_eq_ok]

/-- Reading again after a change: it reads some node again if and only if the whole text reads, and
then the tree is in step. -/
theorem reread_agrees (focus : Focus d.tree bs.length fs b gs w)
    (text : d.text.current = bs ++ spelling [wrap gs w] ++ bs') (kept : Kept [wrap gs w])
    (blank : ∀ c ∈ bs, Text.isBlank c = true) (blank' : ∀ c ∈ bs', Text.isBlank c = true)
    (fits : d.text.currentLength + 1 < positionLimit) (plain : ';' ∉ d.text.current)
    (renews : Renews bs.length gs w) :
    ∃ outcome d', d.reread parenthesised (handle b) = .ok (outcome, d') ∧
      d'.text.current = d.text.current ∧
      (outcome.isReparsed = true → ∃ f, Reads 0 d.text.current f ∧ d'.tree.form d'.root = .ok f) ∧
      (outcome.isReparsed = false → d' = d ∧ ∀ f, ¬Reads 0 d.text.current f) := by
  have whole := focus.whole
  have nested : (Branch.form (Rose.plug fs b)).Nested := nested_formsOf (by rw [whole]; simp)
  have root_span : (Rose.plug fs b).value.2.span =
      Span.sized (bs.length + currentCount (left [])) (wrap gs w).room := by
    obtain ⟨-, start, stop⟩ :=
      nests (wrap gs w) _ (Branch.form (Rose.plug fs b)) (by rw [whole]; simp)
    rw [span_form] at start stop
    exact Span.ext start stop
  obtain ⟨-, -, root_stop, root_chars⟩ :=
    chars_under (List.append_nil gs).symm text kept root_span
  have root_inside : (Rose.plug fs b).value.2.span.stop ≤ d.text.currentLength := by
    rw [← root_stop, ← length_current, text]
    simp [left]
  have root_start : (Rose.plug fs b).value.2.span.start = bs.length := by
    rw [root_span]
    rfl
  rcases rereadFrom_spec focus.holds focus.holds.depth_lt nested root_inside fits plain with
    ⟨inner, outer, f, rfl, rereads, ran⟩ | ⟨ran, fails⟩
  · obtain ⟨gs₁, gs₂, gs_eq, found⟩ := focus.climb
    obtain ⟨split, start, stop, chars⟩ := chars_under gs_eq text kept found.span_eq
    have reads : Reads (bs.length + currentCount (left gs₂)) (spelling [wrap gs₁ w]) f := by
      have := rereads.reads
      rw [chars, found.span_eq] at this
      exact this
    have outer_iff : outer = [] ↔ gs₂ = [] := by
      have := congrArg List.length found.tags_eq
      cases outer <;> cases gs₂ <;> simp [tags, tagsAt] at this ⊢
    have reads_whole : Reads bs.length (spelling [wrap gs w])
        (Rose.plug (tagsAt bs.length gs₂ (wrap gs₁ w).room) f) := by
      refine renews gs₁ gs₂ f gs_eq reads fun inner_node => ?_
      obtain ⟨apart, apart'⟩ := rereads.apart (mt outer_iff.mp inner_node)
      constructor
      · rw [split, ← start] at apart
        exact apart.parted.shrink
      · rw [split, ← List.append_assoc, ← stop] at apart'
        exact apart'.parted.shrink
    obtain ⟨root, node, d', renewed, same_text, form'⟩ :=
      renewNode_keeps found.holds f (by rw [← Rose.plug_append]; exact root_inside)
        (Nat.lt_of_succ_lt fits) plain
        (by rw [← Rose.plug_append, root_chars, root_start, found.tags_eq]; exact reads_whole)
        (Rose.plug inner b).value.2.span
    rw [found.tags_eq] at form'
    refine ⟨.reparsed root node, d', ?_, same_text, ?_, by simp [Outcome.isReparsed]⟩
    · rw [reread, ran, renewed]
    · intro _
      refine ⟨_, ?_, form'⟩
      rw [text]
      exact Reads.pad (by simpa using reads_whole) blank blank'
  · refine ⟨.pending d.root, d, ran, rfl, by simp [Outcome.isReparsed], fun _ => ⟨rfl, ?_⟩⟩
    intro f reads
    refine fails f ?_
    rw [root_chars, root_start]
    rw [text] at reads
    simpa using reads.strip blank blank'

/-! ## Strokes -/

/-- A character typed or deleted. -/
inductive Stroke where
  | insert (char : Char) (position : Nat)
  | delete (position : Nat)

namespace Stroke

def run (d : Document) : Stroke → Checked (Edited Outcome)
  | .insert c position => d.insert parenthesised c position
  | .delete position => d.delete parenthesised position

/-- The text after a stroke. -/
def applied (text : List Char) : Stroke → List Char
  | .insert c position => typedText text c position
  | .delete position => text.eraseIdx position

/-- The stroke falls inside of the text and types no semicolon. -/
def Fits (text : List Char) : Stroke → Prop
  | .insert c position => c ≠ ';' ∧ position ≤ text.length
  | .delete position => position < text.length

end Stroke

/-- A character goes past the deleted ones at its position if it starts its node. -/
def typed (d : Document) (span : Span) (c : Char) (position : Nat) : Checked Buffer :=
  if span.start = position then d.text.insertPastDeleted c position else d.text.insert c position

theorem insert_run {d₁ : Document} {span : Span} {position : Nat} {c : Char} {text : Buffer}
    (inside : position ≤ d.text.currentLength)
    (around : d.nodeAround position 0 = .ok (handle b, d₁)) (same : d₁.text = d.text)
    (is_span : d₁.tree.span (handle b) = .ok span) (is_typed : d.typed span c position = .ok text) :
    d.insert parenthesised c position = (do
      let d₂ ← { d₁ with text := text }.makeRoom (handle b) position 1
      let (outcome, d₃) ← d₂.reread parenthesised (handle b)
      pure (.ok outcome, d₃)) := by
  rw [typed] at is_typed
  rw [insert, if_neg (by omega), around]
  simp only [ok_bind, is_span, same]
  by_cases here : span.start = position
  · rw [if_pos here] at is_typed
    simp only [if_pos here, is_typed, ok_bind]
  · rw [if_neg here] at is_typed
    simp only [if_neg here, is_typed, ok_bind]

theorem typed_current {position : Nat} (span : Span) (c : Char)
    (inside : position ≤ d.text.currentLength) :
    ∃ text, d.typed span c position = .ok text ∧
      text.current = typedText d.text.current c position := by
  rw [typed]
  split
  · exact insertPastDeleted_current d.text c inside
  · exact insert_current d.text c inside

theorem delete_run {d₁ : Document} {position : Nat} {text : Buffer}
    (inside : position < d.text.currentLength)
    (around : d.nodeAround position 1 = .ok (handle b, d₁)) (same : d₁.text = d.text)
    (deleted : d.text.delete position = .ok text) :
    d.delete parenthesised position = (do
      let d₂ ← { d₁ with text := text }.makeRoom (handle b) (position + 1) (-1)
      let (outcome, d₃) ← d₂.reread parenthesised (handle b)
      pure (.ok outcome, d₃)) := by
  rw [delete, if_neg (by omega), around]
  simp only [ok_bind, same, deleted]

/-- What follows the choice of the node: room is made and the node is read again. -/
theorem stroke_spec {kind : Kind} {us vs : List Weave} {old new : List Cell} {seam : Nat}
    {distance : Int}
    (focus : Focus d.tree bs.length fs b gs (.node kind (us ++ old.map cell ++ vs)))
    (text : d.text.current =
      bs ++ spelling [wrap gs (.node kind (us ++ new.map cell ++ vs))] ++ bs')
    (kept : Kept [wrap gs (.node kind (us ++ new.map cell ++ vs))])
    (grows : (currentCount new : Int) = currentCount old + distance)
    (ahead : ∀ f ∈ formsAt (bs.length + currentCount (left gs)) us, (Form.span f).start < seam)
    (behind : seam ≤ bs.length + currentCount (left gs) + width us + currentCount old)
    (blank : ∀ c ∈ bs, Text.isBlank c = true) (blank' : ∀ c ∈ bs', Text.isBlank c = true)
    (fits : d.text.currentLength + 1 < positionLimit) (plain : ';' ∉ d.text.current)
    (renews : Renews bs.length gs (.node kind (us ++ new.map cell ++ vs))) :
    ∃ outcome d', (do
        let d₂ ← d.makeRoom (handle b) seam distance
        let (outcome, d₃) ← d₂.reread parenthesised (handle b)
        pure (.ok outcome, d₃) : Checked (Edited Outcome)) = .ok (.ok outcome, d') ∧
      d'.text.current = d.text.current ∧
      (outcome.isReparsed = true → ∃ f, Reads 0 d.text.current f ∧ d'.tree.form d'.root = .ok f) ∧
      (outcome.isReparsed = false → (∀ f, ¬Reads 0 d.text.current f) ∧
        ∃ f, d'.tree.form d'.root = .ok f ∧
          formsOf bs.length (wrap gs (.node kind (us ++ new.map cell ++ vs))) = [f]) := by
  have measured := room_eq kept
  have total : bs.length + (currentCount (left gs) + width (us ++ new.map cell ++ vs) +
      currentCount (right gs)) ≤ d.text.currentLength := by
    rw [← length_current, text, List.length_append, List.length_append, ← measured, room,
      cells_wrap, currentCount_append, currentCount_append]
    simp only [cells_node, width]
    omega
  obtain ⟨tree, fs', b', made, handle_eq, focus'⟩ :=
    makeRoom_spec focus grows ahead behind (by omega)
  obtain ⟨outcome, d', ran, same, reparsed, pending⟩ :=
    reread_agrees (d := { d with tree := tree }) focus' text kept blank blank' fits plain renews
  refine ⟨outcome, d', ?_, same, reparsed, ?_⟩
  · rw [made, ok_bind, ← handle_eq, ran, ok_bind]
    rfl
  · intro not
    obtain ⟨rfl, fails⟩ := pending not
    exact ⟨fails, _, focus'.holds.form, focus'.whole⟩

/-! ## The node that a stroke belongs to -/

/-- The node that a stroke belongs to, in a weave of kept cells with blanks around it. -/
structure Seated (d d₁ : Document) (position count : Nat) (bs : List Char) (w : Weave)
    (bs' : List Char) (fs : List (Rose.Frame (Handle × Node))) (b : Branch) (gs : List Weave.Frame)
    (kind : Kind) (parts : List Weave) : Prop where
  around : d.nodeAround position count = .ok (handle b, d₁)
  same : d₁.text = d.text
  text : d.text.current = bs ++ spelling [w] ++ bs'
  blank : ∀ c ∈ bs, Text.isBlank c = true
  blank' : ∀ c ∈ bs', Text.isBlank c = true
  kept : Kept [w]
  site : Site d₁.tree position count (keptCells bs) w fs b gs kind parts

/-- The node is found in the weave of the document, or the root takes in blanks beside it. -/
theorem exists_seated {position count : Nat} (holds : Holds d.tree b)
    (form : formsOf bs.length w = [Branch.form b])
    (text : d.text.current = bs ++ spelling [w] ++ bs') (blank : ∀ c ∈ bs, Text.isBlank c = true)
    (blank' : ∀ c ∈ bs', Text.isBlank c = true) (kept : Kept [w]) (single : count ≤ 1)
    (enough : position + count ≤ d.text.currentLength) :
    (∃ fs n gs kind parts, Seated d d position count bs w bs' fs n gs kind parts ∧
      position < bs.length + currentCount (left gs) + width parts) ∨
    b.value.2.span.contains position = false ∧ ∃ d₁ bs₁ v bs₁' n kind parts,
      Seated d d₁ position count bs₁ v bs₁' [] n [] kind parts ∧
      ∀ p p', (formsOf p v).map Form.shape = (formsOf p' w).map Form.shape := by
  have count_bs := currentCount_keptCells bs
  rw [← count_bs] at form
  cases contained : b.value.2.span.contains position with
  | true =>
    obtain ⟨fs, n, gs, kind, parts, around, site, inner⟩ :=
      nodeAround_inside holds form single contained
    rw [count_bs] at inner
    exact .inl ⟨fs, n, gs, kind, parts, ⟨around, rfl, text, blank, blank', kept, site⟩, inner⟩
  | false =>
    obtain ⟨kind, parts, rfl⟩ := is_node_of_form form
    have total : position + count ≤
        currentCount (keptCells bs) + width parts + currentCount (keptCells bs') := by
      have measured := room_eq kept
      rw [room_node, spelling_node] at measured
      rw [count_bs, currentCount_keptCells, measured]
      rwa [← length_current, text, List.length_append, List.length_append, spelling_node] at enough
    obtain ⟨before', la, ra, behind', tree, n, before_eq, behind_eq, around, site, -⟩ :=
      nodeAround_outside _ holds form single contained total
    obtain ⟨bs₁, bs₂, rfl, rfl, rfl⟩ := List.map_eq_append_iff.mp before_eq
    obtain ⟨bs₂', bs₁', rfl, rfl, rfl⟩ := List.map_eq_append_iff.mp behind_eq
    refine .inr ⟨rfl, _, bs₁, _, bs₁', n, kind, _, ⟨around, rfl, ?_, ?_, ?_, ?_, site⟩,
      fun p p' => ?_⟩
    · rw [text]
      simp only [spelling, stored_cons, stored_nil, cells_node, stored_append, stored_map_cell,
        List.map_append, List.append_nil, List.append_assoc]
      simp only [List.map_map, Function.comp_def, List.map_id']
    · exact fun c mem => blank c (by simp [mem])
    · exact fun c mem => blank' c (by simp [mem])
    · have inner := kept_node.mp kept
      intro c mem
      simp only [stored_cons, cells_node, stored_append, stored_map_cell, stored_nil,
        List.append_nil, List.mem_append, List.mem_map] at mem
      rcases mem with (⟨c, -, rfl⟩ | mem) | ⟨c, -, rfl⟩
      · rfl
      · exact inner c mem
      · rfl
    · refine alike_node (fun p p' => ?_) p p'
      simp only [formsAt_append, formsAt_map_cell, List.nil_append, List.append_nil]
      exact shape_formsAt _ _ _

theorem spelling_change (gs : List Weave.Frame) (kind : Kind) (us vs : List Weave)
    (mid : List Cell) :
    bs ++ spelling [wrap gs (.node kind (us ++ mid.map cell ++ vs))] ++ bs' =
      (bs ++ ((left gs).map Cell.char ++ spelling us)) ++
        (mid.map Cell.char ++ (spelling vs ++ ((right gs).map Cell.char ++ bs'))) := by
  simp [spelling, cells_wrap]

theorem length_ahead {kind : Kind} {us vs : List Weave} {old : List Cell}
    (kept : Kept [wrap gs (.node kind (us ++ old.map cell ++ vs))]) :
    (bs ++ ((left gs).map Cell.char ++ spelling us)).length =
      bs.length + currentCount (left gs) + width us := by
  obtain ⟨-, kept_parts, -⟩ := kept_wrap.mp kept
  rw [kept_node, List.append_assoc, kept_append] at kept_parts
  rw [currentCount_left kept, kept_parts.1.width]
  simp [Nat.add_assoc]

/-- What a stroke comes to, given a weave of the new text: a node is read again if and only if the
text reads, and until then the tree keeps the forms of the weave. -/
structure Answered (d : Document) (s : Stroke) (bs : List Char) (w : Weave)
    (bs' : List Char) : Prop where
  text : s.applied d.text.current = bs ++ spelling [w] ++ bs'
  kept : Kept [w]
  ran : ∃ outcome d', s.run d = .ok (.ok outcome, d') ∧ d'.text.current = s.applied d.text.current ∧
    (outcome.isReparsed = true →
      ∃ f, Reads 0 (s.applied d.text.current) f ∧ d'.tree.form d'.root = .ok f) ∧
    (outcome.isReparsed = false → (∀ f, ¬Reads 0 (s.applied d.text.current) f) ∧
      ∃ f, d'.tree.form d'.root = .ok f ∧ formsOf bs.length w = [f])

section

variable {d₁ : Document} {position : Nat} {kind : Kind} {parts : List Weave}
  (fits : d.text.currentLength + 2 < positionLimit) (plain : ';' ∉ d.text.current)

include fits plain

theorem Seated.insert (seated : Seated d d₁ position 0 bs w bs' fs b gs kind parts) {c : Char}
    (not_comment : c ≠ ';') : ∃ us vs, parts = us ++ vs ∧
      bs.length + currentCount (left gs) + width us = position ∧
      (Renews bs.length gs (.node kind (us ++ [⟨c, .kept⟩].map cell ++ vs)) →
        Answered d (.insert c position) bs
          (wrap gs (.node kind (us ++ [⟨c, .kept⟩].map cell ++ vs))) bs') := by
  obtain ⟨around, same, old_text, blank, blank', kept, site⟩ := seated
  have wrapped := site.wrapped
  obtain ⟨us, vs, rfl, seam, ahead⟩ :=
    exists_seam site.after (by simpa using site.enough) site.outside
  have parts_eq : us ++ vs = us ++ ([] : List Cell).map cell ++ vs := by simp
  have focus := site.focus
  rw [currentCount_keptCells] at seam ahead focus
  rw [← wrapped, parts_eq] at kept old_text
  rw [spelling_change] at old_text
  have inside : position ≤ d.text.currentLength := by
    rw [← length_current, old_text, ← seam, ← length_ahead kept]
    exact (List.sublist_append_left _ _).length_le
  obtain ⟨text, is_typed, text_eq⟩ := typed_current (d := d) b.value.2.span c inside
  have ran := insert_run inside around same focus.holds.hole.span_eq is_typed
  have new_text : typedText d.text.current c position =
      bs ++ spelling [wrap gs (.node kind (us ++ [⟨c, .kept⟩].map cell ++ vs))] ++ bs' := by
    rw [old_text, spelling_change, typedText, ← seam, ← length_ahead kept, List.take_left,
      List.drop_left]
    simp
  have length_eq : text.currentLength = d.text.currentLength + 1 := by
    rw [← length_current, ← length_current, text_eq, length_typedText]
  have plain' : ';' ∉ text.current := by
    rw [text_eq]
    exact not_mem_typedText plain not_comment
  have fits' : text.currentLength + 1 < positionLimit := by omega
  have grows : (currentCount [⟨c, .kept⟩] : Int) = currentCount [] + 1 := by simp [Cell.isCurrent]
  have kept_new : Kept [wrap gs (.node kind (us ++ [⟨c, .kept⟩].map cell ++ vs))] :=
    kept_change kept (by simp)
  rw [parts_eq] at focus
  refine ⟨us, vs, rfl, seam, fun renews => ⟨new_text, kept_new, ?_⟩⟩
  obtain ⟨outcome, d', finished, current, answer⟩ :=
    stroke_spec (d := { d₁ with text := text }) focus
      (text_eq.trans new_text) kept_new grows ahead (by simp [seam]) blank blank' fits'
        plain' renews
  rw [text_eq] at current answer
  exact ⟨outcome, d', ran.trans finished, current, answer⟩

theorem Seated.delete (seated : Seated d d₁ position 1 bs w bs' fs b gs kind parts) :
    ∃ us c vs, parts = us ++ [c].map cell ++ vs ∧
      bs.length + currentCount (left gs) + width us = position ∧
      d.text.current[position]? = some c.char ∧
      (Renews bs.length gs (.node kind (us ++ [].map cell ++ vs)) →
        Answered d (.delete position) bs (wrap gs (.node kind (us ++ [].map cell ++ vs))) bs') := by
  obtain ⟨around, same, old_text, blank, blank', kept, site⟩ := seated
  have wrapped := site.wrapped
  obtain ⟨us, c, vs, rfl, seam, current⟩ := exists_cell site.after site.enough site.outside
  have parts_eq : us ++ .cell c :: vs = us ++ [c].map cell ++ vs := by simp
  have focus := site.focus
  rw [currentCount_keptCells] at seam focus
  rw [← wrapped, parts_eq] at kept old_text
  rw [spelling_change] at old_text
  have char : d.text.current[position]? = some c.char := by
    rw [old_text, ← seam, ← length_ahead kept, List.getElem?_append_right (Nat.le_refl _),
      Nat.sub_self]
    rfl
  have inside : position < d.text.currentLength := by
    rw [← length_current]
    exact (List.getElem?_eq_some_iff.mp char).1
  obtain ⟨text, deleted, text_eq⟩ := delete_current d.text inside
  have ran := delete_run inside around same deleted
  have new_text : d.text.current.eraseIdx position =
      bs ++ spelling [wrap gs (.node kind (us ++ ([] : List Cell).map cell ++ vs))] ++ bs' := by
    rw [old_text, spelling_change, ← seam, ← length_ahead kept,
      List.eraseIdx_append_of_length_le (Nat.le_refl _)]
    simp
  have length_eq : text.currentLength + 1 = d.text.currentLength := by
    rw [← length_current, text_eq, List.length_eraseIdx_of_lt (by rwa [length_current]),
      length_current]
    omega
  have fits' : text.currentLength + 1 < positionLimit := by omega
  have shrinks : (currentCount [] : Int) = currentCount [c] + -1 := by simp [current]
  have ahead : ∀ f ∈ formsAt (bs.length + currentCount (left gs)) us,
      (Form.span f).start < position + 1 := formsAt_start_lt seam
  have kept_new : Kept [wrap gs (.node kind (us ++ [].map cell ++ vs))] :=
    kept_change kept (by simp)
  rw [parts_eq] at focus
  refine ⟨us, c, vs, parts_eq, seam, char, fun renews => ⟨new_text, kept_new, ?_⟩⟩
  obtain ⟨outcome, d', finished, same_text, answer⟩ :=
    stroke_spec (d := { d₁ with text := text }) focus
      (text_eq.trans new_text) kept_new shrinks ahead (by simp [current, seam]) blank blank' fits'
      (by rw [text_eq]; exact fun mem => plain (List.mem_of_mem_eraseIdx mem)) renews
  rw [text_eq] at same_text answer
  exact ⟨outcome, d', ran.trans finished, same_text, answer⟩

end

/-! ## Strokes in a document that is in step -/

/-- The node that a stroke belongs to, in the weave of a text that the tree is in step with. What
surrounds it is good, unless it is the root. -/
structure Struck (d d₁ : Document) (f : Form) (position count : Nat) (bs : List Char) (w : Weave)
    (bs' : List Char) (fs : List (Rose.Frame (Handle × Node))) (b : Branch)
    (gs : List Weave.Frame) (kind : Kind) (parts : List Weave) : Prop extends
    Seated d d₁ position count bs w bs' fs b gs kind parts where
  shape : ∀ p, (formsOf p w).map Form.shape = [f.shape]
  good : gs ≠ [] → Good false w ∧ position < bs.length + currentCount (left gs) + width parts

theorem exists_struck {f : Form} {position count : Nat} (holds : Holds d.tree b)
    (form : Branch.form b = f) (reads : Reads 0 d.text.current f) (single : count ≤ 1)
    (enough : position + count ≤ d.text.currentLength) :
    ∃ d₁ bs w bs' fs b gs kind parts,
      Struck d d₁ f position count bs w bs' fs b gs kind parts := by
  obtain ⟨bs, bs', w, text, blank, blank', kept, good, form_w⟩ := weave_of_reads reads
  rw [Nat.zero_add] at form_w
  have shape_w (p : Nat) : (formsOf p w).map Form.shape = [f.shape] := by
    have same := shape_formsAt p bs.length [w]
    rwa [formsAt_singleton, formsAt_singleton, form_w] at same
  rcases exists_seated holds (form_w.trans (by rw [form])) text blank blank' kept single enough with
    ⟨fs, n, gs, kind, parts, seated, inner⟩ | ⟨-, d₁, bs₁, v, bs₁', n, kind, parts, seated, same⟩
  · exact ⟨d, bs, w, bs', fs, n, gs, kind, parts, ⟨seated, shape_w, fun _ => ⟨good, inner⟩⟩⟩
  · exact ⟨d₁, bs₁, v, bs₁', [], n, [], kind, parts,
      ⟨seated, fun p => (same p p).trans (shape_w p), fun inner => absurd rfl inner⟩⟩

section

variable {d₁ : Document} {f : Form} {position count : Nat} {kind : Kind} {us vs : List Weave}
  {old new : List Cell}

/-- In a good weave it is enough that one node around the change reads. -/
theorem Seated.renews
    (seated : Seated d d₁ position count bs w bs' fs b gs kind (us ++ old.map cell ++ vs))
    (good : gs ≠ [] → Good false w) (kept_new : ∀ c ∈ new, c.status = .kept)
    (tail : gs ≠ [] → stored vs ≠ [] ∨ new = [] ∧ ∃ t, old = [t])
    (fits : d.text.currentLength + 2 < positionLimit) (plain : ';' ∉ d.text.current) :
    Renews bs.length gs (.node kind (us ++ new.map cell ++ vs)) := by
  obtain ⟨-, -, text, -, -, kept, site⟩ := seated
  have wrapped := site.wrapped
  subst wrapped
  intro gs₁ gs₂ g gs_eq reads parted
  subst gs_eq
  cases gs₂ with
  | nil => simpa [tagsAt, left] using reads
  | cons g₁ gs₂ =>
    refine reads_renewed (good (by simp)) kept kept_new reads (fun h => (parted h).1)
      (fun h => (parted h).2) (fun _ => ?_) ?_ ?_
    · exact (tail (by simp)).imp (fun some => by simp [some]) id
    · rw [← length_current, text, List.length_append, List.length_append] at fits
      have cells_length : (spelling [wrap (gs₁ ++ g₁ :: gs₂)
          (.node kind (us ++ old.map cell ++ vs))]).length =
          (wrap (gs₁ ++ g₁ :: gs₂) (.node kind (us ++ old.map cell ++ vs))).cells.length := by
        simp [spelling]
      omega
    · intro mem
      refine plain ?_
      rw [text]
      exact List.mem_append_left _ (List.mem_append_right _ mem)

/-- The changed weave has the shape of the old one. -/
theorem Struck.shape_now
    (struck : Struck d d₁ f position count bs w bs' fs b gs kind (us ++ old.map cell ++ vs))
    (new : List Cell) (p : Nat) :
    (formsOf p (wrap gs (.node kind (us ++ new.map cell ++ vs)))).map Form.shape = [f.shape] := by
  have alike :
      Alike (.node kind (us ++ old.map cell ++ vs)) (.node kind (us ++ new.map cell ++ vs)) :=
    alike_cells old new
  have same := alike.wrap gs p p
  rw [struck.site.wrapped, struck.shape] at same
  exact same.symm

end

/-- What a stroke comes to, in terms of what the texts before and after it read as. -/
def Accounted (d : Document) (f : Form) (s : Stroke) : Prop :=
  ∃ outcome d', s.run d = .ok (.ok outcome, d') ∧ d'.text.current = s.applied d.text.current ∧
    (outcome.isReparsed = true →
      ∃ f, Reads 0 (s.applied d.text.current) f ∧ d'.tree.form d'.root = .ok f) ∧
    (outcome.isReparsed = false → (∀ f, ¬Reads 0 (s.applied d.text.current) f) ∧
      ∃ f', d'.tree.form d'.root = .ok f' ∧ f'.shape = f.shape)

theorem Answered.accounted {s : Stroke} {f : Form} (answered : Answered d s bs w bs')
    (shape : (formsOf bs.length w).map Form.shape = [f.shape]) : Accounted d f s := by
  obtain ⟨-, -, outcome, d', ran, current, reparsed, pending⟩ := answered
  refine ⟨outcome, d', ran, current, reparsed, fun not => ?_⟩
  obtain ⟨fails, f', form', is_form⟩ := pending not
  rw [is_form] at shape
  exact ⟨fails, f', form', by simpa using shape⟩

section

variable {f : Form} (holds : Holds d.tree b) (form : Branch.form b = f)
  (reads : Reads 0 d.text.current f) (plain : ';' ∉ d.text.current)
  (fits : d.text.currentLength + 2 < positionLimit)

include holds form reads plain fits

theorem insert_reads {c : Char} {position : Nat} (not_comment : c ≠ ';')
    (inside : position ≤ d.text.current.length) : Accounted d f (.insert c position) := by
  rw [length_current] at inside
  obtain ⟨d₁, bs, w, bs', fs, b, gs, kind, parts, struck⟩ :=
    exists_struck holds form reads (Nat.zero_le 1) inside
  obtain ⟨us, vs, rfl, seam, answer⟩ := struck.toSeated.insert fits plain not_comment
  have parts_eq : us ++ vs = us ++ ([] : List Cell).map cell ++ vs := by simp
  have some_behind (inner : gs ≠ []) : stored vs ≠ [] := by
    intro none
    have bound := (struck.good inner).2
    have empty : width vs = 0 := by rw [width, none]; rfl
    rw [width_append] at bound
    omega
  rw [parts_eq] at struck
  have renews : Renews bs.length gs (.node kind (us ++ [⟨c, .kept⟩].map cell ++ vs)) :=
    struck.toSeated.renews (fun inner => (struck.good inner).1) (by simp)
      (fun inner => .inl (some_behind inner)) fits plain
  exact (answer renews).accounted (struck.shape_now _ _)

theorem delete_reads {position : Nat} (strikes : position < d.text.current.length) :
    Accounted d f (.delete position) := by
  have inside : position < d.text.currentLength := by rw [← length_current]; exact strikes
  obtain ⟨d₁, bs, w, bs', fs, b, gs, kind, parts, struck⟩ :=
    exists_struck holds form reads (Nat.le_refl 1) inside
  obtain ⟨us, c, vs, rfl, -, -, answer⟩ := struck.toSeated.delete fits plain
  have renews : Renews bs.length gs (.node kind (us ++ [].map cell ++ vs)) :=
    struck.toSeated.renews (fun inner => (struck.good inner).1) (by simp)
      (fun _ => .inr ⟨rfl, c, rfl⟩) fits plain
  exact (answer renews).accounted (struck.shape_now _ _)

theorem stroke_reads (s : Stroke) (strikes : s.Fits d.text.current) : Accounted d f s := by
  cases s with
  | insert c position => exact insert_reads holds form reads plain fits strikes.1 strikes.2
  | delete position => exact delete_reads holds form reads plain fits strikes

end

/-- In a document without comments that is in step with its text, a character typed or deleted has a
node read again exactly if the new text reads as a form, and then the document is in step again.
Otherwise the tree keeps its kinds and its structure. -/
theorem stroke_agrees_with_fresh_reading (d : Document) (linked : d.WellLinked)
    (plain : ';' ∉ d.text.current) (in_step : d.InStep)
    (short : d.text.currentLength + 2 < positionLimit) (s : Stroke)
    (strikes : s.Fits d.text.current) :
    ∃ outcome d', s.run d = .ok (.ok outcome, d') ∧ d'.text.current = s.applied d.text.current ∧
      (outcome.isReparsed = true ↔ ∃ f, freshForm (s.applied d.text.current) = .ok f) ∧
      (outcome.isReparsed = true → d'.InStep) ∧
      (outcome.isReparsed = false → ∃ f f', d.tree.form d.root = .ok f ∧
        d'.tree.form d'.root = .ok f' ∧ f'.shape = f.shape) := by
  obtain ⟨b, holds⟩ := linked
  have reads := (parses_iff_reads plain).mp (in_step.parses holds (by omega))
  obtain ⟨outcome, d', ran, text_eq, reparsed, pending⟩ :=
    stroke_reads holds rfl reads plain short s strikes
  have length' : (s.applied d.text.current).length < positionLimit := by
    cases s with
    | insert c position =>
      simp only [Stroke.applied, typedText, List.length_append, List.length_take, List.length_cons,
        List.length_drop, length_current]
      omega
    | delete position =>
      have := List.length_eraseIdx_le d.text.current position
      rw [length_current] at this
      simp only [Stroke.applied]
      omega
  have plain' : ';' ∉ s.applied d.text.current := by
    cases s with
    | insert c position =>
      simp only [Stroke.applied, typedText, List.mem_append, List.mem_cons, not_or]
      exact ⟨fun mem => plain (List.mem_of_mem_take mem), fun h => strikes.1 h.symm,
        fun mem => plain (List.mem_of_mem_drop mem)⟩
    | delete position => exact fun mem => plain (List.mem_of_mem_eraseIdx mem)
  have fresh_iff (g : Form) : freshForm (s.applied d.text.current) = .ok g ↔
      Reads 0 (s.applied d.text.current) g :=
    (freshForm_eq_ok length').trans (parses_iff_reads plain')
  refine ⟨outcome, d', ran, text_eq, ⟨fun is_reparsed => ?_, ?_⟩, fun is_reparsed => ?_,
    fun not => ?_⟩
  · obtain ⟨g, reads', -⟩ := reparsed is_reparsed
    exact ⟨g, (fresh_iff g).mpr reads'⟩
  · rintro ⟨g, fresh'⟩
    cases is_reparsed : outcome.isReparsed with
    | true => rfl
    | false => exact absurd ((fresh_iff g).mp fresh') ((pending is_reparsed).1 g)
  · obtain ⟨g, reads', form'⟩ := reparsed is_reparsed
    refine ⟨g, ?_, form'⟩
    rw [text_eq]
    exact (fresh_iff g).mpr reads'
  · obtain ⟨-, f', form', shape_eq⟩ := pending not
    exact ⟨Branch.form b, f', holds.form, form', shape_eq⟩

/-- The text `(a)`, in which `b` was deleted and `a` typed, with its tree. -/
def listOfOne : Document where
  text := ⟨[⟨'(', .kept⟩, ⟨'b', .deleted⟩, ⟨'a', .inserted⟩, ⟨')', .kept⟩]⟩
  tree :=
    (Tree.ofForm (.node ⟨.list, Span.sized 0 3⟩ [.leaf ⟨.atom "a", Span.sized 1 1⟩]) .fromOne).1
  ids := .counting 3
  widened := false

theorem listOfOne_linked : listOfOne.WellLinked := by
  obtain ⟨b, holds, -⟩ := Tree.ofForm_holds
    (.node ⟨.list, Span.sized 0 3⟩ [.leaf ⟨.atom "a", Span.sized 1 1⟩]) .fromOne
  exact ⟨b, holds⟩

theorem listOfOne_inStep : listOfOne.InStep := by
  refine ⟨.node ⟨.list, Span.sized 0 3⟩ [.leaf ⟨.atom "a", Span.sized 1 1⟩], ?_, ?_⟩
  · decide +kernel
  · decide +kernel

/-- Without its end the list does not read, and the tree keeps its structure. -/
theorem listOfOne_waits_for_its_end :
    listOfOne.WellLinked ∧ listOfOne.InStep ∧ (∃ outcome d',
      (Stroke.delete 2).run listOfOne = .ok (.ok outcome, d') ∧ d'.text.current = ['(', 'a'] ∧
      (outcome.isReparsed = true ↔ ∃ f, freshForm ['(', 'a'] = .ok f) ∧
      (outcome.isReparsed = true → d'.InStep) ∧
      (outcome.isReparsed = false → ∃ f f', listOfOne.tree.form listOfOne.root = .ok f ∧
        d'.tree.form d'.root = .ok f' ∧ f'.shape = f.shape)) :=
  ⟨listOfOne_linked, listOfOne_inStep,
    stroke_agrees_with_fresh_reading listOfOne listOfOne_linked (by decide) listOfOne_inStep
      (by decide) (.delete 2) (show 2 < listOfOne.text.current.length by decide)⟩

end Document

end FormEdit
