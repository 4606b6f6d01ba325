import FormEdit.Proofs.Document.Commented
import FormEdit.Proofs.Document.CurrentText
import FormEdit.Proofs.Document.Handles
import FormEdit.Proofs.Document.Session
import FormEdit.Proofs.Weave.Retyping

/-!
# Taking back a keystroke

In a document without comments in which nothing is pending, a typed character is deleted again, or a
deleted one is typed again. The second stroke starts from the tree that the first one has left,
which is a stale one if that is pending, and it may fall in another node. Text and tree are as
before all the same (`strokes_are_taken_back`).
-/

namespace FormEdit

namespace Document

open Rose Buffer Branch Weave FormEdit.Language FormEdit.Tree

variable {d d₁ : Document} {b : Branch} {f : Form} {c : Char} {position : Nat}

theorem typed_after_erase {text : List Char} (char : text[position]? = some c) :
    typedText (text.eraseIdx position) c position = text := by
  obtain ⟨before, x, behind, rfl, rfl⟩ := exists_around (List.getElem?_eq_some_iff.mp char).1
  rw [List.getElem?_append_right (Nat.le_refl _), Nat.sub_self] at char
  cases char
  rw [erase_at, typed_at]

theorem erase_after_typed {text : List Char} (inside : position ≤ text.length) :
    (typedText text c position).eraseIdx position = text := by
  obtain ⟨before, behind, rfl, rfl⟩ := exists_before inside
  rw [typed_at, erase_at]

/-- What stands outside of the root is blank. -/
theorem blank_outside {bs bs' : List Char} {w : Weave}
    (form : formsOf bs.length w = [Branch.form b])
    (text : d.text.current = bs ++ spelling [w] ++ bs') (blank : ∀ c ∈ bs, Text.isBlank c = true)
    (blank' : ∀ c ∈ bs', Text.isBlank c = true) (kept : Kept [w])
    (outside : b.value.2.span.contains position = false)
    (char : d.text.current[position]? = some c) : Text.isBlank c = true := by
  obtain ⟨-, start, stop⟩ := nests w _ (Branch.form b) (by rw [form]; simp)
  rw [span_form] at start stop
  rw [room_eq kept] at stop
  rw [Span.contains_eq_false] at outside
  rw [text] at char
  by_cases ahead : position < bs.length
  · rw [List.append_assoc, List.getElem?_append_left ahead] at char
    exact blank c (List.mem_of_getElem? char)
  · rw [List.getElem?_append_right (by rw [List.length_append]; omega)] at char
    exact blank' c (List.mem_of_getElem? char)

/-- A text without one of its characters: a weave with a hole where that character stood, good and
kept with it, and blanks around the weave. -/
structure Holed (text : List Char) (c : Char) (position : Nat) (bs : List Char)
    (gs : List Weave.Frame) (kind : Kind) (us vs : List Weave) (bs' : List Char) : Prop where
  text : text = bs ++ spelling [wrap gs (.node kind (us ++ vs))] ++ bs'
  blank : ∀ c ∈ bs, Text.isBlank c = true
  blank' : ∀ c ∈ bs', Text.isBlank c = true
  good : Good false (wrap gs (.node kind (us ++ [⟨c, .kept⟩].map cell ++ vs)))
  kept : Kept [wrap gs (.node kind (us ++ [⟨c, .kept⟩].map cell ++ vs))]
  place : bs.length + (left gs).length + (stored us).length = position

section

variable (holds : Holds d.tree b) (form : Branch.form b = f) (reads : Reads 0 d.text.current f)
  (plain : ';' ∉ d.text.current) (fits : d.text.currentLength + 2 < positionLimit)

include holds form reads plain fits

/-- A deletion after which the text does not read leaves a hole in a node of the text. -/
theorem exists_holed (char : d.text.current[position]? = some c)
    (fails : ∀ f, ¬Reads 0 (d.text.current.eraseIdx position) f) :
    ∃ bs gs kind us vs bs',
      Holed (d.text.current.eraseIdx position) c position bs gs kind us vs bs' ∧
      Answered d (.delete position) bs (wrap gs (.node kind (us ++ vs))) bs' := by
  obtain ⟨bs, bs', w, text, blank, blank', kept, good, form_w⟩ := weave_of_reads reads
  rw [Nat.zero_add, ← form] at form_w
  have strikes := (List.getElem?_eq_some_iff.mp char).1
  rcases exists_seated holds form_w text blank blank' kept (Nat.le_refl 1)
    (by rwa [← length_current]) with ⟨fs, n, gs, kind, parts, seated, -⟩ | ⟨outside, -⟩
  · obtain ⟨us, c', vs, rfl, seam, char', answer⟩ := seated.delete fits plain
    have renews : Renews bs.length gs (.node kind (us ++ [].map cell ++ vs)) :=
      seated.renews (fun _ => good) (by simp) (fun _ => .inr ⟨rfl, c', rfl⟩) fits plain
    obtain rfl := seated.site.wrapped
    have is_kept : c'.status = .kept := kept c' (by simp [cells_wrap])
    obtain rfl : c' = ⟨c, .kept⟩ := by
      rw [char, Option.some.injEq] at char'
      rw [char', ← is_kept]
    have answered := answer renews
    rw [List.map_nil, List.append_nil] at answered
    have place : bs.length + (left gs).length + (stored us).length = position := by
      rw [← seam, ← length_ahead kept]
      simp [spelling, Nat.add_assoc]
    exact ⟨bs, gs, kind, us, vs, bs', ⟨answered.text, blank, blank', good, kept, place⟩, answered⟩
  · -- A character outside of the root is blank, and the text can do without it.
    obtain ⟨before, x, behind, text_eq, rfl⟩ := exists_around strikes
    rw [text_eq, List.getElem?_append_right (Nat.le_refl _), Nat.sub_self] at char
    cases char
    have is_blank := blank_outside form_w text blank blank' kept outside
      (by rw [text_eq, List.getElem?_append_right (Nat.le_refl _), Nat.sub_self]; rfl)
    have length := length_current d.text
    rw [text_eq] at reads fails plain length
    rw [erase_at] at fails
    obtain ⟨g, dropped⟩ := reads.drop (.inl is_blank) plain
    exact absurd dropped (fails g)

end

section

variable {bs bs' : List Char} {hs : List Weave.Frame} {kind : Kind} {us vs : List Weave}
  (holed : Holed d.text.current c position bs hs kind us vs bs')
  (fails : ∀ f, ¬Reads 0 d.text.current f) (plain : ';' ∉ d.text.current) (not_comment : c ≠ ';')
  (fits : d.text.currentLength + 2 < positionLimit)

include holed

theorem Holed.kept_old : Kept [wrap hs (.node kind (us ++ vs))] := by
  have kept_old : Kept [wrap hs (.node kind (us ++ [].map cell ++ vs))] :=
    kept_change holed.kept (by simp)
  rwa [List.map_nil, List.append_nil] at kept_old

theorem Holed.length : d.text.currentLength = position +
    ((stored vs).length + (right hs).length) + bs'.length := by
  have length_text := congrArg List.length holed.text
  have place := holed.place
  simp only [length_current, spelling, stored_cons, stored_nil, List.append_nil, cells_wrap,
    cells_node, stored_append, List.length_append, List.length_map] at length_text
  omega

include fails plain not_comment fits

/-- With the character in it again, any node that took in its place makes the whole text read. -/
theorem Holed.renews {gs : List Weave.Frame} {kind' : Kind} {us' vs' : List Weave}
    (wrapped : wrap gs (.node kind' (us' ++ vs')) = wrap hs (.node kind (us ++ vs)))
    (seam : bs.length + currentCount (left gs) + width us' = position)
    (inner : position < bs.length + currentCount (left gs) + width (us' ++ vs')) :
    Renews bs.length gs (.node kind' (us' ++ [⟨c, .kept⟩].map cell ++ vs')) := by
  have place := holed.place
  have length := holed.length
  have kept_now := holed.kept_old
  rw [← wrapped] at kept_now
  have kept_parts := kept_append.mp (kept_node.mp (kept_wrap.mp kept_now).2.1)
  have width_us : width us' = (stored us').length := by simp [kept_parts.1.width, spelling]
  have width_vs : width vs' = (stored vs').length := by simp [kept_parts.2.width, spelling]
  rw [width_append] at inner
  intro gs₁ gs₂ g gs_eq reads _
  subst gs_eq
  have counted : currentCount (left (gs₁ ++ gs₂)) = (left gs₂).length + (left gs₁).length := by
    rw [currentCount_left kept_now, left_append, List.length_append]
  refine reads_retyped holed.good holed.kept wrapped ?_ ?_ reads ?_ ?_ ?_
  · rw [left_append, List.length_append]
    omega
  · simp only [cells_wrap, cells_node, stored_append, List.length_append]
    omega
  · intro g reads
    refine fails g ?_
    rw [holed.text]
    exact Reads.pad (by simpa using reads) holed.blank holed.blank'
  · simp only [cells_wrap, cells_node, stored_append, stored_map_cell, List.length_append,
      List.length_singleton]
    omega
  · intro mem
    rw [holed.text] at plain
    simp only [spelling, stored_cons, stored_nil, List.append_nil, cells_wrap, cells_node,
      stored_append, stored_map_cell, List.map_append, List.mem_append, not_or] at mem plain
    have other : ';' ∉ [⟨c, .kept⟩].map Cell.char := by simpa using Ne.symm not_comment
    tauto

/-- The deleted character is typed again while the deletion is pending. -/
theorem Holed.insert (holds : Holds d.tree b)
    (form : formsOf bs.length (wrap hs (.node kind (us ++ vs))) = [Branch.form b]) :
    ∃ bs w bs', Answered d (.insert c position) bs w bs' := by
  have length := holed.length
  rcases exists_seated holds form holed.text holed.blank holed.blank' holed.kept_old (Nat.zero_le 1)
    (show position + 0 ≤ d.text.currentLength by omega) with
    ⟨fs, n, gs, kind', parts, seated, inner⟩ | ⟨-, d₁, bs₁, v, bs₁', n, kind', parts, seated, -⟩
  · obtain ⟨us', vs', rfl, seam, answer⟩ := seated.insert fits plain not_comment
    exact ⟨_, _, _,
      answer (holed.renews fails plain not_comment fits seated.site.wrapped seam inner)⟩
  · obtain ⟨us', vs', rfl, seam, answer⟩ := seated.insert fits plain not_comment
    exact ⟨_, _, _, answer (renews_root _ _)⟩

end

/-! ## Two strokes -/

/-- A document that shows the text and the tree of another one, with the same outline. -/
structure Restores (d d' : Document) : Prop where
  text : d'.text.current = d.text.current
  form : ∃ f, d.tree.form d.root = .ok f ∧ d'.tree.form d'.root = .ok f
  outline : ∃ shown, d.outline = .ok shown ∧ d'.outline = .ok shown

theorem Restores.of_form {d' : Document} (text : d'.text.current = d.text.current)
    (form : d.tree.form d.root = .ok f) (form' : d'.tree.form d'.root = .ok f) : Restores d d' := by
  refine ⟨text, ⟨f, form, form'⟩, f.outline, ?_, ?_⟩
  · rw [Document.outline, form]
    rfl
  · rw [Document.outline, form']
    rfl

/-- A stroke that leads back to the text of a document in step leads back to its tree. -/
theorem exists_restored {s : Stroke} {P : Document → Prop} (form : d.tree.form d.root = .ok f)
    (reads : Reads 0 d.text.current f) (plain : ';' ∉ d.text.current)
    (fits : d.text.currentLength < positionLimit)
    (back : s.applied d₁.text.current = d.text.current)
    (answered : ∃ outcome d₂, s.run d₁ = .ok (.ok outcome, d₂) ∧
      d₂.text.current = s.applied d₁.text.current ∧
      (outcome.isReparsed = true →
        ∃ f, Reads 0 (s.applied d₁.text.current) f ∧ d₂.tree.form d₂.root = .ok f) ∧
      (outcome.isReparsed = false → (∀ f, ¬Reads 0 (s.applied d₁.text.current) f) ∧ P d₂)) :
    ∃ outcome d₂, s.run d₁ = .ok (.ok outcome, d₂) ∧ Restores d d₂ := by
  obtain ⟨outcome, d₂, ran, current, reparsed, pending⟩ := answered
  rw [back] at current reparsed pending
  refine ⟨outcome, d₂, ran, ?_⟩
  cases taken : outcome.isReparsed with
  | false => exact absurd reads ((pending taken).1 f)
  | true =>
    obtain ⟨g, reads', form'⟩ := reparsed taken
    obtain rfl := reads.unique reads' (by rwa [Nat.zero_add, length_current]) plain
    exact .of_form current form form'

theorem form_of_holds (holds : Holds d.tree b) (form : d.tree.form d.root = .ok f) :
    Branch.form b = f :=
  Except.ok.inj (holds.form.symm.trans form)

/-- A deleted character is typed again. -/
theorem delete_then_insert (holds : Holds d.tree b) (form : Branch.form b = f)
    (reads : Reads 0 d.text.current f) (plain : ';' ∉ d.text.current)
    (fits : d.text.currentLength + 2 < positionLimit) (char : d.text.current[position]? = some c) :
    ∃ outcome d₁ outcome' d₂, d.delete parenthesised position = .ok (.ok outcome, d₁) ∧
      d₁.insert parenthesised c position = .ok (.ok outcome', d₂) ∧ Restores d d₂ := by
  have strikes := (List.getElem?_eq_some_iff.mp char).1
  have not_comment : c ≠ ';' := fun semicolon => plain (semicolon ▸ List.mem_of_getElem? char)
  have holds_form : d.tree.form d.root = .ok f := by rw [← form]; exact holds.form
  obtain ⟨outcome, d₁, ran, current, reparsed, pending⟩ :=
    delete_reads holds form reads plain fits strikes
  obtain ⟨b₁, holds₁⟩ := (delete_continues ⟨b, holds⟩ ran).linked
  change d₁.text.current = d.text.current.eraseIdx position at current
  have plain₁ : ';' ∉ d₁.text.current := by
    rw [current]
    exact fun mem => plain (List.mem_of_mem_eraseIdx mem)
  have length₁ : d₁.text.currentLength + 1 = d.text.currentLength := by
    rw [← length_current, current, List.length_eraseIdx_of_lt strikes, length_current]
    rw [length_current] at strikes
    omega
  have back : (Stroke.insert c position).applied d₁.text.current = d.text.current := by
    rw [current]
    exact typed_after_erase char
  cases taken : outcome.isReparsed with
  | true =>
    obtain ⟨g, reads₁, form₁⟩ := reparsed taken
    rw [Stroke.applied, ← current] at reads₁
    have inside₁ : position ≤ d₁.text.current.length := by
      rw [length_current] at strikes ⊢
      omega
    have answered :=
      insert_reads holds₁ (form_of_holds holds₁ form₁) reads₁ plain₁ (by omega) not_comment inside₁
    obtain ⟨outcome', d₂, ran₂, restores⟩ :=
      exists_restored holds_form reads plain (by omega) back answered
    exact ⟨outcome, d₁, outcome', d₂, ran, ran₂, restores⟩
  | false =>
    obtain ⟨fails, -⟩ := pending taken
    obtain ⟨bs, gs, kind, us, vs, bs', holed, answered⟩ :=
      exists_holed holds form reads plain fits char fails
    obtain ⟨_, _, again, -, -, pending'⟩ := answered.ran
    rw [ran] at again
    cases again
    obtain ⟨-, g, form₁, form_w⟩ := pending' taken
    rw [← form_of_holds holds₁ form₁] at form_w
    rw [Stroke.applied, ← current] at fails
    rw [← current] at holed
    obtain ⟨bs₁, w₁, bs₁', answered₁⟩ :=
      holed.insert fails plain₁ not_comment (by omega) holds₁ form_w
    obtain ⟨outcome', d₂, ran₂, restores⟩ :=
      exists_restored holds_form reads plain (by omega) back answered₁.ran
    exact ⟨outcome, d₁, outcome', d₂, ran, ran₂, restores⟩

/-- A typed character that was left pending is deleted: the buffer is as it was. -/
theorem delete_unread (kept : AllKept d.text.cells) (session : Session d₁)
    (typed : Overwrites position 0 1 d.text.cells d₁.text.cells)
    (current : d₁.text.current = typedText d.text.current c position)
    (inside : position ≤ d.text.current.length) (fits : d.text.currentLength + 3 < positionLimit) :
    ∃ outcome d₂, d₁.delete parenthesised position = .ok (.ok outcome, d₂) ∧ d₂.text = d.text ∧
      Orderly d₂ := by
  obtain ⟨sound, plain, -⟩ := session.orderly
  obtain ⟨b₁, la, w, ra, tracked⟩ := sound.tracked
  have length₁ : d₁.text.currentLength = d.text.currentLength + 1 := by
    rw [← length_current, ← length_current, current, length_typedText]
  have strikes : position < d₁.text.currentLength := by
    rw [length_current] at inside
    omega
  have fits₁ : d₁.text.currentLength + 2 < positionLimit := by omega
  obtain ⟨outcome, d₂, ran, current₂, sound₂⟩ := tracked.delete strikes plain fits₁
  obtain ⟨mid, fs, n, run_eq, reaches⟩ :=
    (Stroke.delete position).run_eq tracked.holds tracked.nested
      tracked.inside fits₁ (show position < d₁.text.current.length by rwa [length_current])
  have reread := ran
  rw [← Stroke.run, run_eq] at reread
  obtain ⟨⟨_, _⟩, reread, done⟩ := bind_eq_ok.mp reread
  cases done
  -- Whatever has been committed on the way, all cells have been kept already.
  have settles := rereadFrom_text reread
  have cells_eq : mid.text.cells = d.text.cells := kept.overwrites_back typed reaches.cells
  have kept_mid : AllKept mid.text.cells := cells_eq ▸ kept
  have text_eq : mid.text = d.text := congrArg Buffer.mk cells_eq
  have same : d₂.text = d.text :=
    eq_of_kept (settles.kept kept_mid) kept
      (settles.current.trans (congrArg Buffer.current text_eq))
  refine ⟨outcome, d₂, ran, same, sound₂, ?_, ?_⟩
  · rw [current₂]
    exact fun mem => plain (List.mem_of_mem_eraseIdx mem)
  · rw [same]
    omega

/-- A typed character is deleted again. -/
theorem insert_then_delete (session : Session d) (resting : Resting d b) (not_comment : c ≠ ';')
    (inside : position ≤ d.text.current.length) (fits : d.text.currentLength + 3 < positionLimit) :
    ∃ outcome d₁ outcome' d₂, d.insert parenthesised c position = .ok (.ok outcome, d₁) ∧
      d₁.delete parenthesised position = .ok (.ok outcome', d₂) ∧ Restores d d₂ ∧
      (outcome.isReparsed = false → d₂.text = d.text ∧ d₂.isSettled = true) := by
  have plain := session.orderly.plain
  have reads := (parses_iff_reads plain).mp resting.parses
  have fits' : d.text.currentLength + 2 < positionLimit := by omega
  obtain ⟨outcome, d₁, ran, current, reparsed, -⟩ :=
    insert_reads resting.holds rfl reads plain fits' not_comment inside
  have session₁ : Session d₁ := session.stroke (s := .insert c position) not_comment fits' ran
  cases outcome with
  | reparsed root node =>
    obtain ⟨g, reads₁, form₁⟩ := reparsed rfl
    obtain ⟨b₁, holds₁⟩ := (insert_continues ⟨b, resting.holds⟩ ran).linked
    change d₁.text.current = typedText d.text.current c position at current
    have length₁ : d₁.text.current.length = d.text.current.length + 1 := by
      rw [current, length_typedText]
    have back : (Stroke.delete position).applied d₁.text.current = d.text.current := by
      rw [current]
      exact erase_after_typed inside
    rw [Stroke.applied, ← current] at reads₁
    have strikes : position < d₁.text.current.length := by omega
    rw [length_current, length_current] at length₁
    have answered :=
      delete_reads holds₁ (form_of_holds holds₁ form₁) reads₁ session₁.orderly.plain
        (by omega) strikes
    obtain ⟨outcome', d₂, ran₂, restores⟩ :=
      exists_restored resting.holds.form reads plain (by omega) back answered
    exact ⟨_, d₁, outcome', d₂, ran, ran₂, restores, fun unread => by cases unread⟩
  | pending root =>
    have nested := resting.parses.nested
    have root_inside := (show Resting d (Rose.plug [] b) from resting).hole_inside
    obtain ⟨b', reaches⟩ := Stroke.pending_eq (s := .insert c position) resting.holds nested
      root_inside fits' inside ran
    obtain ⟨outcome', d₂, ran₂, same, orderly₂⟩ :=
      delete_unread resting.kept session₁ reaches.cells current inside fits
    have settled₂ : d₂.isSettled = true := isSettled_iff.mpr (by rw [same]; exact resting.kept)
    obtain ⟨b₂, resting₂⟩ := orderly₂.resting settled₂
    have parses₂ := resting₂.parses
    rw [same] at parses₂
    have same_form : Branch.form b = Branch.form b₂ :=
      reads.unique ((parses_iff_reads plain).mp parses₂)
        (by rw [Nat.zero_add, length_current]; omega) plain
    have form₂ : d₂.tree.form d₂.root = .ok (Branch.form b) := by
      rw [same_form]
      exact resting₂.holds.form
    exact ⟨_, d₁, outcome', d₂, ran, ran₂,
      .of_form (congrArg Buffer.current same) resting.holds.form form₂, fun _ => ⟨same, settled₂⟩⟩

theorem ofText_text {text : String} {ids : IdSource}
    (read : ofText parenthesised text ids = .ok d) :
    d.text = Buffer.ofText text := by
  obtain ⟨form, -, ran⟩ := bind_eq_ok.mp read
  cases ran
  rfl

/-- In a document of a text without comments a typed character can be deleted again and a deleted
one typed again, whether or not the first of the two strokes was left pending: the text shows and
the tree is laid out as before. A typed character that was left pending leaves nothing behind in the
buffer. -/
theorem strokes_are_taken_back {text : String} {ids : IdSource} {d : Document}
    (plain : ';' ∉ text.toList) (short : text.toList.length + 3 < positionLimit)
    (read : ofText parenthesised text ids = .ok d) :
    (∀ c position, c ≠ ';' → position ≤ text.toList.length →
      ∃ outcome d₁ outcome' d₂, d.insert parenthesised c position = .ok (.ok outcome, d₁) ∧
        d₁.delete parenthesised position = .ok (.ok outcome', d₂) ∧ Restores d d₂ ∧
        (outcome.isReparsed = false → d₂.text = d.text ∧ d₂.isSettled = true)) ∧
    (∀ c position, text.toList[position]? = some c →
      ∃ outcome d₁ outcome' d₂, d.delete parenthesised position = .ok (.ok outcome, d₁) ∧
        d₁.insert parenthesised c position = .ok (.ok outcome', d₂) ∧ Restores d d₂) := by
  have session : Session d := .start plain (by omega) read
  have text_eq := ofText_text read
  have current : d.text.current = text.toList := by
    rw [text_eq]
    simpa using current_ofText text.toList
  have settled : d.isSettled = true := isSettled_iff.mpr (by rw [text_eq]; exact kept_ofText text)
  obtain ⟨b, resting⟩ := session.orderly.resting settled
  have length : d.text.currentLength = text.toList.length := by rw [← length_current, current]
  rw [← length] at short
  rw [← current]
  refine ⟨fun c position not_comment inside => ?_, fun c position char => ?_⟩
  · exact insert_then_delete session resting not_comment inside short
  · have orderly := session.orderly
    exact delete_then_insert resting.holds rfl ((parses_iff_reads orderly.plain).mp resting.parses)
      orderly.plain (by omega) char

/-- A pair that has lost its end, and has its old tree, is closed again. -/
theorem openPair_is_closed : ';' ∉ "(a b)".toList ∧ "(a b)".toList.length + 3 < positionLimit ∧
    ofText parenthesised "(a b)" .fromOne = .ok pair ∧
    ∃ outcome d', openPair.insert parenthesised ')' 4 = .ok (.ok outcome, d') ∧
    Restores pair d' := by
  have plain : ';' ∉ "(a b)".toList := by decide
  have short : "(a b)".toList.length + 3 < positionLimit := by decide
  have read : ofText parenthesised "(a b)" .fromOne = .ok pair := by decide +kernel
  obtain ⟨_, d₁, outcome, d₂, ran, ran₂, restores⟩ :=
    (strokes_are_taken_back plain short read).2 ')' 4 (by decide)
  have opens : pair.delete parenthesised 4 = .ok (.ok (.pending openPair.root), openPair) :=
    pair_opens
  rw [opens] at ran
  cases ran
  exact ⟨plain, short, read, outcome, d₂, ran₂, restores⟩

end Document

end FormEdit
