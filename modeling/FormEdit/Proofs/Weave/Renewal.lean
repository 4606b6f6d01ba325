import FormEdit.Proofs.Grammar.Seams
import FormEdit.Proofs.Weave.Lifting

/-!
# Reading one node of a changed text

In a text that reads as a form, the characters of one node change. If that node, or one around it,
reads on its own afterwards and does not run into what stands beside it, then the whole text reads,
and it reads as the old form with the new one in the place of that node: `reads_renewed`.
-/

namespace FormEdit.Weave

open Buffer Lexer FormEdit.Language

variable {kind : Kind} {us vs : List Weave} {old new : List Cell} {position : Nat}
  {gs gs₁ gs₂ : List Frame} {f : Form}

theorem wrap_node (gs : List Frame) (kind : Kind) (parts : List Weave) :
    ∃ k ps, wrap gs (.node kind parts) = .node k ps := by
  induction gs generalizing kind parts with
  | nil => exact ⟨kind, parts, rfl⟩
  | cons g gs ih => exact ih g.kind (g.before ++ [.node kind parts] ++ g.after)

/-- What is in a hole of a good weave of kept cells is good. -/
theorem Good.hole {w : Weave} (good : Good false (Weave.wrap gs w))
    (kept : Kept [Weave.wrap gs w]) : Good false w := by
  induction gs generalizing w with
  | nil => exact good
  | cons g gs ih =>
    have kept_fill : Kept [g.fill [w]] := by
      intro c mem
      refine kept c ?_
      simp only [stored_cons, stored_nil, List.append_nil, Weave.wrap, cells_wrap, List.mem_append]
        at mem ⊢
      exact .inl (.inr mem)
    exact ((ih good kept).shape (kept_node.mp kept_fill)).2 w (by simp)

theorem spelling_wrap (gs : List Frame) (w : Weave) :
    spelling [wrap gs w] =
      (left gs).map Cell.char ++ spelling [w] ++ (right gs).map Cell.char := by
  simp [spelling, cells_wrap]

/-- A text as cells that are all kept. -/
def keptCells (chars : List Char) : List Cell := chars.map (⟨·, .kept⟩)

theorem currentCount_keptCells (chars : List Char) :
    currentCount (keptCells chars) = chars.length := by
  rw [currentCount, List.countP_eq_length.mpr (by simp [keptCells, Cell.isCurrent])]
  simp [keptCells]

theorem map_char_keptCells (chars : List Char) : (keptCells chars).map Cell.char = chars := by
  simp [keptCells, Function.comp_def]

theorem stored_eq_keptCells {ws : List Weave} (kept : Kept ws) :
    stored ws = keptCells (spelling ws) := by
  rw [keptCells, spelling, List.map_map]
  conv_lhs => rw [← List.map_id (stored ws)]
  refine List.map_congr_left fun c mem => ?_
  simp [← kept c mem]

theorem kept_wrap {w : Weave} : Kept [wrap gs w] ↔
    (∀ c ∈ left gs, c.status = .kept) ∧ Kept [w] ∧ ∀ c ∈ right gs, c.status = .kept := by
  simp only [Kept, stored_cons, stored_nil, List.append_nil, cells_wrap, List.mem_append, or_imp,
    forall_and, and_assoc]

/-- The cells of a node change in a weave of kept cells. -/
theorem kept_change (kept : Kept [wrap gs (.node kind (us ++ old.map cell ++ vs))])
    (kept_new : ∀ c ∈ new, c.status = .kept) :
    Kept [wrap gs (.node kind (us ++ new.map cell ++ vs))] := by
  obtain ⟨kept_left, kept_parts, kept_right⟩ := kept_wrap.mp kept
  rw [kept_node, kept_append, kept_append] at kept_parts
  obtain ⟨⟨kept_us, -⟩, kept_vs⟩ := kept_parts
  refine kept_wrap.mpr ⟨kept_left, kept_node.mpr ?_, kept_right⟩
  rw [kept_append, kept_append]
  exact ⟨⟨kept_us, by rwa [Kept, stored_map_cell]⟩, kept_vs⟩

theorem currentCount_left {w : Weave} (kept : Kept [wrap gs w]) :
    currentCount (left gs) = (left gs).length :=
  List.countP_eq_length.mpr fun c mem => by simp [Cell.isCurrent, (kept_wrap.mp kept).1 c mem]

theorem is_node_of_form {w : Weave} (form : formsOf position w = [f]) : ∃ k ps, w = .node k ps := by
  cases w with
  | cell c => simp at form
  | node k ps => exact ⟨k, ps, rfl⟩

/-! ## What a text is made of -/

/-- A text that reads as a form is a node with blanks around it. -/
structure Composed (position : Nat) (chars : List Char) (f : Form) (bs : List Char) (v : Weave)
    (bs' : List Char) (first last : Char) : Prop where
  text : chars = bs ++ spelling [v] ++ bs'
  blank : ∀ c ∈ bs, Text.isBlank c = true
  blank' : ∀ c ∈ bs', Text.isBlank c = true
  kept : Kept [v]
  good : Good false v
  form : formsOf (position + bs.length) v = [f]
  ends : Ends v first last

theorem exists_composed {chars : List Char} (reads : Reads position chars f) :
    ∃ bs v bs' first last, Composed position chars f bs v bs' first last := by
  obtain ⟨bs, bs', v, text, blank, blank', kept, good, form⟩ := weave_of_reads reads
  obtain ⟨k, ps, rfl⟩ := is_node_of_form form
  obtain ⟨first, last, ends⟩ := exists_ends kept good
  exact ⟨bs, _, bs', first, last, text, blank, blank', kept, good, form, ends⟩

namespace Composed

variable {chars bs bs' : List Char} {v : Weave} {first last : Char}

theorem solid (composed : Composed position chars f bs v bs' first last) : v.cells ≠ [] := by
  intro none
  have final := composed.ends.last_eq
  simp [none] at final

theorem stored_eq (composed : Composed position chars f bs v bs' first last) :
    stored (pieces bs v bs') = keptCells chars := by
  have v_cells := stored_eq_keptCells composed.kept
  rw [stored_cons, stored_nil, List.append_nil] at v_cells
  rw [stored_pieces, v_cells, composed.text]
  simp [keptCells]

theorem forms_eq (composed : Composed position chars f bs v bs' first last) :
    formsAt position (pieces bs v bs') = [f] := by
  rw [pieces, formsAt_append, formsAt_keep, formsAt_cons, formsAt_keep, width_keep, composed.form]
  rfl

theorem head_eq (composed : Composed position chars f bs v bs' first last) (none : bs = []) :
    chars.head? = some first := by
  rw [composed.text, none, List.nil_append, List.head?_append, composed.ends.head_eq]
  rfl

theorem endsWith_last (composed : Composed position chars f bs v bs' first last) (none : bs' = []) :
    EndsWith (keptCells chars) last := by
  rw [← composed.stored_eq, stored_pieces, none, List.map_nil, List.append_nil,
    endsWith_append composed.solid]
  exact composed.ends.last_eq

end Composed

/-- What reads ahead of the last character of a node is not followed by blanks. -/
theorem Composed.no_blanks {w v : Weave} {t : Cell} {chars bs bs' : List Char} {first last : Char}
    {g : Form} (composed : Composed position chars f bs v bs' first last) (kept : Kept [w])
    (good : Good false w) (form : formsOf position w = [g])
    (cells_eq : w.cells = keptCells chars ++ [t])
    (fits : position + w.cells.length < positionLimit) (plain : ';' ∉ spelling [w]) : bs' = [] := by
  by_contra trailing
  obtain ⟨k, ps, rfl⟩ := is_node_of_form form
  obtain ⟨_, final, ends⟩ := exists_ends kept good
  have last_eq := ends.last_eq
  rw [cells_eq, List.getLast?_append] at last_eq
  cases last_eq
  have spelling_eq : spelling [.node k ps] = chars ++ [final] := by
    rw [spelling, stored_cons, stored_nil, List.append_nil, cells_eq]
    simp [keptCells, Function.comp_def]
  have whole : Reads position (chars ++ [final]) g := by
    have read : Reads position ([] ++ spelling [.node k ps] ++ []) g :=
      reads_of_weave (by simp) (by simp) kept good (by simpa using form)
    simpa [← spelling_eq] using read
  have reads : Reads position chars f := by
    rw [composed.text]
    exact reads_of_weave composed.blank composed.blank' composed.kept composed.good composed.form
  have apart : ∀ x y, chars.getLast? = some x → [final].head? = some y →
      (inAtom x && inAtom y) = false := by
    intro x y is_last _
    obtain ⟨z, is_z⟩ : ∃ z, bs'.getLast? = some z :=
      Option.isSome_iff_exists.mp (by simpa using trailing)
    rw [composed.text, List.getLast?_append, is_z] at is_last
    cases is_last
    simp [inAtom_of_blank (composed.blank' x (List.mem_of_getLast? is_z))]
  have is_blank := reads.rest_blank whole apart (by simpa [cells_eq, keptCells] using fits)
    (by rwa [← spelling_eq]) final (by simp)
  have solid := ends.solid
  rw [is_blank] at solid
  cases solid

/-! ## The text around it -/

/-- The characters beside each other where two texts meet do not read as one token. -/
def Parted (before behind : List Char) : Prop :=
  ∀ x y, before.getLast? = some x → behind.head? = some y → (inAtom x && inAtom y) = false

theorem Parted.shrink {before behind before' behind' : List Char}
    (parted : Parted (before' ++ before) (behind ++ behind')) : Parted before behind := by
  intro x y last head
  refine parted x y ?_ ?_
  · rw [List.getLast?_append, last]
    rfl
  · rw [List.head?_append, head]
    rfl

/-- A node that has changed and reads on its own ends as it did before, or it has lost its last
character and does not run into what follows. -/
theorem Composed.tailFits {before now v : Weave} {k : Kind} {ps : List Weave} {gs : List Frame}
    {bs bs' : List Char} {first last : Char}
    (composed : Composed position (spelling [now]) f bs v bs' first last)
    (before_eq : before = .node k ps) (good : Good false before) (kept : Kept [before])
    (kept_now : Kept [now]) (kept_right : ∀ c ∈ right gs, c.status = .kept)
    (parted : Parted (spelling [now]) ((right gs).map Cell.char))
    (tail : (∀ last, EndsWith before.cells last → EndsWith now.cells last) ∨
      ∃ t, before.cells = now.cells ++ [t])
    (fits : position + before.cells.length < positionLimit) (plain : ';' ∉ spelling [before]) :
    TailFits before.cells now.cells (right gs) := by
  have now_cells : keptCells (spelling [now]) = now.cells := by
    rw [← stored_eq_keptCells kept_now]
    simp
  rcases tail with same | ⟨t, cells_eq⟩
  · exact .inl same
  · have none : bs' = [] := by
      obtain ⟨form, is_form⟩ : ∃ form, formsOf position before = [form] := by
        rw [before_eq, formsOf_node]
        exact ⟨_, rfl⟩
      exact composed.no_blanks kept good is_form (by rw [cells_eq, now_cells]) fits plain
    have final := composed.endsWith_last none
    rw [now_cells] at final
    refine .inr ⟨last, final, composed.ends.solid, kept_right, ?_⟩
    intro c head
    refine parted last c.char ?_ (by rw [List.head?_map, head]; rfl)
    rw [spelling, stored_cons, stored_nil, List.append_nil, List.getLast?_map, final]
    rfl

/-- A node has changed and reads on its own: the whole text reads. -/
theorem reads_around {g : Frame} {before now : Weave} {k : Kind} {ps : List Weave}
    (before_eq : before = .node k ps) (good : Good false (wrap (g :: gs) before))
    (kept : Kept [wrap (g :: gs) before]) (kept_now : Kept [now])
    (reads : Reads (position + currentCount (left (g :: gs))) (spelling [now]) f)
    (parted : Parted ((left (g :: gs)).map Cell.char) (spelling [now]))
    (parted' : Parted (spelling [now]) ((right (g :: gs)).map Cell.char))
    (tail : (∀ last, EndsWith before.cells last → EndsWith now.cells last) ∨
      ∃ t, before.cells = now.cells ++ [t])
    (fits : position + (wrap (g :: gs) before).cells.length < positionLimit)
    (plain : ';' ∉ spelling [wrap (g :: gs) before]) :
    Reads position (spelling [wrap (g :: gs) now])
      (Rose.plug (tagsAt position (g :: gs) now.room) f) := by
  obtain ⟨kept_left, kept_before, kept_right⟩ := kept_wrap.mp kept
  have good_before : Good false before := good.hole kept
  obtain ⟨bs, v, bs', first, last, composed⟩ := exists_composed reads
  obtain ⟨k', ps', v_eq⟩ := is_node_of_form composed.form
  have now_cells : stored (pieces bs v bs') = now.cells := by
    rw [composed.stored_eq, ← stored_eq_keptCells kept_now]
    simp
  have solid : before.cells ≠ [] := by
    subst before_eq
    obtain ⟨_, _, ends⟩ := exists_ends kept_before good_before
    intro none
    have final := ends.last_eq
    simp [none] at final
  have front : bs = [] → ∀ z, EndsWith (left (g :: gs)) z →
      Gap.admits (.touching z) before.front = true → Gap.admits (.touching z) v.front = true := by
    intro none z final _
    have fused := parted z first (by rw [List.getLast?_map, final]; rfl) (composed.head_eq none)
    simp [composed.ends.front_eq, Gap.admits, fused]
  have fits_tail : TailFits before.cells (stored (pieces bs v bs')) (right (g :: gs)) := by
    rw [now_cells]
    refine composed.tailFits before_eq good_before kept_before kept_now kept_right
      parted' tail ?_ ?_
    · have counted : currentCount (left (g :: gs)) ≤ (left (g :: gs)).length :=
        List.countP_le_length
      rw [cells_wrap, List.length_append, List.length_append] at fits
      omega
    · exact fun mem => plain (by rw [spelling_wrap]; simp [mem])
  have renewed := Good.lift before_eq v_eq solid composed.solid composed.blank composed.blank' front
    fits_tail composed.good good
  have cells_renewed : (wrap gs (g.fill (pieces bs v bs'))).cells = (wrap (g :: gs) now).cells := by
    simp only [cells_wrap, wrap, Frame.fill, cells_node, stored_append, now_cells, stored_cons,
      stored_nil, List.append_nil]
  have kept_renewed : Kept [wrap gs (g.fill (pieces bs v bs'))] := by
    have kept_whole : Kept [wrap (g :: gs) now] := kept_wrap.mpr ⟨kept_left, kept_now, kept_right⟩
    simpa only [Kept, stored_cons, stored_nil, List.append_nil, cells_renewed] using kept_whole
  have form_renewed : formsOf position (wrap gs (g.fill (pieces bs v bs'))) =
      [Rose.plug (tagsAt position (g :: gs) now.room) f] := by
    have plugged := formsAt_plug composed.forms_eq
    rw [plug_cons_wrap, formsAt_singleton] at plugged
    rw [plugged, width, now_cells]
    rfl
  have whole : Reads position ([] ++ spelling [wrap gs (g.fill (pieces bs v bs'))] ++ []) _ :=
    reads_of_weave (by simp) (by simp) kept_renewed renewed (by simpa using form_renewed)
  simpa only [List.nil_append, List.append_nil, spelling, stored_cons, stored_nil, cells_renewed]
    using whole

/-- A node of a text has changed, and it or a node around it reads on its own: the whole text reads,
with the new form in its place. -/
theorem reads_renewed
    (good : Good false (wrap (gs₁ ++ gs₂) (.node kind (us ++ old.map cell ++ vs))))
    (kept : Kept [wrap (gs₁ ++ gs₂) (.node kind (us ++ old.map cell ++ vs))])
    (kept_new : ∀ c ∈ new, c.status = .kept)
    (reads : Reads (position + currentCount (left gs₂))
      (spelling [wrap gs₁ (.node kind (us ++ new.map cell ++ vs))]) f)
    (parted : gs₂ ≠ [] → Parted ((left gs₂).map Cell.char)
      (spelling [wrap gs₁ (.node kind (us ++ new.map cell ++ vs))]))
    (parted' : gs₂ ≠ [] → Parted (spelling [wrap gs₁ (.node kind (us ++ new.map cell ++ vs))])
      ((right gs₂).map Cell.char))
    (tail : gs₂ ≠ [] → stored vs ++ right gs₁ ≠ [] ∨ new = [] ∧ ∃ t, old = [t])
    (fits : position + (wrap (gs₁ ++ gs₂) (.node kind (us ++ old.map cell ++ vs))).cells.length <
      positionLimit)
    (plain : ';' ∉ spelling [wrap (gs₁ ++ gs₂) (.node kind (us ++ old.map cell ++ vs))]) :
    Reads position (spelling [wrap (gs₁ ++ gs₂) (.node kind (us ++ new.map cell ++ vs))])
      (Rose.plug (tagsAt position gs₂ (wrap gs₁ (.node kind (us ++ new.map cell ++ vs))).room)
        f) := by
  cases gs₂ with
  | nil => simpa [tagsAt, left] using reads
  | cons g gs₂ =>
    rw [wrap_append] at good kept fits plain ⊢
    obtain ⟨k, ps, before_eq⟩ := wrap_node gs₁ kind (us ++ old.map cell ++ vs)
    have before_cells : (wrap gs₁ (.node kind (us ++ old.map cell ++ vs))).cells =
        left gs₁ ++ stored us ++ (old ++ (stored vs ++ right gs₁)) := by
      simp [cells_wrap]
    have now_cells : (wrap gs₁ (.node kind (us ++ new.map cell ++ vs))).cells =
        left gs₁ ++ stored us ++ (new ++ (stored vs ++ right gs₁)) := by
      simp [cells_wrap]
    have kept_now := kept_change (kept_wrap.mp kept).2.1 kept_new
    refine reads_around before_eq good kept kept_now reads (parted (by simp)) (parted' (by simp)) ?_
      fits plain
    by_cases none : stored vs ++ right gs₁ = []
    · obtain ⟨rfl, t, rfl⟩ := (tail (by simp)).resolve_left (fun h => h none)
      exact .inr ⟨t, by rw [before_cells, now_cells, none]; simp⟩
    · refine .inl fun z final => ?_
      rw [before_cells, endsWith_append (by simp [none]), endsWith_append none] at final
      rwa [now_cells, endsWith_append (by simp [none]), endsWith_append none]

end FormEdit.Weave
