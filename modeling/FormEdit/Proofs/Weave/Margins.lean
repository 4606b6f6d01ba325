import FormEdit.Proofs.Buffer.Kept
import FormEdit.Proofs.Weave.Backing
import FormEdit.Proofs.Weave.Renewal

/-!
# Blanks around the root

A root that is widened takes in the blanks around it (`Good.widen`). They can be told apart again
once every cell is kept, since what is left without them has the shape of its kind (`Good.narrow`).
-/

namespace FormEdit.Weave

open Buffer Lexer FormEdit.Language

variable {kind : Kind} {parts : List Weave} {la ra : List Cell}

/-- Cells that are kept blanks. -/
def Blanks (cells : List Cell) : Prop := ∀ c ∈ cells, c.status = .kept ∧ Text.isBlank c.char = true

theorem Blanks.left {xs ys : List Cell} (blanks : Blanks (xs ++ ys)) : Blanks xs :=
  fun c mem => blanks c (List.mem_append_left _ mem)

theorem Blanks.right {xs ys : List Cell} (blanks : Blanks (xs ++ ys)) : Blanks ys :=
  fun c mem => blanks c (List.mem_append_right _ mem)

theorem Blanks.allKept (blanks : Blanks la) : AllKept la :=
  fun c mem => (blanks c mem).1

theorem Blanks.live_eq (blanks : Blanks la) : live la = la :=
  live_eq_self blanks.allKept.current

theorem Blanks.currentCount_eq (blanks : Blanks la) : currentCount la = la.length :=
  blanks.allKept.currentCount_eq

theorem Blanks.chars (blanks : Blanks la) : ∀ c ∈ la.map Cell.char, Text.isBlank c = true := by
  intro c mem
  obtain ⟨cell, listed, rfl⟩ := List.mem_map.mp mem
  exact (blanks cell listed).2

theorem blanks_keptCells {bs : List Char} (blank : ∀ c ∈ bs, Text.isBlank c = true) :
    Blanks (keptCells bs) := by
  intro c mem
  obtain ⟨d, listed, rfl⟩ := List.mem_map.mp mem
  exact ⟨rfl, blank d listed⟩

/-! ## Taking blanks in -/

theorem step_margin {c : Char} (blank : Text.isBlank c = true) :
    stepKept true kind .start c = some .start := by
  have not_atom := inAtom_of_blank blank
  cases kind with
  | list =>
    have : c ≠ '(' := by rintro rfl; cases blank
    simp [stepKept, this, blank]
  | quote =>
    have : c ≠ '\x27' := by rintro rfl; cases blank
    simp [stepKept, this, blank]
  | atom content => simp [stepKept, not_atom, blank]

theorem run_margin (blanks : Blanks la) : run true kind .start (la.map cell) = some .start := by
  induction la with
  | nil => rfl
  | cons c la ih =>
    obtain ⟨char, status⟩ := c
    obtain ⟨rfl, blank⟩ := blanks _ (List.mem_cons_self)
    rw [List.map_cons, run_cons, step, step_margin blank]
    exact ih fun c mem => blanks c (List.mem_cons_of_mem _ mem)

theorem step_complete {s : Stage} {c : Char} (complete : s.complete kind = true)
    (blank : Text.isBlank c = true) : stepKept true kind s c = some .closed := by
  have not_atom := inAtom_of_blank blank
  cases s with
  | start => cases kind <;> cases complete
  | quoted => cases kind <;> cases complete
  | inside gap => cases kind <;> cases complete
  | closed => cases kind <;> simp [stepKept, blank]
  | atom sofar =>
    cases kind with
    | list => cases complete
    | quote => cases complete
    | atom content =>
      have same : content = String.ofList sofar := by simpa [Stage.complete] using complete
      simp [stepKept, not_atom, blank, same]

theorem complete_closed : Stage.closed.complete kind = true := by
  cases kind <;> rfl

theorem run_complete {s : Stage} (complete : s.complete kind = true) (blanks : Blanks ra) :
    ∃ t, run true kind s (ra.map cell) = some t ∧ t.complete kind = true := by
  induction ra generalizing s with
  | nil => exact ⟨s, rfl, complete⟩
  | cons c ra ih =>
    obtain ⟨char, status⟩ := c
    obtain ⟨rfl, blank⟩ := blanks _ (List.mem_cons_self)
    rw [List.map_cons, run_cons, step, step_complete complete blank]
    exact ih complete_closed fun c mem => blanks c (List.mem_cons_of_mem _ mem)

/-- A good root stays good when it takes in blanks. -/
theorem Good.widen {loose : Bool} (good : Good loose (.node kind parts)) (blanks : Blanks la)
    (blanks' : Blanks ra) :
    Good true (.node kind (la.map Weave.cell ++ parts ++ ra.map Weave.cell)) := by
  cases good.loosen with
  | @changed _ _ _ c marked => exact .changed (c := c) (by simp [marked])
  | shaped shape each =>
    obtain ⟨s, ran, complete⟩ := shape
    obtain ⟨t, ran', complete'⟩ := run_complete complete blanks'
    refine .shaped ⟨t, ?_, complete'⟩ ?_
    · rw [List.append_assoc]
      exact run_append_eq_some.mpr ⟨_, run_margin blanks, run_append_eq_some.mpr ⟨s, ran, ran'⟩⟩
    · intro w mem
      simp only [List.mem_append, List.mem_map] at mem
      rcases mem with (⟨c, -, rfl⟩ | mem) | ⟨c, -, rfl⟩
      · exact .cell
      · exact each w mem
      · exact .cell

theorem Backed.widen {lost : Nat → Prop} {position : Nat}
    (backed : Backed lost (position + currentCount la) (.node kind parts)) (blanks : Blanks la)
    (blanks' : Blanks ra) :
    Backed lost position (.node kind (la.map cell ++ parts ++ ra.map cell)) := by
  have not_marked {cells : List Cell} (blanks : Blanks cells) {c : Char} :
      .cell ⟨c, .deleted⟩ ∉ cells.map cell := by
    intro mem
    obtain ⟨d, listed, d_eq⟩ := List.mem_map.mp mem
    have status := (blanks d listed).1
    rw [Weave.cell.inj d_eq] at status
    cases status
  obtain ⟨own, each⟩ := backed_node.mp backed
  refine backed_node.mpr ⟨?_, ?_⟩
  · rintro ⟨c, mem⟩
    rw [List.mem_append, List.mem_append] at mem
    have inner := (mem.resolve_right (not_marked blanks')).resolve_left (not_marked blanks)
    obtain ⟨x, is_lost, start, stop, outside⟩ := own ⟨c, inner⟩
    refine ⟨x, is_lost, by omega, ?_, ?_⟩
    · simp only [width_append, width_map_cell]
      omega
    · simpa only [formsAt_append, formsAt_map_cell, List.nil_append, List.append_nil,
        width_map_cell] using outside
  · refine backedEach_append.mpr ⟨backedEach_append.mpr ⟨backedEach_cells la, ?_⟩,
      backedEach_cells ra⟩
    rwa [width_map_cell]

/-! ## Giving blanks back -/

/-- Behind the start a loose root is checked as any other node is, up to the blanks at its end. -/
theorem step_loose {s m : Stage} {w : Weave} (begun : s ≠ .start)
    (stepped : step true kind s w = some m) : m ≠ .start ∧ (step false kind s w = some m ∨
      s.complete kind = true ∧ m = .closed ∧ ∃ c, w = keep c ∧ Text.isBlank c = true) := by
  cases w with
  | node k ps =>
    refine ⟨?_, .inl stepped⟩
    rintro rfl
    rcases step_node_eq_some.mp stepped with ⟨gap, -, -, -, start⟩ | ⟨-, -, -, start⟩
    · cases start
    · cases start
  | cell c =>
    obtain ⟨c, status⟩ := c
    cases status with
    | deleted => cases stepped
    | inserted =>
      refine ⟨?_, .inl stepped⟩
      rintro rfl
      cases s with
      | inside gap => cases gap <;> cases stepped
      | start => exact begun rfl
      | atom content | quoted | closed => cases stepped
    | kept =>
      simp only [step, keep] at stepped ⊢
      cases kind <;> cases s <;> grind [stepKept, Stage.complete]

theorem run_closed_blanks {ws : List Weave} {t : Stage} (kept : Kept ws)
    (ran : run true kind .closed ws = some t) :
    ∃ bs : List Char, ws = bs.map keep ∧ ∀ c ∈ bs, Text.isBlank c = true := by
  induction ws with
  | nil => exact ⟨[], rfl, by simp⟩
  | cons w ws ih =>
    obtain ⟨m, stepped, later⟩ := run_cons_eq_some.mp ran
    obtain ⟨kept_w, kept_ws⟩ := kept_cons.mp kept
    obtain ⟨-, strict | ⟨-, rfl, c, rfl, blank⟩⟩ := step_loose (by simp) stepped
    · have ran_w : run false kind .closed [w] = some m := run_cons_eq_some.mpr ⟨m, strict, rfl⟩
      cases run_closed kept_w ran_w
    · obtain ⟨bs, rfl, blanks⟩ := ih kept_ws later
      refine ⟨c :: bs, rfl, ?_⟩
      intro d mem
      rcases List.mem_cons.mp mem with rfl | mem
      · exact blank
      · exact blanks d mem

theorem exists_core {ws : List Weave} {s t : Stage} (kept : Kept ws) (begun : s ≠ .start)
    (ran : run true kind s ws = some t) (complete : t.complete kind = true) :
    ∃ core, ∃ bs : List Char, ∃ t', ws = core ++ bs.map keep ∧ (∀ c ∈ bs, Text.isBlank c = true) ∧
      run false kind s core = some t' ∧ t'.complete kind = true := by
  induction ws generalizing s with
  | nil =>
    cases ran
    exact ⟨[], [], t, rfl, by simp, rfl, complete⟩
  | cons w ws ih =>
    obtain ⟨m, stepped, later⟩ := run_cons_eq_some.mp ran
    obtain ⟨kept_w, kept_ws⟩ := kept_cons.mp kept
    obtain ⟨begun', strict | ⟨complete_s, rfl, c, rfl, blank⟩⟩ := step_loose begun stepped
    · obtain ⟨core, bs, t', rfl, blanks, ran', complete'⟩ := ih kept_ws begun' later
      exact ⟨w :: core, bs, t', rfl, blanks, run_cons_eq_some.mpr ⟨m, strict, ran'⟩, complete'⟩
    · obtain ⟨bs, rfl, blanks⟩ := run_closed_blanks kept_ws later
      refine ⟨[], c :: bs, s, rfl, ?_, rfl, complete_s⟩
      intro d mem
      rcases List.mem_cons.mp mem with rfl | mem
      · exact blank
      · exact blanks d mem

theorem step_start {w : Weave} {m : Stage} (kept : Kept [w])
    (stepped : step true kind .start w = some m) :
    (∃ c, w = keep c ∧ Text.isBlank c = true ∧ m = .start) ∨
      m ≠ .start ∧ step false kind .start w = some m := by
  cases w with
  | node k ps => cases kind <;> cases stepped
  | cell c =>
    rw [kept.cell_eq] at stepped ⊢
    simp only [step, keep] at stepped ⊢
    cases kind <;> grind [stepKept]

/-- The shape of a loose root without the blanks around it. -/
theorem Shape.narrow {ws : List Weave} (kept : Kept ws) (shape : Shape true kind ws) :
    ∃ (bs : List Char) (core : List Weave) (bs' : List Char),
      ws = bs.map keep ++ core ++ bs'.map keep ∧
      (∀ c ∈ bs, Text.isBlank c = true) ∧ (∀ c ∈ bs', Text.isBlank c = true) ∧
      Shape false kind core := by
  obtain ⟨t, ran, complete⟩ := shape
  induction ws with
  | nil =>
    cases ran
    cases kind <;> cases complete
  | cons w ws ih =>
    obtain ⟨m, stepped, ran⟩ := run_cons_eq_some.mp ran
    obtain ⟨kept_w, kept_ws⟩ := kept_cons.mp kept
    rcases step_start kept_w stepped with ⟨c, rfl, blank, rfl⟩ | ⟨begun, strict⟩
    · obtain ⟨bs, core, bs', rfl, blanks, blanks', shape⟩ := ih kept_ws ran
      refine ⟨c :: bs, core, bs', rfl, ?_, blanks', shape⟩
      intro d mem
      rcases List.mem_cons.mp mem with rfl | mem
      · exact blank
      · exact blanks d mem
    · obtain ⟨core, bs', t', rfl, blanks', ran', complete'⟩ :=
        exists_core kept_ws begun ran complete
      exact ⟨[], w :: core, bs', rfl, by simp, blanks',
        t', run_cons_eq_some.mpr ⟨m, strict, ran'⟩, complete'⟩

/-- A loose root reads as a form that differs from its own at most in its span. -/
theorem Good.narrow {position : Nat} {f : Form} (good : Good true (.node kind parts))
    (kept : Kept parts) (form : formsOf position (.node kind parts) = [f]) :
    ∃ span, Language.Reads position (spelling parts) (.node ⟨f.kind, span⟩ f.children) := by
  obtain ⟨shape, each⟩ := good.shape kept
  obtain ⟨bs, core, bs', rfl, blank, blank', shape⟩ := shape.narrow kept
  have kept_core : Kept core := (kept_append.mp (kept_append.mp kept).1).2
  have good_core : Good false (.node kind core) := .shaped shape fun w mem => each w (by simp [mem])
  rw [formsOf_node, List.cons.injEq] at form
  obtain ⟨rfl, -⟩ := form
  refine ⟨Span.sized (position + bs.length) (width core), ?_⟩
  rw [spelling_append, spelling_append, spelling_keep, spelling_keep, ← spelling_node kind core]
  refine reads_of_weave blank blank' (kept_node.mpr kept_core) good_core ?_
  rw [formsOf_node]
  simp only [Form.kind, Rose.value_node, Rose.children_node, formsAt_append, formsAt_keep,
    width_keep, List.nil_append, List.append_nil]

end FormEdit.Weave
