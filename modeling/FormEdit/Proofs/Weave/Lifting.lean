import FormEdit.Proofs.Weave.Spelling

/-!
# Reading one node again

A node may be replaced by what its text reads as on its own, blanks on either side included, and
everything around it stays good (`Good.lift`). What is asked at the seams is what the program
checks: the new node does not run into the characters beside it, and its last character is the old
one, or all that follows is unchanged and not run into either.
-/

namespace FormEdit.Weave

open Buffer Lexer

variable {loose : Bool} {kind : Kind}

/-- A kept last cell. -/
def EndsWith (cells : List Cell) (last : Char) : Prop := cells.getLast? = some ⟨last, .kept⟩

/-- How the end of what replaces a weave relates to its old end; `behind` is stored behind it. -/
def TailFits (old new behind : List Cell) : Prop :=
  (∀ last, EndsWith old last → EndsWith new last) ∨
    ∃ last, EndsWith new last ∧ Text.isBlank last = false ∧ (∀ c ∈ behind, c.status = .kept) ∧
      ∀ c, behind.head? = some c → (inAtom last && inAtom c.char) = false

theorem gapAfter_eq_touching {w : Weave} {last : Char} :
    w.gapAfter = .touching last ↔ EndsWith w.cells last := by
  unfold gapAfter EndsWith
  split
  next c found => rw [found]; simp
  next other =>
    constructor
    · intro same
      cases same
    · intro found
      exact absurd found (other last)

theorem gapAfter_cases (w : Weave) :
    w.gapAfter = .blocked ∨ ∃ last, w.gapAfter = .touching last ∧ EndsWith w.cells last := by
  cases gap : w.gapAfter with
  | free =>
    unfold gapAfter at gap
    split at gap <;> cases gap
  | touching last => exact .inr ⟨last, rfl, gapAfter_eq_touching.mp gap⟩
  | blocked => exact .inl rfl

theorem endsSolid_iff {w : Weave} :
    w.endsSolid = true ↔ ∃ last, EndsWith w.cells last ∧ Text.isBlank last = false := by
  constructor
  · intro solid
    exact getLast_of_endsSolid solid
  · rintro ⟨last, found, solid⟩
    rw [EndsWith] at found
    simp [endsSolid, found, solid]

/-- Only a node leads to a stage that it touches. -/
theorem step_touching {w : Weave} {s : Stage} {last : Char}
    (stepped : step loose kind s w = some (.inside (.touching last))) : EndsWith w.cells last := by
  cases w with
  | cell c =>
    obtain ⟨c, status⟩ := c
    cases status with
    | kept => cases kind <;> cases s <;> grind [step, stepKept]
    | inserted =>
      exfalso
      simp only [step, Option.some.injEq] at stepped
      cases s with
      | inside gap => cases gap <;> cases stepped
      | start | atom content | quoted | closed => cases stepped
    | deleted => cases stepped
  | node k ps =>
    rcases step_node_eq_some.mp stepped with ⟨gap, -, -, -, after⟩ | ⟨-, -, -, closed⟩
    · exact gapAfter_eq_touching.mp (Stage.inside.inj after).symm
    · cases closed

theorem run_touching {before : List Weave} {last : Char}
    (ran : run loose kind .start before = some (.inside (.touching last))) :
    EndsWith (stored before) last := by
  rcases List.eq_nil_or_concat before with rfl | ⟨before, w, rfl⟩
  · cases ran
  · rw [List.concat_eq_append] at ran ⊢
    obtain ⟨m, -, ran⟩ := run_append_eq_some.mp ran
    obtain ⟨m', stepped, ran⟩ := run_cons_eq_some.mp ran
    cases ran
    have here := step_touching stepped
    rw [EndsWith] at here ⊢
    rw [stored_append, List.getLast?_append, stored_cons, stored_nil, List.append_nil, here]
    rfl

/-! ## One frame -/

/-- A node with blanks around it. -/
def pieces (bs : List Char) (v : Weave) (bs' : List Char) : List Weave :=
  bs.map keep ++ v :: bs'.map keep

theorem stored_keep (cs : List Char) : stored (cs.map keep) = cs.map fun c => ⟨c, .kept⟩ := by
  have cells : cs.map keep = (cs.map fun c => (⟨c, .kept⟩ : Cell)).map cell := by simp [keep]
  rw [cells, stored_map_cell]

theorem stored_pieces (bs : List Char) (v : Weave) (bs' : List Char) :
    stored (pieces bs v bs') =
      bs.map (fun c => ⟨c, .kept⟩) ++ v.cells ++ bs'.map fun c => ⟨c, .kept⟩ := by
  simp [pieces, stored_keep]

theorem endsWith_append {xs ys : List Cell} {last : Char} (nonempty : ys ≠ []) :
    EndsWith (xs ++ ys) last ↔ EndsWith ys last := by
  rw [EndsWith, EndsWith, List.getLast?_append]
  cases found : ys.getLast? with
  | none => exact absurd (List.getLast?_eq_none_iff.mp found) nonempty
  | some c => rfl

theorem endsWith_pieces {bs bs' : List Char} {v : Weave} {last : Char} (solid : v.cells ≠ [])
    (blank' : ∀ c ∈ bs', Text.isBlank c = true) (ends : EndsWith (stored (pieces bs v bs')) last) :
    (bs' = [] ∧ EndsWith v.cells last) ∨ (bs' ≠ [] ∧ Text.isBlank last = true) := by
  rw [stored_pieces] at ends
  by_cases none : bs' = []
  · subst none
    rw [List.map_nil, List.append_nil, endsWith_append solid] at ends
    exact .inl ⟨rfl, ends⟩
  · right
    rw [endsWith_append (by simpa using none), EndsWith, List.getLast?_map] at ends
    obtain ⟨c, found, same⟩ := Option.map_eq_some_iff.mp ends
    cases same
    exact ⟨none, blank' last (List.mem_of_getLast? found)⟩

theorem step_blank {gap : Gap} {c : Char} (blank : Text.isBlank c = true) :
    step loose .list (.inside gap) (keep c) = some (.inside .free) := by
  have not_closing : c ≠ ')' := by
    rintro rfl
    exact absurd blank (by decide)
  simp [step_keep, stepKept, not_closing, blank]

theorem run_blanks_free {gap : Gap} {bs : List Char} (nonempty : bs ≠ [])
    (blank : ∀ c ∈ bs, Text.isBlank c = true) :
    run loose .list (.inside gap) (bs.map keep) = some (.inside .free) := by
  induction bs generalizing gap with
  | nil => exact absurd rfl nonempty
  | cons b bs ih =>
    rw [List.map_cons, run_cons, step_blank (blank b (by simp)), Option.bind_some]
    by_cases none : bs = []
    · rw [none]
      rfl
    · exact ih none fun c hc => blank c (by simp [hc])

/-- What follows the end of a node follows another end just as well. -/
theorem run_after {old v : Weave} {after : List Weave} {behind : List Cell} {t : Stage}
    (tail : TailFits old.cells v.cells (stored after ++ behind))
    (good : ∀ w ∈ after, Good false w) (complete : t.complete .list = true)
    (ran : run loose .list (.inside old.gapAfter) after = some t) :
    run loose .list (.inside v.gapAfter) after = some t := by
  rcases gapAfter_cases old with blocked | ⟨last, touching, ends⟩
  · rw [blocked] at ran
    exact run_laxer .blocked ran complete
  · rcases tail with same | ⟨last', ends', -, kept, clear⟩
    · rw [gapAfter_eq_touching.mpr (same last ends), ← touching]
      exact ran
    · rw [gapAfter_eq_touching.mpr ends']
      rw [touching] at ran
      cases after with
      | nil =>
        cases ran
        cases complete
      | cons w ws =>
        obtain ⟨m, stepped, ran⟩ := run_cons_eq_some.mp ran
        refine run_cons_eq_some.mpr ⟨m, ?_, ran⟩
        have kept_w : Kept [w] := fun c hc => kept c (by
          simp only [stored_cons, stored_nil, List.append_nil] at hc
          simp [hc])
        cases w with
        | cell c =>
          rw [kept_w.cell_eq, step_keep] at stepped ⊢
          rw [← stepped]
          exact stepKept_inside
        | node k ps =>
          obtain ⟨first, final, node_ends⟩ := exists_ends kept_w (good _ (by simp))
          have head : (stored (Weave.node k ps :: ws) ++ behind).head? = some ⟨first, .kept⟩ := by
            rw [stored_cons, List.append_assoc, List.head?_append, node_ends.head_cells kept_w]
            rfl
          have admitted : Gap.admits (.touching last') (Weave.node k ps).front = true := by
            rw [node_ends.front_eq]
            simp [Gap.admits, clear _ head]
          rcases step_node_eq_some.mp stepped with ⟨gap, -, -, -, rfl⟩ | ⟨quote, -⟩
          · exact step_node_eq_some.mpr (.inl ⟨_, rfl, rfl, admitted, rfl⟩)
          · cases quote

/-- Without blanks behind it the new weave ends as all that replaces the old one does. -/
theorem TailFits.of_pieces {old behind : List Cell} {bs : List Char} {v : Weave}
    (solid : v.cells ≠ []) (tail : TailFits old (stored (pieces bs v [])) behind) :
    TailFits old v.cells behind := by
  have ends_v {last : Char} (ends : EndsWith (stored (pieces bs v [])) last) :
      EndsWith v.cells last := by
    rcases endsWith_pieces solid (by simp) ends with ⟨-, there⟩ | ⟨some, -⟩
    · exact there
    · exact absurd rfl some
  rcases tail with same | ⟨last, ends, not_blank, kept, clear⟩
  · exact .inl fun last ends => ends_v (same last ends)
  · exact .inr ⟨last, ends_v ends, not_blank, kept, clear⟩

/-- What replaces a weave that ends in something solid ends in something solid. -/
theorem TailFits.endsSolid {old v : Weave} {behind : List Cell} {bs bs' : List Char}
    (solid : v.cells ≠ []) (blank' : ∀ c ∈ bs', Text.isBlank c = true)
    (tail : TailFits old.cells (stored (pieces bs v bs')) behind)
    (old_solid : old.endsSolid = true) :
    bs' = [] ∧ v.endsSolid = true := by
  obtain ⟨last, ends, not_blank⟩ : ∃ last, EndsWith (stored (pieces bs v bs')) last ∧
      Text.isBlank last = false := by
    obtain ⟨last, ends, not_blank⟩ := endsSolid_iff.mp old_solid
    rcases tail with same | ⟨last', ends', not_blank', -, -⟩
    · exact ⟨last, same last ends, not_blank⟩
    · exact ⟨last', ends', not_blank'⟩
  rcases endsWith_pieces solid blank' ends with ⟨none, there⟩ | ⟨-, is_blank⟩
  · exact ⟨none, endsSolid_iff.mpr ⟨last, there, not_blank⟩⟩
  · rw [is_blank] at not_blank
    cases not_blank

theorem Shape.replace {before after : List Weave} {old v : Weave} {bs bs' : List Char}
    {behind : List Cell} {k k' : Kind} {ps ps' : List Weave} (old_eq : old = .node k ps)
    (v_eq : v = .node k' ps') (solid : v.cells ≠ []) (blank : ∀ c ∈ bs, Text.isBlank c = true)
    (blank' : ∀ c ∈ bs', Text.isBlank c = true)
    (front : bs = [] → ∀ last, EndsWith (stored before) last →
      Gap.admits (.touching last) old.front = true → Gap.admits (.touching last) v.front = true)
    (tail : TailFits old.cells (stored (pieces bs v bs')) (stored after ++ behind))
    (good : ∀ w ∈ after, Good false w) (shape : Shape loose kind (before ++ old :: after)) :
    Shape loose kind (before ++ pieces bs v bs' ++ after) := by
  subst old_eq v_eq
  obtain ⟨t, ran, complete⟩ := shape
  obtain ⟨m, ran_before, ran⟩ := run_append_eq_some.mp ran
  obtain ⟨m', stepped, ran_after⟩ := run_cons_eq_some.mp ran
  refine ⟨t, ?_, complete⟩
  rw [pieces, List.append_assoc, List.append_assoc, List.cons_append]
  refine run_append_eq_some.mpr ⟨m, ran_before, ?_⟩
  rcases step_node_eq_some.mp stepped with
    ⟨gap, rfl, rfl, admitted, rfl⟩ | ⟨rfl, rfl, old_solid, rfl⟩
  · have ahead : ∃ gap', run loose .list (.inside gap) (bs.map keep) = some (.inside gap') ∧
        gap'.admits (Weave.node k' ps').front = true := by
      by_cases none : bs = []
      · refine ⟨gap, by rw [none]; rfl, ?_⟩
        cases gap with
        | free => rfl
        | touching last => exact front none last (run_touching ran_before) admitted
        | blocked => cases admitted
      · exact ⟨.free, run_blanks_free none blank, rfl⟩
    obtain ⟨gap', ran_blank, admitted'⟩ := ahead
    refine run_append_eq_some.mpr ⟨_, ran_blank, run_cons_eq_some.mpr
      ⟨_, step_node_eq_some.mpr (.inl ⟨gap', rfl, rfl, admitted', rfl⟩), ?_⟩⟩
    by_cases none : bs' = []
    · subst none
      exact run_after (tail.of_pieces solid) good complete ran_after
    · refine run_append_eq_some.mpr ⟨_, run_blanks_free none blank', ?_⟩
      exact run_laxer .free ran_after complete
  · -- The quote ends with its node, so the new one can have no blanks behind it.
    obtain ⟨none, new_solid⟩ := tail.endsSolid solid blank' old_solid
    refine run_append_eq_some.mpr ⟨_, run_quoted blank, run_cons_eq_some.mpr
      ⟨_, step_node_eq_some.mpr (.inr ⟨rfl, rfl, new_solid, rfl⟩), ?_⟩⟩
    rw [none]
    exact ran_after

theorem Good.replace (bs bs' : List Char) (behind : List Cell) {before after : List Weave}
    {old v : Weave} {k k' : Kind} {ps ps' : List Weave} (old_eq : old = .node k ps)
    (v_eq : v = .node k' ps') (solid : v.cells ≠ []) (blank : ∀ c ∈ bs, Text.isBlank c = true)
    (blank' : ∀ c ∈ bs', Text.isBlank c = true)
    (front : bs = [] → ∀ last, EndsWith (stored before) last →
      Gap.admits (.touching last) old.front = true → Gap.admits (.touching last) v.front = true)
    (tail : TailFits old.cells (stored (pieces bs v bs')) (stored after ++ behind))
    (inner : Good false old → Good false v)
    (good : Good loose (.node kind (before ++ old :: after))) :
    Good loose (.node kind (before ++ pieces bs v bs' ++ after)) := by
  cases good with
  | @changed _ _ _ c lost =>
    refine .changed (c := c) ?_
    simp only [List.mem_append, List.mem_cons, old_eq, reduceCtorEq, false_or] at lost
    rcases lost with lost | lost
    · simp [lost]
    · simp [lost]
  | shaped shape each =>
    refine .shaped (shape.replace old_eq v_eq solid blank blank' front tail fun w hw =>
      each w (by simp [hw])) ?_
    intro w hw
    simp only [pieces, List.mem_append, List.mem_cons] at hw
    rcases hw with (hw | hw | rfl | hw) | hw
    · exact each w (by simp [hw])
    · exact good_keep hw
    · exact inner (each old (by simp))
    · exact good_keep hw
    · exact each w (by simp [hw])

/-! ## All frames -/

/-- The front of a node stands ahead of every node in it. -/
theorem front_fill {f : Frame} {old : Weave} {ws : List Weave} {c : Cell} {k : Kind}
    {ps : List Weave} (old_eq : old = .node k ps) (front : (f.fill [old]).front = some c) :
    (f.fill ws).front = some c := by
  subst old_eq
  obtain ⟨kind, before, after⟩ := f
  simp only [Frame.fill, Weave.front, List.append_assoc] at front ⊢
  induction before with
  | nil => simp [isTyped] at front
  | cons w before ih =>
    rw [List.cons_append, List.dropWhile_cons] at front ⊢
    by_cases typed : w.isTyped = true
    · rw [if_pos typed] at front ⊢
      exact ih front
    · rw [if_neg typed] at front ⊢
      cases w with
      | cell d => exact front
      | node k' ps' => cases front

theorem TailFits.fill {old : Weave} {ws : List Weave} {f : Frame} {behind : List Cell}
    (solid : old.cells ≠ []) (solid' : stored ws ≠ [])
    (tail : TailFits old.cells (stored ws) (stored f.after ++ behind)) :
    TailFits (f.fill [old]).cells (f.fill ws).cells behind := by
  obtain ⟨kind, before, after⟩ := f
  simp only [Frame.fill, cells_node, stored_append, stored_cons, stored_nil, List.append_nil]
    at tail ⊢
  by_cases none : stored after = []
  · simp only [none, List.append_nil, List.nil_append] at tail ⊢
    rcases tail with same | ⟨last, ends, rest⟩
    · left
      intro last ends
      rw [endsWith_append solid] at ends
      rw [endsWith_append solid']
      exact same last ends
    · exact .inr ⟨last, (endsWith_append solid').mpr ends, rest⟩
  · left
    intro last ends
    rw [endsWith_append none] at ends ⊢
    exact ends

/-- A replacement of one node that keeps its front carries through all frames around it. -/
theorem Good.wrap {fs : List Frame} {old v : Weave} {k k' : Kind} {ps ps' : List Weave}
    (old_eq : old = .node k ps) (v_eq : v = .node k' ps') (solid : old.cells ≠ [])
    (solid' : v.cells ≠ []) (front : ∀ c, old.front = some c → v.front = some c)
    (tail : TailFits old.cells v.cells (right fs)) (inner : ∀ lax, Good lax old → Good lax v)
    (good : Good loose (Weave.wrap fs old)) : Good loose (Weave.wrap fs v) := by
  induction fs generalizing old v k k' ps ps' with
  | nil => exact inner loose good
  | cons f fs ih =>
    have single : TailFits old.cells (stored [v]) (stored f.after ++ right fs) := by
      simpa [right] using tail
    refine ih (rfl : f.fill [old] = _) (rfl : f.fill [v] = _) ?_ ?_ ?_ ?_ ?_ good
    · simp [Frame.fill, solid]
    · simp [Frame.fill, solid']
    · exact fun c found => front_fill old_eq found
    · exact single.fill solid (by simpa using solid')
    · intro lax good
      have around : Good lax (.node f.kind (f.before ++ old :: f.after)) := by
        simpa [Frame.fill] using good
      have replaced := around.replace [] [] (right fs) old_eq v_eq solid'
        (by simp) (by simp) (fun _ last _ admitted => by
          cases found : old.front with
          | none => rw [found] at admitted; cases admitted
          | some c => rw [front c found, ← found]; exact admitted)
        (by simpa [pieces] using single) (inner false)
      simpa [Frame.fill, pieces] using replaced

/-- A node replaced by what it reads as: everything around it stays good. -/
theorem Good.lift {f : Frame} {fs : List Frame} {old v : Weave} {bs bs' : List Char}
    {k k' : Kind} {ps ps' : List Weave} (old_eq : old = .node k ps) (v_eq : v = .node k' ps')
    (solid : old.cells ≠ []) (solid' : v.cells ≠ []) (blank : ∀ c ∈ bs, Text.isBlank c = true)
    (blank' : ∀ c ∈ bs', Text.isBlank c = true)
    (front : bs = [] → ∀ last, EndsWith (left (f :: fs)) last →
      Gap.admits (.touching last) old.front = true → Gap.admits (.touching last) v.front = true)
    (tail : TailFits old.cells (stored (pieces bs v bs')) (right (f :: fs))) (inner : Good false v)
    (good : Good loose (Weave.wrap fs (f.fill [old]))) :
    Good loose (Weave.wrap fs (f.fill (pieces bs v bs'))) := by
  have solid_pieces : stored (pieces bs v bs') ≠ [] := by
    rw [stored_pieces]
    simp [solid']
  refine Good.wrap (rfl : f.fill [old] = _) rfl ?_ ?_ ?_ ?_ ?_ good
  · simp [Frame.fill, solid]
  · simp [Frame.fill, solid_pieces]
  · exact fun c found => front_fill old_eq found
  · exact TailFits.fill solid solid_pieces tail
  · intro lax good
    have around : Good lax (.node f.kind (f.before ++ old :: f.after)) := by
      simpa [Frame.fill] using good
    refine around.replace bs bs' (right fs) old_eq v_eq solid' blank blank' ?_ tail fun _ => inner
    intro none last ends
    refine front none last ?_
    rw [left]
    rw [EndsWith] at ends ⊢
    rw [List.getLast?_append, ends]
    rfl

end FormEdit.Weave
