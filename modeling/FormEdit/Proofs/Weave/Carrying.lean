import FormEdit.Proofs.Weave.Backing

/-!
# A change of one node in the nodes around it

When a node changes, the nodes around it stay good and backed. This takes three things: the losses
on either side of the node move along, whatever could stand ahead of the node still can, and the
node either ends as it did or has lost a character at its end. In the last case the node around it
is marked too, and the same holds of that node (`Carries.fill`), so the argument goes on to the
root.
-/

namespace FormEdit.Weave

open Buffer

variable {lost lost' : Nat → Prop} {position start : Nat}

/-- Two weaves with the same forms and the same current cells. -/
structure Looks (w w' : Weave) : Prop where
  forms : ∀ p, formsOf p w = formsOf p w'
  cells : live w.cells = live w'.cells

namespace Looks

variable {w w' : Weave}

theorem refl (w : Weave) : Looks w w := ⟨fun _ => rfl, rfl⟩

theorem trans {w'' : Weave} (first : Looks w w') (second : Looks w' w'') : Looks w w'' :=
  ⟨fun p => (first.forms p).trans (second.forms p), first.cells.trans second.cells⟩

theorem room (looks : Looks w w') : w.room = w'.room := by
  rw [Weave.room, Weave.room, ← length_live, ← length_live, looks.cells]

theorem fill (looks : Looks w w') (f : Frame) : Looks (f.fill [w]) (f.fill [w']) := by
  constructor
  · intro p
    simp only [Frame.fill, formsOf_node, formsAt_append, formsAt_singleton, width_append,
      width_cons, width_nil, Nat.add_zero, looks.forms, looks.room]
  · simp only [Frame.fill, cells_node, stored_append, stored_cons, stored_nil, List.append_nil,
      live_append, looks.cells]

theorem wrap (looks : Looks w w') (fs : List Frame) :
    Looks (Weave.wrap fs w) (Weave.wrap fs w') := by
  induction fs generalizing w w' with
  | nil => exact looks
  | cons f fs ih => exact ih (looks.fill f)

end Looks

/-! ## Losses around a node -/

section

variable {f : Frame} {old ws : List Weave}

theorem mem_formsAt_fill (start_eq : start = position + width f.before) {g : Form} :
    g ∈ formsAt position (f.before ++ ws ++ f.after) ↔ g ∈ formsAt position f.before ∨
      g ∈ formsAt start ws ∨ g ∈ formsAt (start + width ws) f.after := by
  rw [formsAt_append, formsAt_append, width_append, ← Nat.add_assoc, ← start_eq]
  simp only [List.mem_append, or_assoc]

/-- The end of what fills a frame is among the parts of the node. -/
theorem among_edge (start_eq : start = position + width f.before) :
    Among (start + width ws) position (f.before ++ ws ++ f.after) := by
  refine ⟨by omega, by simp only [width_append]; omega, ?_⟩
  intro g listed
  rcases (mem_formsAt_fill start_eq).mp listed with listed | listed | listed
  · have := (formsAt_inside listed).2.2
    exact .inr (by omega)
  · exact .inr (formsAt_inside listed).2.2
  · exact .inl (formsAt_inside listed).2.1

/-- What is lost among the parts of a node is not strictly inside of a stretch of them. -/
def Beside (lost : Nat → Prop) (f : Frame) (old : List Weave) (position start : Nat) : Prop :=
  ∀ x, lost x → Among x position (f.before ++ old ++ f.after) → x ≤ start ∨ start + width old ≤ x

theorem beside_node {v : Weave} {k : Kind} {ps : List Weave} (v_eq : v = .node k ps)
    (start_eq : start = position + width f.before) : Beside lost f [v] position start := by
  intro x _ among
  obtain ⟨g, listed⟩ : ∃ g, g ∈ formsOf start v := by
    rw [v_eq, formsOf_node]
    exact ⟨_, List.mem_singleton_self _⟩
  obtain ⟨-, g_start, g_stop⟩ := nests v start g listed
  have := among.outside g ((mem_formsAt_fill start_eq).mpr (.inr (.inl (by simpa using listed))))
  simp only [width_cons, width_nil]
  omega

/-- A loss beside a stretch of the parts of a node moves along when the stretch is replaced. -/
theorem Among.carry {x : Nat} (start_eq : start = position + width f.before)
    (beside : Beside lost f old position start) (left : ∀ x ≤ start, lost x → lost' x)
    (right : ∀ x y, start + width old ≤ x → x + width ws = y + width old → lost x → lost' y)
    (among : Among x position (f.before ++ old ++ f.after)) (is_lost : lost x) :
    ∃ y, lost' y ∧ Among y position (f.before ++ ws ++ f.after) := by
  have side := beside x is_lost among
  obtain ⟨low, high, outside⟩ := among
  simp only [width_append] at high
  rcases side with side | side
  · refine ⟨x, left x side is_lost, low, by simp only [width_append]; omega, ?_⟩
    intro g listed
    rcases (mem_formsAt_fill start_eq).mp listed with listed | listed | listed
    · exact outside g ((mem_formsAt_fill start_eq).mpr (.inl listed))
    · exact .inl (Nat.le_trans side (formsAt_inside listed).2.1)
    · have := (formsAt_inside listed).2.1
      exact .inl (by omega)
  · refine ⟨x - width old + width ws, right x _ side (by omega) is_lost, by omega,
      by simp only [width_append]; omega, ?_⟩
    intro g listed
    rcases (mem_formsAt_fill start_eq).mp listed with listed | listed | listed
    · have := (formsAt_inside listed).2.2
      exact .inr (by omega)
    · have := (formsAt_inside listed).2.2
      exact .inr (by omega)
    · rw [formsAt_moved (start + width old) (start + width ws)] at listed
      obtain ⟨g', was, rfl⟩ := List.mem_map.mp listed
      have apart := outside g' ((mem_formsAt_fill start_eq).mpr (.inr (.inr was)))
      have order := g'.span.start_le_stop
      have late := (formsAt_inside was).2.1
      simp only [Form.span_moved, Span.moved]
      omega

/-- A node stays backed when a stretch of its parts is replaced: the losses on either side of it
move along, and a new mark is backed by a loss at its end. -/
theorem Backed.fill (start_eq : start = position + width f.before)
    (beside : Beside lost f old position start) (left : ∀ x ≤ start, lost x → lost' x)
    (right : ∀ x y, start + width old ≤ x → x + width ws = y + width old → lost x → lost' y)
    (edge : Marked ws → lost' (start + width ws)) (inner : BackedEach lost' start ws)
    (backed : Backed lost position (f.fill old)) : Backed lost' position (f.fill ws) := by
  obtain ⟨own, each⟩ := backed_node.mp backed
  rw [backedEach_append, backedEach_append, width_append, ← Nat.add_assoc, ← start_eq] at each
  obtain ⟨⟨before, -⟩, after⟩ := each
  refine backed_node.mpr ⟨?_, ?_⟩
  · rintro ⟨c, mem⟩
    by_cases new : .cell ⟨c, .deleted⟩ ∈ ws
    · exact ⟨_, edge ⟨c, new⟩, among_edge start_eq⟩
    · obtain ⟨x, is_lost, among⟩ := own ⟨c, by
        simp only [List.mem_append] at mem ⊢
        tauto⟩
      exact among.carry start_eq beside left right is_lost
  · refine backedEach_append.mpr ⟨backedEach_append.mpr ⟨before.moved ?_, ?_⟩, ?_⟩
    · exact fun n hn is_lost => left _ (by omega) is_lost
    · rwa [← start_eq]
    · rw [width_append, ← Nat.add_assoc, ← start_eq]
      exact after.moved fun n hn is_lost => right _ _ (by omega) (by omega) is_lost

end

/-! ## Carrying a change outwards -/

/-- A node at a position turns into another one that stays as it should, and that may stand behind
whatever the first one may. -/
structure Turns (lost lost' : Nat → Prop) (position : Nat) (v v' : Weave) : Prop where
  is_node : ∃ k ps, v' = .node k ps
  front : ∀ gap, Gap.admits gap v.front = true → gap.admits v'.front = true
  backed : Backed lost position v → Backed lost' position v'
  good : ∀ loose, Backed lost position v → Good loose v → Good loose v'

theorem room_fill (f : Frame) (v : Weave) :
    (f.fill [v]).room = width f.before + v.room + width f.after := by
  simp [Frame.fill, Nat.add_assoc]

/-- A node turns into another one, and the nodes around it stay as they should. -/
structure Carries (lost lost' : Nat → Prop) (position : Nat) (v v' : Weave) : Prop
    extends Turns lost lost' position v v' where
  was_node : ∃ k ps, v = .node k ps
  solid : v.cells ≠ []
  left : ∀ x ≤ position, lost x → lost' x
  right : ∀ x y, position + v.room ≤ x → x + v'.room = y + v.room → lost x → lost' y
  tail : (∀ last, EndsWith v.cells last → EndsWith v'.cells last) ∨ lost' (position + v'.room)

/-- A mark beside the part that has changed. -/
def mark : Weave := .cell ⟨' ', .deleted⟩

theorem looks_mark (f : Frame) (v : Weave) : Looks (f.fill [v, mark]) (f.fill [v]) := by
  have no_room : mark.room = 0 := rfl
  have no_cells : live mark.cells = [] := rfl
  have no_form (p : Nat) : formsOf p mark = [] := formsOf_cell p _
  constructor
  · intro p
    simp only [Frame.fill, formsOf_node, formsAt_append, formsAt_cons, formsAt_nil, width_append,
      width_cons, width_nil, no_room, no_form, List.append_nil, Nat.add_zero]
  · simp only [Frame.fill, cells_node, stored_append, stored_cons, stored_nil, List.append_nil,
      live_append, no_cells]

theorem admits_of_front {v v' : Weave} (same : ∀ c, v.front = some c → v'.front = some c) :
    ∀ gap, Gap.admits gap v.front = true → gap.admits v'.front = true := by
  intro gap admitted
  cases front : v.front with
  | some c => rwa [same c front, ← front]
  | none =>
    rw [front] at admitted
    cases gap with
    | free => rfl
    | touching _ => cases admitted
    | blocked => cases admitted

theorem cells_fill (f : Frame) (ws : List Weave) :
    (f.fill ws).cells = stored f.before ++ (stored ws ++ stored f.after) := by
  simp [Frame.fill]

theorem endsWith_fill {f : Frame} (behind : stored f.after ≠ []) (ws : List Weave) {last : Char} :
    EndsWith (f.fill ws).cells last ↔ EndsWith (stored f.after) last := by
  rw [cells_fill, endsWith_append (by simp [behind]), endsWith_append behind]

section

variable {f : Frame} {v v' : Weave}

theorem Carries.fill_solid (carries : Carries lost lost' start v v') : (f.fill [v]).cells ≠ [] := by
  rw [cells_fill]
  simp [carries.solid]

/-- What is lost behind the node around a change moves along with what is lost behind the change. -/
theorem Carries.fill_right (carries : Carries lost lost' (position + width f.before) v v')
    {w : Weave} (looks : Looks w (f.fill [v'])) (x y : Nat)
    (late : position + (f.fill [v]).room ≤ x) (along : x + w.room = y + (f.fill [v]).room)
    (is_lost : lost x) : lost' y := by
  rw [looks.room, room_fill, room_fill] at along
  rw [room_fill] at late
  exact carries.right x y (by omega) (by omega) is_lost

theorem backed_hole (around : Backed lost position (f.fill [v])) :
    Backed lost (position + width f.before) v :=
  backedEach_iff.mp (backed_node.mp around).2 f.before v f.after (by simp)

/-- The nodes inside of a backed weave are backed. -/
theorem backed_under {gs : List Frame} (backed : Backed lost position (wrap gs v)) :
    Backed lost (position + currentCount (left gs)) v := by
  induction gs generalizing v with
  | nil => simpa [left, wrap] using backed
  | cons g gs ih =>
    rw [left, currentCount_append, ← Nat.add_assoc]
    exact backed_hole (ih backed)

theorem Carries.fill_backed (carries : Carries lost lost' (position + width f.before) v v')
    {ws : List Weave} (same : width ws = v'.room)
    (inner : Backed lost' (position + width f.before) v' →
      BackedEach lost' (position + width f.before) ws)
    (edge : Marked ws → lost' (position + width f.before + width ws))
    (around : Backed lost position (f.fill [v])) : Backed lost' position (f.fill ws) := by
  obtain ⟨k, ps, v_eq⟩ := carries.was_node
  refine around.fill rfl (beside_node v_eq rfl) carries.left ?_ edge
    (inner (carries.backed (backed_hole around)))
  exact fun x y late along => carries.right x y (by simpa using late) (by simpa [same] using along)

theorem Carries.fill_good {loose : Bool}
    (carries : Carries lost lost' (position + width f.before) v v')
    (same_end : ∀ last, EndsWith v.cells last → EndsWith v'.cells last)
    (around : Backed lost position (f.fill [v])) (is_good : Good loose (f.fill [v])) :
    Good loose (f.fill [v']) := by
  obtain ⟨k, ps, v_eq⟩ := carries.was_node
  obtain ⟨k', ps', v'_eq⟩ := carries.is_node
  cases is_good with
  | @changed _ _ _ c marked =>
    refine .changed (c := c) ?_
    rw [v_eq] at marked
    simp only [List.mem_append, List.mem_singleton, reduceCtorEq, or_false] at marked ⊢
    tauto
  | shaped shape each =>
    have inner := carries.good false (backed_hole around) (each v (by simp))
    have solid' : v'.cells ≠ [] := by
      rw [v'_eq] at inner ⊢
      exact inner.solid
    have whole : Good loose (.node f.kind (f.before ++ v :: f.after)) := by
      simpa using Good.shaped shape each
    have replaced := whole.replace [] [] [] v_eq v'_eq solid' (by simp) (by simp)
      (fun _ last _ => carries.front (.touching last))
      (.inl fun z ends => by simpa [pieces] using same_end z ends) (fun _ => inner)
    simpa [Frame.fill, pieces] using replaced

/-- Around a node that ends as it did, the change is the whole change. -/
theorem Carries.fill_same (carries : Carries lost lost' (position + width f.before) v v')
    (same_end : ∀ last, EndsWith v.cells last → EndsWith v'.cells last) :
    Carries lost lost' position (f.fill [v]) (f.fill [v']) := by
  obtain ⟨k, ps, v_eq⟩ := carries.was_node
  refine ⟨⟨⟨_, _, rfl⟩, admits_of_front fun c => front_fill v_eq, ?_,
      fun loose => carries.fill_good same_end⟩, ⟨_, _, rfl⟩, carries.fill_solid,
    fun x near => carries.left x (by omega), carries.fill_right (.refl _), .inl fun z ends => ?_⟩
  · obtain ⟨k', ps', v'_eq⟩ := carries.is_node
    refine carries.fill_backed (by simp) (fun inner => backedEach_cons.mpr ⟨inner, by simp⟩) ?_
    rintro ⟨c, mem⟩
    rw [List.mem_singleton, v'_eq] at mem
    cases mem
  · by_cases last : stored f.after = []
    · simp only [cells_fill, stored_cons, stored_nil, List.append_nil, last] at ends ⊢
      have ends_v := same_end z ((endsWith_append carries.solid).mp ends)
      have solid' : v'.cells ≠ [] := by
        rintro none
        simp [EndsWith, none] at ends_v
      exact (endsWith_append solid').mpr ends_v
    · rwa [endsWith_fill last] at ends ⊢

/-- Around a node that has lost its end, the loss is marked behind it. -/
theorem Carries.fill_lost (carries : Carries lost lost' (position + width f.before) v v')
    (lost_end : lost' (position + width f.before + v'.room)) :
    Carries lost lost' position (f.fill [v]) (f.fill [v', mark]) := by
  obtain ⟨k, ps, v_eq⟩ := carries.was_node
  have no_room : width [v', mark] = v'.room := by
    rw [width_cons, width_cons, width_nil]
    rfl
  refine ⟨⟨⟨_, _, rfl⟩, admits_of_front fun c => front_fill v_eq, ?_,
      fun loose _ _ => .changed (c := ' ') (by simp [mark])⟩, ⟨_, _, rfl⟩, carries.fill_solid,
    fun x near => carries.left x (by omega), carries.fill_right (looks_mark f v'), ?_⟩
  · refine carries.fill_backed no_room (fun inner => backedEach_cons.mpr ⟨inner, ?_⟩) ?_
    · exact backedEach_cons.mpr ⟨backed_cell _, by simp⟩
    · intro _
      rwa [no_room]
  · by_cases last : stored f.after = []
    · refine .inr ?_
      have none : width f.after = 0 := by rw [width, last]; rfl
      rw [(looks_mark f v').room, room_fill, none]
      rwa [Nat.add_zero, ← Nat.add_assoc]
    · refine .inl fun z ends => ?_
      rwa [endsWith_fill last] at ends ⊢

/-- The node around a node that has changed. -/
theorem Carries.fill (f : Frame) (carries : Carries lost lost' (position + width f.before) v v') :
    ∃ w, Looks w (f.fill [v']) ∧ Carries lost lost' position (f.fill [v]) w := by
  rcases carries.tail with same_end | lost_end
  · exact ⟨f.fill [v'], .refl _, carries.fill_same same_end⟩
  · exact ⟨f.fill [v', mark], looks_mark f v', carries.fill_lost lost_end⟩

end

/-- All nodes around a node that has changed. -/
theorem Carries.wrap {v v' : Weave} (fs : List Frame)
    (carries : Carries lost lost' (position + currentCount (Weave.left fs)) v v') :
    ∃ w, Looks w (Weave.wrap fs v') ∧ Carries lost lost' position (Weave.wrap fs v) w := by
  induction fs generalizing v v' with
  | nil => exact ⟨v', .refl v', by simpa [Weave.left, Weave.wrap] using carries⟩
  | cons f fs ih =>
    have here :
        Carries lost lost' (position + currentCount (Weave.left fs) + width f.before) v v' := by
      rwa [Weave.left, currentCount_append, ← Nat.add_assoc] at carries
    obtain ⟨u, looks, filled⟩ := here.fill f
    obtain ⟨w, looks', whole⟩ := ih filled
    exact ⟨w, looks'.trans (looks.wrap fs), whole⟩

/-- The whole weave when one of its nodes turns; a root has nothing around it. -/
theorem Turns.exists_wrap {v v' : Weave} {fs : List Frame}
    (turns : Turns lost lost' (position + currentCount (Weave.left fs)) v v')
    (carries : fs ≠ [] → Carries lost lost' (position + currentCount (Weave.left fs)) v v') :
    ∃ w, Looks w (Weave.wrap fs v') ∧ Turns lost lost' position (Weave.wrap fs v) w := by
  cases fs with
  | nil => exact ⟨v', .refl v', by simpa [Weave.left, Weave.wrap] using turns⟩
  | cons f fs =>
    obtain ⟨w, looks, whole⟩ := (carries (by simp)).wrap
    exact ⟨w, looks, whole.toTurns⟩

end FormEdit.Weave
