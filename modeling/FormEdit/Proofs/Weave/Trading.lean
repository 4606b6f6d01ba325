import FormEdit.Proofs.Buffer.Kept
import FormEdit.Proofs.Weave.Carrying
import FormEdit.Proofs.Weave.Reviving

/-!
# Other text between the edges of a node

A node of which nothing is lost gets another text that reads on its own and has the same first and
last character. What stands around the node can have losses; they stay where they are on either side
of it, so the nodes around it stay good and backed (`carries_traded`).
-/

namespace FormEdit.Weave

open Buffer FormEdit.Language

variable {position : Nat} {chars : List Char} {f : Form} {kind : Kind} {parts : List Weave}
  {v v' : Weave}

/-! ## Texts without blanks around them -/

/-- A text without blanks around it that reads as a form, as a weave. -/
structure Exact (position : Nat) (chars : List Char) (f : Form) (v : Weave)
    (first last : Char) : Prop where
  kept : Kept [v]
  good : Good false v
  form : formsOf position v = [f]
  text : spelling [v] = chars
  ends : Ends v first last
  solid : Text.isBlank first = false

namespace Exact

variable {first last : Char}

theorem of_composed {bs bs' : List Char} (composed : Composed position chars f bs v bs' first last)
    (at_front : bs = []) (at_end : bs' = []) : Exact position chars f v first last := by
  subst at_front at_end
  obtain ⟨k, ps, rfl⟩ := is_node_of_form composed.form
  have kept := kept_node.mp composed.kept
  have text := composed.text
  rw [List.nil_append, List.append_nil] at text
  refine ⟨composed.kept, composed.good, composed.form, text.symm, composed.ends, ?_⟩
  obtain ⟨c, head, solid⟩ := ((composed.good.shape kept).1.spelled kept).solid_front
  have head' := composed.ends.head_eq
  rw [spelling_node, head] at head'
  cases head'
  exact solid

/-- The form of a text tells whether there are blanks around it. -/
theorem of_span (reads : Reads position chars f)
    (span : f.span = Span.sized position chars.length) :
    ∃ v first last, Exact position chars f v first last := by
  obtain ⟨bs, v, bs', first, last, composed⟩ := exists_composed reads
  obtain ⟨-, start, stop⟩ := nests v _ f (by rw [composed.form]; simp)
  have length := congrArg List.length composed.text
  have room := room_eq composed.kept
  rw [span] at start stop
  simp only [Span.sized, List.length_append] at start stop length
  exact ⟨v, first, last, of_composed composed (List.eq_nil_of_length_eq_zero (by omega))
    (List.eq_nil_of_length_eq_zero (by omega))⟩

/-- So do its first and last character. -/
theorem of_edges (reads : Reads position chars f)
    (head : ∀ c, chars.head? = some c → Text.isBlank c = false)
    (last : ∀ c, chars.getLast? = some c → Text.isBlank c = false) :
    ∃ v first last, Exact position chars f v first last := by
  obtain ⟨bs, v, bs', first, final, composed⟩ := exists_composed reads
  refine ⟨v, first, final, of_composed composed ?_ ?_⟩
  · cases bs with
    | nil => rfl
    | cons b bs =>
      have solid := head b (by rw [composed.text]; rfl)
      rw [composed.blank b List.mem_cons_self] at solid
      cases solid
  · rcases List.eq_nil_or_concat bs' with none | ⟨bs', b, rfl⟩
    · exact none
    · have solid := last b (by rw [composed.text]; simp)
      rw [composed.blank' b (by simp)] at solid
      cases solid

theorem cells_eq (exact : Exact position chars f v first last) : v.cells = keptCells chars := by
  have stored := stored_eq_keptCells exact.kept
  rwa [stored_cons, stored_nil, List.append_nil, exact.text] at stored

theorem is_node (exact : Exact position chars f v first last) : ∃ k ps, v = .node k ps :=
  is_node_of_form exact.form

/-- The form fills the node. -/
theorem form_eq (exact : Exact position chars f v first last) :
    f = .node ⟨f.kind, Span.sized position v.room⟩ f.children := by
  obtain ⟨-, start, stop⟩ := nests v _ f (by rw [exact.form]; simp)
  obtain ⟨⟨kind, span⟩, children⟩ := f
  have span_eq : span = Span.sized position v.room := Span.ext start stop
  exact congrArg (fun span => Rose.node (Tag.mk kind span) children) span_eq

theorem head_eq (exact : Exact position chars f v first last) : chars.head? = some first := by
  rw [← exact.text]
  exact exact.ends.head_eq

theorem last_eq (exact : Exact position chars f v first last) : chars.getLast? = some last := by
  have final := exact.ends.last_eq
  rw [exact.cells_eq, keptCells, List.getLast?_map, Option.map_eq_some_iff] at final
  obtain ⟨c, found, same⟩ := final
  cases same
  exact found

/-- Another text with the same first and last character. -/
theorem exists_traded {chars' : List Char} {f' : Form} (exact : Exact position chars f v first last)
    (reads : Reads position chars' f') (same_head : chars'.head? = chars.head?)
    (same_last : chars'.getLast? = chars.getLast?) :
    ∃ v', Exact position chars' f' v' first last := by
  rw [exact.head_eq] at same_head
  rw [exact.last_eq] at same_last
  obtain ⟨v', first', last', exact'⟩ := of_edges reads
    (fun c is_head => by cases same_head.symm.trans is_head; exact exact.solid)
    (fun c is_last => by cases same_last.symm.trans is_last; exact exact.ends.solid)
  cases exact'.head_eq.symm.trans same_head
  cases exact'.last_eq.symm.trans same_last
  exact ⟨v', exact'⟩

end Exact

/-- A node reads from its first character on and past all but the last one of its children; two
children stand between parentheses. -/
theorem Spelled.around (spelled : Spelled kind parts) (kept : Kept parts)
    (each : ∀ w ∈ parts, Good false w) :
    ∀ g ∈ formsAt position parts, position < (Form.span g).start ∧
      (Form.span g).start < position + width parts ∧
      ((formsAt position parts).length ≠ 1 → (Form.span g).stop < position + width parts) := by
  cases spelled with
  | @list middle gap ran =>
    intro g mem
    rw [formsAt_list] at mem
    rw [width_list]
    obtain ⟨-, start, stop⟩ := formsAt_inside mem
    have order := g.span.start_le_stop
    exact ⟨by omega, by omega, fun _ => by omega⟩
  | @quote bs k ps blank solid =>
    intro g mem
    rw [formsAt_quote] at mem ⊢
    rw [width_quote]
    obtain ⟨-, start, -⟩ := nests _ _ g mem
    have kept_node : Kept [.node k ps] := kept.mem (by simp)
    obtain ⟨first, last, ends⟩ := exists_ends kept_node (each _ (by simp))
    have positive : 0 < (node k ps).room := by
      rw [room_eq kept_node]
      have head := ends.head_eq
      exact List.length_pos_of_ne_nil fun none => by simp [none] at head
    exact ⟨by omega, by omega, fun two => absurd (by simp [formsOf_node]) two⟩
  | atom nonempty all =>
    intro g mem
    simp at mem

theorem Exact.around {first last : Char} (exact : Exact position chars f v first last) :
    ∀ g ∈ f.children, position < (Form.span g).start ∧
      (Form.span g).start < position + chars.length ∧
      (f.children.length ≠ 1 → (Form.span g).stop < position + chars.length) := by
  obtain ⟨k, ps, rfl⟩ := exact.is_node
  have kept := kept_node.mp exact.kept
  obtain ⟨shape, each⟩ := exact.good.shape kept
  have form := exact.form
  have text := exact.text
  rw [formsOf_node, List.cons.injEq] at form
  rw [spelling_node] at text
  rw [← form.1, ← text, ← kept.width, Rose.children_node]
  exact (shape.spelled kept).around kept each

/-! ## Another text for a node -/

theorem keptCells_chars {cells : List Cell} (kept : AllKept cells) :
    keptCells (cells.map Cell.char) = cells := by
  rw [keptCells, ← kept.shown_eq, ← kept.cells_eq]

/-- The front of a node of kept cells is its first cell. -/
theorem head_of_front {c : Cell} (kept : Kept [.node kind parts])
    (front : (node kind parts).front = some c) : (node kind parts).cells.head? = some c := by
  rw [cells_node]
  cases parts with
  | nil => cases front
  | cons w ws =>
    cases w with
    | node k ps => cases front
    | cell d =>
      obtain ⟨d, status⟩ := d
      obtain rfl : status = .kept := kept ⟨d, status⟩ (by simp)
      exact front

section

variable {before mid behind : List Cell} {first last : Char}

/-- What is lost in a text of which a stretch is kept is lost ahead of it or behind it. -/
theorem lostAt_around (kept : AllKept mid) (ends : EndsCurrent before)
    (starts : StartsCurrent behind) {x : Nat} : LostAt (before ++ (mid ++ behind)) x ↔
      LostAt before x ∧ x < currentCount before ∨
        ∃ y, LostAt behind y ∧ 0 < y ∧ x = currentCount before + mid.length + y := by
  constructor
  · intro lost
    rcases lostAt_append.mp lost with ahead | ⟨y, within, rfl⟩
    · exact .inl ⟨ahead, lostAt_lt ahead ends⟩
    · rcases lostAt_append.mp within with inside | ⟨z, later, rfl⟩
      · exact absurd inside (not_lostAt_of_current kept.current y)
      · refine .inr ⟨z, later, lostAt_pos later starts, ?_⟩
        rw [kept.currentCount_eq, Nat.add_assoc]
  · rintro (⟨ahead, -⟩ | ⟨y, later, -, rfl⟩)
    · exact lostAt_append.mpr (.inl ahead)
    · refine lostAt_append.mpr (.inr ⟨mid.length + y, lostAt_append.mpr (.inr ⟨y, later, ?_⟩), ?_⟩)
      · rw [kept.currentCount_eq]
      · rw [Nat.add_assoc]

/-- A node of kept cells gets another text with the same first and last character. -/
theorem carries_traded (v_eq : v = .node kind parts) (kept : AllKept v.cells)
    (exact : Exact position chars f v' first last) (head : v.cells.head? = some ⟨first, .kept⟩)
    (final : v.cells.getLast? = some ⟨last, .kept⟩) (count : currentCount before = position)
    (ends : EndsCurrent before) (starts : StartsCurrent behind) :
    Carries (LostAt (before ++ (v.cells ++ behind))) (LostAt (before ++ (v'.cells ++ behind)))
      position v v' := by
  have kept_v : Kept [v] := by simpa [Kept, AllKept] using kept
  have kept' : AllKept v'.cells := by simpa [Kept, AllKept] using exact.kept
  have room : v.room = v.cells.length := kept.currentCount_eq
  have room' : v'.room = v'.cells.length := kept'.currentCount_eq
  refine ⟨⟨exact.is_node, ?_, ?_, ?_⟩, ⟨kind, parts, v_eq⟩, ?_, ?_, ?_, .inl ?_⟩
  · intro gap admitted
    cases front : v.front with
    | none =>
      rw [front] at admitted
      cases gap with
      | free => rfl
      | touching _ => cases admitted
      | blocked => cases admitted
    | some c =>
      subst v_eq
      have same := (head_of_front kept_v front).symm.trans head
      rwa [exact.ends.front_eq, ← same, ← front]
  · intro _
    exact backed_of_unmarked (by simpa [Unmarked] using kept'.current)
  · intro loose _ _
    cases loose with
    | false => exact exact.good
    | true => exact exact.good.loosen
  · intro none
    simp [none] at head
  · intro x near lost
    rcases (lostAt_around kept ends starts).mp lost with ahead | ⟨y, -, later, rfl⟩
    · exact (lostAt_around kept' ends starts).mpr (.inl ahead)
    · omega
  · intro x y late along lost
    rcases (lostAt_around kept ends starts).mp lost with ⟨-, early⟩ | ⟨z, behind_lost, later, rfl⟩
    · omega
    · exact (lostAt_around kept' ends starts).mpr (.inr ⟨z, behind_lost, later, by omega⟩)
  · intro z ends_z
    have same := ends_z.symm.trans final
    cases same
    exact exact.ends.last_eq

end

end FormEdit.Weave
