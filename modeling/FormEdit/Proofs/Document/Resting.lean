import FormEdit.Document.Restructuring
import FormEdit.Proofs.Buffer.Kept
import FormEdit.Proofs.Buffer.Moving
import FormEdit.Proofs.Document.Fresh
import FormEdit.Proofs.Document.Rereading
import FormEdit.Proofs.Document.Undoing
import FormEdit.Proofs.Grammar.Pieces
import FormEdit.Proofs.Tree.Siblings

/-!
# Moving and copying in a settled document

In a document without pending changes that is in step with its text, a child that is moved or copied
stays between the parentheses of its list, and what stands there stays tame, since the pieces that
change places begin and end at the edges of tokens. So if the list reads as a form again, the whole
text reads as the tree with that form in its place.
-/

namespace FormEdit

open Rose Buffer Lexer Branch FormEdit.Language FormEdit.Tree

namespace Tree

variable {fs : List (Frame (Handle × Node))} {count : Nat}

/-- Nothing around a hole comes to stand past the last position if room for `count` characters is
made in it. -/
def HasRoom (count : Nat) (fs : List (Frame (Handle × Node))) : Prop :=
  ∀ entry ∈ around fs, entry.2.span.stop + count < positionLimit

namespace HasRoom

theorem value (room : HasRoom count fs) {f : Frame (Handle × Node)} (mem : f ∈ fs) :
    f.value.2.span.stop + count < positionLimit :=
  room f.value (List.mem_flatMap.mpr ⟨f, mem, by simp [Frame.around]⟩)

theorem behind (room : HasRoom count fs) {f : Frame (Handle × Node)} (mem : f ∈ fs) {b : Branch}
    (mem_b : b ∈ f.after) {entry : Handle × Node} (mem_entry : entry ∈ b.preorder) :
    entry.2.span.stop + count < positionLimit := by
  refine room entry (List.mem_flatMap.mpr ⟨f, mem, ?_⟩)
  simp only [Frame.around, List.mem_cons, List.mem_append, List.mem_flatMap]
  exact .inr (.inr ⟨b, mem_b, mem_entry⟩)

theorem roomy (room : HasRoom count fs) : Roomy count fs := by
  intro f mem
  constructor
  · have bound := room.value mem
    have ordered := f.value.2.span.start_le_stop
    constructor <;> omega
  · intro b mem_b entry mem_entry
    have bound := room.behind mem mem_b mem_entry
    constructor <;> omega

/-- Room that has been made can be taken back. -/
theorem back (room : HasRoom count fs) : Roomy (-(count : Int)) (fs.map (roomFrame count)) := by
  intro f' mem'
  obtain ⟨f, mem, rfl⟩ := List.mem_map.mp mem'
  constructor
  · have bound := room.value mem
    have stop := (Reader.stretched_stop f.value.2.span count).2
    have ordered := f.value.2.span.start_le_stop
    constructor
    · change (f.value.2.span.start : Int) ≤ (f.value.2.span.stretched count).stop + -count
      omega
    · change ((f.value.2.span.stretched count).stop : Int) + -count < positionLimit
      omega
  · intro b' mem_b' entry' mem_entry'
    obtain ⟨b, mem_b, rfl⟩ := List.mem_map.mp mem_b'
    rw [Branch.moved, preorder_map] at mem_entry'
    obtain ⟨entry, mem_entry, rfl⟩ := List.mem_map.mp mem_entry'
    have bound := room.behind mem mem_b mem_entry
    simp only [Node.moved, Span.moved]
    constructor <;> omega

end HasRoom

end Tree

namespace Document

variable {d d₁ d' : Document} {b P : Branch} {fs : List (Frame (Handle × Node))}

/-- A document whose tree has no node that reaches past the end of the text. -/
structure Laid (d : Document) (b : Branch) : Prop where
  holds : Holds d.tree b
  inside : ∀ entry ∈ b.preorder, entry.2.span.stop ≤ d.text.currentLength

namespace Laid

theorem hasRoom {count : Nat} (laid : Laid d (plug fs P))
    (fits : d.text.currentLength + count < positionLimit) : HasRoom count fs := by
  intro entry mem
  have bound := laid.inside entry ((preorder_plug fs P).mem_iff.mpr (List.mem_append_right _ mem))
  omega

theorem hole_inside (laid : Laid d (plug fs P)) : P.value.2.span.stop ≤ d.text.currentLength :=
  laid.inside _ ((preorder_plug fs P).mem_iff.mpr (List.mem_append_left _ P.value_mem_preorder))

end Laid

/-- A document without changes whose text reads as its tree. -/
structure Resting (d : Document) (b : Branch) : Prop where
  holds : Holds d.tree b
  kept : AllKept d.text.cells
  parses : Parses 0 d.text.current (Branch.form b)

theorem Resting.laid (resting : Resting d b) : Laid d b where
  holds := resting.holds
  inside := by
    intro entry mem
    have bound := (resting.parses.inside (tag_mem_form mem)).2
    rw [Nat.zero_add, length_current] at bound
    exact bound

theorem Resting.hole_inside (resting : Resting d (plug fs P)) :
    P.value.2.span.stop ≤ d.text.currentLength :=
  resting.laid.hole_inside

/-! ## Reading a list again -/

variable {value : Handle × Node} {parts : List Branch}

/-- A node of a document without changes reads the same in both views. -/
theorem readNode_committed {ahead piece behind : List Char}
    (holds : Holds d.tree (plug fs (.node value parts))) (kept : AllKept d.text.cells)
    (text : d.text.current = ahead ++ (piece ++ behind))
    (span_eq : value.2.span = Span.sized ahead.length piece.length) :
    d.readNode parenthesised value.1 .committed =
      parenthesised.readWhole (Placed.run ahead.length piece) := by
  have span : d.tree.span value.1 = .ok value.2.span := holds.hole.span_eq
  have start : value.2.span.start ≤ d.text.currentLength := by
    rw [span_eq, ← length_current, text, List.length_append]
    exact Nat.le_add_right _ _
  have under : pieceOf d.text.current value.2.span = piece := by
    rw [text, span_eq]
    exact pieceOf_append rfl (by simp [Span.sized])
  rw [readNode, span, mapError_ok, ok_bind, slice_committed kept, slice_current _ start]
  rw [pieceOf] at under
  rw [under, span_eq]
  rfl

/-- A list that has been read again in its place. -/
theorem putForm_renews {frames : List (Frame Tag)} {span : Span} {cs : List Form}
    {text ahead inside inside' behind : List Char} {count : Nat} {g : Form}
    (enclosed : Enclosed 0 text frames span cs ahead inside behind)
    (holds : Holds d.tree (plug fs (.node value parts))) (kept : AllKept d.text.cells)
    (tags_eq : tags fs = frames.map (roomTags count))
    (length : inside'.length = inside.length + count) (tame : Tame inside')
    (span_eq : value.2.span = Span.sized ahead.length (inside'.length + 2))
    (text_eq : d.text.current = ahead ++ (parens inside' ++ behind))
    (parses : Parses ahead.length (parens inside') g) :
    ∃ new tree ids fs' c, d.putForm value.1 g .committed =
        .ok (new, { d with tree := tree, ids := ids }) ∧
      Resting { d with tree := tree, ids := ids } (plug fs' c) ∧ tags fs' = tags fs ∧
      Branch.form c = g := by
  obtain ⟨items, cs', items_eq, derives, rfl⟩ := parses.of_parens tame
  obtain ⟨tree, ids, fs', c, put, holds', tags_eq', form⟩ := putForm_committed holds
    (.node ⟨.list, Span.sized ahead.length (inside'.length + 2)⟩ cs')
  rw [value_node, span_eq] at form
  refine ⟨handle c, tree, ids, fs', c, put, ⟨holds', kept, ?_⟩, tags_eq', form⟩
  rw [form_plug, form, tags_eq', tags_eq]
  change Parses 0 d.text.current _
  rw [text_eq]
  have whole := enclosed.renew inside' items cs' count length tame
  simp only [Nat.zero_add] at whole
  exact whole items_eq derives

/-! ## Moving -/

theorem form_node (value : Handle × Node) (cs : List Branch) :
    Branch.form (.node value cs) = .node ⟨value.2.kind, value.2.span⟩ (cs.map Branch.form) := by
  rw [Branch.form, map_node]
  rfl

theorem exists_split {α : Type} {chars : List α} {i j : Nat} (ordered : i ≤ j)
    (bound : j ≤ chars.length) :
    ∃ ahead piece behind, chars = ahead ++ (piece ++ behind) ∧ ahead.length = i ∧
      (ahead ++ piece).length = j := by
  refine ⟨chars.take i, (chars.drop i).take (j - i), (chars.drop i).drop (j - i), ?_, ?_, ?_⟩
  · rw [List.take_append_drop, List.take_append_drop]
  · rw [List.length_take]
    omega
  · rw [List.length_append, List.length_take, List.length_take, List.length_drop]
    omega

/-- A text is taken apart at four places, one behind the other. -/
theorem exists_pieces {α : Type} {chars : List α} {i j m n : Nat} (first_order : i ≤ j)
    (apart : j ≤ m) (second_order : m ≤ n) (bound : n ≤ chars.length) :
    ∃ pre first gap second post, chars = [pre, first, gap, second, post].flatten ∧ pre.length = i ∧
      (pre ++ first).length = j ∧ (pre ++ first ++ gap).length = m ∧
      (pre ++ first ++ gap ++ second).length = n := by
  obtain ⟨front, second, post, rfl, rfl, rfl⟩ := exists_split second_order bound
  obtain ⟨pre, first, gap, rfl, rfl, rfl⟩ := exists_split first_order apart
  exact ⟨pre, first, gap, second, post, by simp, rfl, rfl, by simp, by simp⟩

/-- The text of a list around two neighbours among its children: what stands ahead of the first,
between the two and behind the second. -/
structure Pair (d : Document) (frames : List (Frame Tag)) (span : Span) (cs : List Form)
    (earlier later : Span) (ahead pre first gap second post behind : List Char) : Prop where
  enclosed : Enclosed 0 d.text.current frames span cs ahead
    [pre, first, gap, second, post].flatten behind
  separate : Separate [pre, first, gap, second, post]
  span_first : earlier = Span.sized (ahead.length + 1 + pre.length) first.length
  span_second : later =
    Span.sized (ahead.length + 1 + pre.length + first.length + gap.length) second.length

namespace Pair

variable {frames : List (Frame Tag)} {span : Span} {cs : List Form} {earlier later : Span}
  {ahead pre first gap second post behind : List Char}

/-- The pieces of the text are tame, so they are in another order. -/
theorem tame (pair : Pair d frames span cs earlier later ahead pre first gap second post behind) :
    Tame [pre, second, gap, first, post].flatten := by
  refine tame_flatten fun piece mem => pair.separate.tame piece ?_
  simp only [List.mem_cons, List.not_mem_nil, or_false] at mem ⊢
  tauto

/-- The text with the two exchanged. -/
theorem text_eq
    (pair : Pair d frames span cs earlier later ahead pre first gap second post behind) :
    exchangedText d.text.current earlier later =
      ahead ++ (parens [pre, second, gap, first, post].flatten ++ behind) := by
  have traded := @exchangedText_append earlier later (ahead ++ '(' :: pre) first gap second
    (post ++ ')' :: behind)
    (by rw [pair.span_first]; simp [Span.sized]; omega)
    (by rw [pair.span_first]; simp [Span.sized]; omega)
    (by rw [pair.span_second]; simp [Span.sized]; omega)
    (by rw [pair.span_second]; simp [Span.sized]; omega)
  rw [pair.enclosed.text]
  simpa [parens] using traded

end Pair

variable {before after : List Branch} {e l : Branch}

/-- Only a list has two children. -/
theorem Resting.is_list (resting : Resting d (plug fs (.node value (before ++ e :: l :: after)))) :
    value.2.kind = .list := by
  have parses := resting.parses
  rw [form_plug, form_node] at parses
  rcases parses.parent_cases (by simp) with is_list | ⟨c, ahead, behind, single, -⟩
  · exact is_list
  · have two := congrArg List.length single
    simp only [List.length_map, List.length_append, List.length_cons, List.length_nil] at two
    omega

theorem Resting.exists_pair
    (resting : Resting d (plug fs (.node value (before ++ e :: l :: after)))) :
    ∃ ahead pre first gap second post behind, Pair d (tags fs) value.2.span
      ((before ++ e :: l :: after).map Branch.form) e.value.2.span l.value.2.span
      ahead pre first gap second post behind := by
  have parses := resting.parses
  rw [form_plug, form_node, resting.is_list] at parses
  obtain ⟨ahead, inside, behind, enclosed⟩ := parses.enclosed
  have mem_e : Branch.form e ∈ (before ++ e :: l :: after).map Branch.form := by simp
  have mem_l : Branch.form l ∈ (before ++ e :: l :: after).map Branch.form := by simp
  obtain ⟨⟨i, start_e, cut_i⟩, j, stop_e, cut_j⟩ := enclosed.edges mem_e
  obtain ⟨⟨m, start_l, cut_m⟩, n, stop_l, cut_n⟩ := enclosed.edges mem_l
  rw [span_form, Nat.zero_add] at start_e stop_e start_l stop_l
  have order : e.value.2.span.stop ≤ l.value.2.span.start := by
    obtain ⟨items, items_eq, derives⟩ := enclosed.items
    have ordered := ordered_of_tokensAt items_eq
    rw [List.map_append, List.map_cons, List.map_cons] at derives
    have order := derives.order ordered.order
    rwa [span_form, span_form] at order
  have order_e := e.value.2.span.start_le_stop
  have order_l := l.value.2.span.start_le_stop
  have order_i : i ≤ j := by omega
  have order_m : j ≤ m := by omega
  have order_n : m ≤ n := by omega
  obtain ⟨pre, first, gap, second, post, rfl, rfl, rfl, rfl, rfl⟩ :=
    exists_pieces order_i order_m order_n cut_n.le
  refine ⟨ahead, pre, first, gap, second, post, behind, enclosed, ?_, ?_, ?_⟩
  · refine @separate_of_cuts [] _ fun count => ?_
    match count with
    | 0 => exact cut_zero trivial
    | 1 => simpa using cut_i
    | 2 => simpa using cut_j
    | 3 => simpa using cut_m
    | 4 => simpa using cut_n
    | count + 5 => simpa using cut_end enclosed.tame
  · ext
    · exact start_e
    · rw [stop_e, List.length_append]
      simp only [Span.sized]
      omega
  · simp only [List.length_append] at start_l stop_l
    ext
    · simp only [Span.sized]
      omega
    · simp only [Span.sized]
      omega

/-- What an exchange of two neighbours comes to: if the list reads as a form with the two exchanged,
it takes the place of the old one, and otherwise nothing changes. -/
theorem Pair.exchange {ahead pre first gap second post behind : List Char}
    (resting : Resting d (plug fs (.node value (before ++ e :: l :: after))))
    (fits : d.text.currentLength < positionLimit)
    (pair : Pair d (tags fs) value.2.span ((before ++ e :: l :: after).map Branch.form)
      e.value.2.span l.value.2.span ahead pre first gap second post behind) :
    (∃ g root d' fs' c, Parses ahead.length (parens [pre, second, gap, first, post].flatten) g ∧
      d.exchange parenthesised (handle e) (handle l) = .ok (some root, d') ∧
      d'.text.current = exchangedText d.text.current e.value.2.span l.value.2.span ∧
      d'.widened = d.widened ∧ Resting d' (plug fs' c) ∧ tags fs' = tags fs ∧ Branch.form c = g) ∨
    (∀ g, ¬Parses ahead.length (parens [pre, second, gap, first, post].flatten) g) ∧
      d.exchange parenthesised (handle e) (handle l) = .ok (none, d) := by
  have holds := resting.holds
  have at_e : Holds d.tree (plug (⟨value, before, l :: after⟩ :: fs) e) := holds
  have at_l : Holds d.tree (plug (⟨value, before ++ [e], after⟩ :: fs) l) := by
    simpa [Frame.fill] using holds
  have up : d.tree.parent (handle e) = .ok (some value.1) := at_e.hole.parent_ok
  have span_e : d.tree.span (handle e) = .ok e.value.2.span := at_e.hole.span_eq
  have span_l : d.tree.span (handle l) = .ok l.value.2.span := at_l.hole.span_eq
  have order : e.value.2.span.stop ≤ l.value.2.span.start := by
    rw [pair.span_first, pair.span_second]
    simp only [Span.sized]
    omega
  have resting_l : Resting d (plug (⟨value, before ++ [e], after⟩ :: fs) l) := by
    simpa [Frame.fill] using resting
  obtain ⟨x, text', exchanged, current_eq, perm⟩ := exchange_spec order resting_l.hole_inside
  have kept : AllKept text'.cells := fun c mem => resting.kept c (perm.mem_iff.mp mem)
  have text_eq := current_eq.trans pair.text_eq
  have tame := pair.tame
  have length : [pre, second, gap, first, post].flatten.length =
      [pre, first, gap, second, post].flatten.length + 0 := by
    simp only [List.flatten_cons, List.flatten_nil, List.length_append, List.length_nil]
    omega
  generalize [pre, second, gap, first, post].flatten = inside at text_eq tame length ⊢
  have span_eq := pair.enclosed.span_eq
  rw [Nat.zero_add, ← Nat.add_zero (List.length (List.flatten _)), ← length] at span_eq
  have holds' : Holds ({ d with text := text' } : Document).tree
      (plug fs (.node value (before ++ e :: l :: after))) := holds
  have read := readNode_committed holds' kept text_eq (by rw [length_parens]; exact span_eq)
  have fits' : ahead.length + (parens inside).length < positionLimit := by
    have whole := congrArg List.length pair.enclosed.text
    rw [length_current] at whole
    simp only [List.length_append, length_parens] at whole length ⊢
    omega
  have frames_eq : tags fs = (tags fs).map (roomTags (0 : Nat)) := (map_roomTags_zero _).symm
  rcases readWhole_run fits' with ⟨g, parses, ok⟩ | ⟨r, rejected⟩
  · obtain ⟨new, tree, ids, fs', c, put, resting', tags_eq, form⟩ := putForm_renews pair.enclosed
      holds' kept frames_eq length tame span_eq text_eq parses
    have ran : d.exchange parenthesised (handle e) (handle l) =
        .ok (some tree.root, { d with text := text', tree := tree, ids := ids }) := by
      simp only [Document.exchange, up, span_e, span_l, exchanged, ok_bind, read, ok, put,
        pure_eq_ok, root]
    exact .inl ⟨g, _, _, fs', c, parses, ran, current_eq, rfl, resting', tags_eq, form⟩
  · refine .inr ⟨?_, ?_⟩
    · intro g parses
      rw [(readWhole_eq_ok fits').mpr parses] at rejected
      cases rejected
    · simp only [Document.exchange, up, span_e, span_l, exchanged, ok_bind, read, rejected,
        undo_exchange resting_l.hole_inside exchanged, pure_eq_ok]

/-! ## Copying -/

/-- A child with its copy behind it, the spacer in between. -/
def copiedText (text : List Char) (span : Span) : List Char :=
  insertedText text span.stop (' ' :: pieceOf text span)

variable {c : Branch}

/-- The copy of a child is put in and room is made for it; both can be taken back. -/
structure Copying (d : Document) (fs : List (Frame (Handle × Node))) (value : Handle × Node)
    (before : List Branch) (c : Branch) (after : List Branch) (text : Buffer) (tree : Tree) :
    Prop where
  patched : text = (d.text.patchIn c.value.2.span.stop
    (Buffer.ofText parenthesised.spacer ++ d.text.copy c.value.2.span)).1
  current : text.current = copiedText d.text.current c.value.2.span
  cells : ∀ cell ∈ text.cells, cell ∈ d.text.cells ∨ cell.status = .kept
  holds : Holds tree (plug (fs.map (roomFrame (c.value.2.span.length + 1 : Nat)))
    (.node (value.1, value.2.stretched (c.value.2.span.length + 1 : Nat))
      (before ++ c :: after.map (Branch.moved (c.value.2.span.length + 1 : Nat)))))
  run : d.copyChild parenthesised value.1 (handle c) =
    match ({ d with text := text, tree := tree } : Document).readNode parenthesised value.1
      .committed with
    | .error (.fault fault) => .error fault
    | .error (.rejected _) => .ok (none, d)
    | .ok g =>
      if g.children.length = (before ++ c :: after).length + 1 then do
        let (_, d) ← ({ d with text := text, tree := tree } : Document).putForm value.1 g .committed
        pure (some d.root, d)
      else .ok (none, d)

theorem Copying.kept {text : Buffer} {tree : Tree}
    (copying : Copying d fs value before c after text tree) (kept : AllKept d.text.cells) :
    AllKept text.cells := by
  intro cell mem
  rcases copying.cells cell mem with old | new
  · exact kept cell old
  · exact new

theorem Laid.exists_copying (laid : Laid d (plug fs (.node value (before ++ c :: after))))
    (fits : d.text.currentLength + (c.value.2.span.length + 1) < positionLimit) :
    ∃ text tree, Copying d fs value before c after text tree := by
  have at_c : Laid d (plug (⟨value, before, after⟩ :: fs) c) := laid
  have bound := at_c.hole_inside
  have span_c : d.tree.span (handle c) = .ok c.value.2.span := at_c.holds.hole.span_eq
  have room := at_c.hasRoom fits
  obtain ⟨tree, moved, altered⟩ := at_c.holds.bears.moveSuccessors room.roomy
  obtain ⟨tree', moved', -⟩ := altered.bears.moveSuccessors room.back
  have holds_list : Holds tree (plug (fs.map (roomFrame (c.value.2.span.length + 1 : Nat)))
      (.node (value.1, value.2.stretched (c.value.2.span.length + 1 : Nat))
        (before ++ c :: after.map (Branch.moved (c.value.2.span.length + 1 : Nat))))) :=
    altered.holds at_c.holds
  obtain rfl := moveSuccessors_back moved moved'
  have start : c.value.2.span.start ≤ d.text.currentLength := by
    have ordered := c.value.2.span.start_le_stop
    omega
  have copy_eq : (Buffer.ofText parenthesised.spacer ++ d.text.copy c.value.2.span).current =
      ' ' :: pieceOf d.text.current c.value.2.span := by
    rw [← copy_current start]
    exact shown_append _ _
  have length_copy :
      (Buffer.ofText parenthesised.spacer ++ d.text.copy c.value.2.span).currentLength =
      c.value.2.span.length + 1 := by
    rw [← length_current, copy_eq, List.length_cons, length_pieceOf (by rwa [length_current])]
  have cells_copy :
      ∀ cell ∈ (Buffer.ofText parenthesised.spacer ++ d.text.copy c.value.2.span).cells,
      cell ∈ d.text.cells ∨ cell.status = .kept := by
    intro cell mem
    rcases List.mem_append.mp mem with mem | mem
    · obtain ⟨char, -, rfl⟩ := List.mem_map.mp mem
      exact .inr rfl
    · exact .inl (List.mem_of_mem_drop (List.mem_of_mem_take mem))
  generalize copy_def : Buffer.ofText parenthesised.spacer ++ d.text.copy c.value.2.span = copy at *
  obtain ⟨xs, ys, cells_eq, -, patched⟩ := exists_patchIn d.text copy bound
  refine ⟨(d.text.patchIn c.value.2.span.stop copy).1, tree, by rw [copy_def], ?_, ?_, holds_list,
    ?_⟩
  · rw [patchIn_current _ _ bound, copy_eq, copiedText]
  · intro cell mem
    rw [patched, List.append_assoc, List.mem_append, List.mem_append] at mem
    rw [cells_eq, List.mem_append]
    rcases mem with mem | mem | mem
    · exact .inl (.inl mem)
    · have old := cells_copy cell mem
      rwa [cells_eq, List.mem_append] at old
    · exact .inl (.inr mem)
  · have children : tree.children value.1 = .ok ((before ++ c :: after.map _).map handle) :=
      holds_list.hole.children_ok
    have back :
        undoCopy { d with text := (d.text.patchIn c.value.2.span.stop copy).1, tree := tree }
        (handle c) (d.text.patchIn c.value.2.span.stop copy).2 (c.value.2.span.length + 1) =
        .ok (none, d) := by
      simp only [undoCopy, patchOut_patchIn, moved', ok_bind, pure_eq_ok]
    have siblings : ((before ++ c :: after.map (Branch.moved (c.value.2.span.length + 1 : Nat))).map
        handle).length = (before ++ c :: after).length := by simp
    simp only [copyChild, span_c, ok_bind, copy_def, length_copy, moved, children, back]
    exact siblings ▸ rfl

/-- The text of a list around one of its children, and with a copy of it. -/
theorem exists_piece {text : List Char} {frames : List (Frame Tag)} {span : Span} {cs : List Form}
    {ahead inside behind : List Char}
    (enclosed : Enclosed 0 text frames span cs ahead inside behind) {f : Form} (mem : f ∈ cs) :
    ∃ pre piece post, inside = [pre, piece, post].flatten ∧ Separate [pre, piece, post] ∧
      f.span = Span.sized (ahead.length + 1 + pre.length) piece.length ∧ copiedText text f.span =
        ahead ++ (parens [pre, piece, [' '], piece, post].flatten ++ behind) := by
  obtain ⟨⟨i, start, cut_i⟩, j, stop, cut_j⟩ := enclosed.edges mem
  have ordered := f.span.start_le_stop
  have in_order : i ≤ j := by omega
  obtain ⟨pre, piece, post, rfl, rfl, rfl⟩ := exists_split in_order cut_j.le
  have flat : pre ++ (piece ++ post) = [pre, piece, post].flatten := by simp
  rw [Nat.zero_add] at start stop
  have regroup : text = (ahead ++ '(' :: pre) ++ (piece ++ (post ++ ')' :: behind)) := by
    rw [enclosed.text]
    simp [parens]
  have length_ahead : (ahead ++ '(' :: pre).length = f.span.start := by
    rw [start]
    simp only [List.length_append, List.length_cons]
    omega
  have length_piece : (ahead ++ '(' :: pre ++ piece).length = f.span.stop := by
    rw [stop]
    simp only [List.length_append, List.length_cons]
    omega
  refine ⟨pre, piece, post, flat, ?_, ?_, ?_⟩
  · rw [flat] at cut_i cut_j
    refine @separate_of_cuts [] _ fun count => ?_
    rcases count with _ | _ | _ | count
    · exact cut_zero trivial
    · simpa using cut_i
    · simpa using cut_j
    · simpa using cut_end enclosed.tame
  · ext
    · rw [start]
      rfl
    · rw [stop, List.length_append]
      simp only [Span.sized]
      omega
  · rw [copiedText, regroup, pieceOf_append length_ahead length_piece, insertedText, ← length_piece,
      ← List.append_assoc (ahead ++ '(' :: pre), List.take_left, List.drop_left]
    simp [parens]

/-- A child of a list with its copy behind it, and what stands behind the copy. -/
def copied (f : Form) (behind : List Form) : List Form :=
  f :: Form.moved (f.span.length + 1 : Nat) f :: behind.map (Form.moved (f.span.length + 1 : Nat))

/-- A list with a copy of one of its children reads as such. -/
theorem parses_copied {text : List Char} {frames : List (Frame Tag)} {span : Span}
    {xs ys : List Form} {f : Form} {ahead pre piece post behind : List Char}
    (enclosed : Enclosed 0 text frames span (xs ++ f :: ys) ahead [pre, piece, post].flatten behind)
    (separate : Separate [pre, piece, post])
    (span_f : f.span = Span.sized (ahead.length + 1 + pre.length) piece.length)
    (tame : Tame [pre, piece, [' '], piece, post].flatten) :
    Parses ahead.length (parens [pre, piece, [' '], piece, post].flatten) (.node
      ⟨.list, Span.sized ahead.length ([pre, piece, [' '], piece, post].flatten.length + 2)⟩
      (xs ++ copied f ys)) := by
  obtain ⟨items, items_eq, derives⟩ := enclosed.items
  have ordered := ordered_of_tokensAt items_eq
  rw [Nat.zero_add] at items_eq
  obtain ⟨items', items_eq', derives'⟩ :=
    Reader.copy_derives separate items_eq derives ordered.order span_f
  have length_f : f.span.length = piece.length := by
    rw [span_f, Span.length]
    simp only [Span.sized]
    omega
  rw [← length_f] at derives'
  exact parses_parens tame items_eq' derives'

/-- A piece that stands apart from its neighbours can be repeated behind a blank. -/
theorem tame_copied {pre piece post : List Char} (separate : Separate [pre, piece, post]) :
    Tame [pre, piece, [' '], piece, post].flatten := by
  have blank : Tame [' '] := Mode.noConfusion
  have each := separate.tame
  refine tame_flatten fun part mem => ?_
  simp only [List.mem_cons, List.not_mem_nil, or_false] at each mem
  rcases mem with rfl | rfl | rfl | rfl | rfl
  · exact each part (.inl rfl)
  · exact each part (.inr (.inl rfl))
  · exact blank
  · exact each part (.inr (.inl rfl))
  · exact each part (.inr (.inr rfl))

theorem span_stretched {n : Node} {start length count : Nat} (start_eq : n.span.start = start)
    (stop_eq : n.span.stop + count = start + length) :
    (n.stretched (count : Nat)).span = Span.sized start length := by
  have edges := Reader.stretched_stop n.span count
  rw [Node.stretched]
  ext
  · rw [edges.1, start_eq]
    rfl
  · rw [edges.2, stop_eq]
    rfl

/-- A child of a list is always copied: the list reads with one more child, so it takes the place of
the old one. -/
theorem Copying.accepted {text : Buffer} {tree : Tree}
    (resting : Resting d (plug fs (.node value (before ++ c :: after))))
    (fits : d.text.currentLength + (c.value.2.span.length + 1) < positionLimit)
    (copying : Copying d fs value before c after text tree) (is_list : value.2.kind = .list) :
    ∃ root d' fs' c' span, d.copyChild parenthesised value.1 (handle c) = .ok (some root, d') ∧
      d'.text.current = copiedText d.text.current c.value.2.span ∧ d'.widened = d.widened ∧
      Resting d' (plug fs' c') ∧
      tags fs' = (tags fs).map (roomTags (c.value.2.span.length + 1 : Nat)) ∧
      Branch.form c' = .node ⟨.list, span⟩
        (before.map Branch.form ++ copied (Branch.form c) (after.map Branch.form)) := by
  have parses := resting.parses
  rw [form_plug, form_node, is_list, List.map_append, List.map_cons] at parses
  obtain ⟨ahead, inside, behind, enclosed⟩ := parses.enclosed
  have mem : Branch.form c ∈ before.map Branch.form ++ Branch.form c :: after.map Branch.form := by
    simp
  obtain ⟨pre, piece, post, rfl, separate, span_c, text_eq⟩ := exists_piece enclosed mem
  have length_piece : c.value.2.span.length = piece.length := by
    rw [← span_form, span_c, Span.length]
    simp only [Span.sized]
    omega
  rw [span_form] at text_eq
  have text_eq := copying.current.trans text_eq
  have tame := tame_copied separate
  have length : [pre, piece, [' '], piece, post].flatten.length =
      [pre, piece, post].flatten.length + (c.value.2.span.length + 1) := by
    rw [length_piece]
    simp only [List.flatten_cons, List.flatten_nil, List.length_append, List.length_cons,
      List.length_nil]
    omega
  have list := parses_copied enclosed separate span_c tame
  generalize [pre, piece, [' '], piece, post].flatten = inside at text_eq tame length list
  have span_eq : (value.2.stretched (c.value.2.span.length + 1 : Nat)).span =
      Span.sized ahead.length (inside.length + 2) := by
    have old := enclosed.span_eq
    rw [Nat.zero_add] at old
    refine span_stretched (congrArg Span.start old) ?_
    rw [congrArg Span.stop old]
    simp only [Span.sized]
    omega
  have holds : Holds ({ d with text := text, tree := tree } : Document).tree _ := copying.holds
  have read := readNode_committed holds (copying.kept resting.kept) text_eq
    (by rw [length_parens]; exact span_eq)
  have fits' : ahead.length + (parens inside).length < positionLimit := by
    have whole := congrArg List.length enclosed.text
    rw [length_current] at whole
    simp only [List.length_append, length_parens] at whole length ⊢
    omega
  obtain ⟨new, tree', ids, fs', c', put, resting', tags_eq, form⟩ := putForm_renews enclosed holds
    (copying.kept resting.kept) (tags_roomFrame _ fs) length tame span_eq text_eq list
  have ran : d.copyChild parenthesised value.1 (handle c) =
      .ok (some tree'.root, { d with text := text, tree := tree', ids := ids }) := by
    rw [copying.run, read, (readWhole_eq_ok fits').mpr list]
    dsimp only
    rw [if_pos (by simp [copied]; omega), put]
    rfl
  refine ⟨_, _, fs', c', _, ran, copying.current, rfl, resting', ?_, form⟩
  rw [tags_eq, tags_roomFrame]

/-- A quote takes no second form, so the copy of its child is taken out again. -/
theorem Copying.declined_by_quote {text : Buffer} {tree : Tree}
    (resting : Resting d (plug fs (.node value (before ++ c :: after))))
    (fits : d.text.currentLength + (c.value.2.span.length + 1) < positionLimit)
    (copying : Copying d fs value before c after text tree) (not_list : value.2.kind ≠ .list) :
    d.copyChild parenthesised value.1 (handle c) = .ok (none, d) := by
  have parses := resting.parses
  rw [form_plug, form_node] at parses
  rcases parses.parent_cases (by simp) with
    is_list | ⟨f, ahead, rest, single, -, text_eq, start, stop, past⟩
  · exact absurd is_list not_list
  rw [Nat.zero_add] at start past
  have mem : Branch.form c ∈ (before ++ c :: after).map Branch.form := by simp
  obtain rfl : Branch.form c = f := by
    rw [single] at mem
    exact List.mem_singleton.mp mem
  rw [span_form] at stop past
  have bound : c.value.2.span.stop ≤ d.text.currentLength :=
    (show Resting d (plug (⟨value, before, after⟩ :: fs) c) from resting).hole_inside
  -- The copy goes behind the quote, so the text under the node still begins with it.
  obtain ⟨quoted, behind, rfl, length_quoted⟩ : ∃ quoted behind, rest = quoted ++ behind ∧
      (ahead ++ '\x27' :: quoted).length = c.value.2.span.stop := by
    refine ⟨rest.take (c.value.2.span.stop - (ahead.length + 1)), rest.drop _,
      (List.take_append_drop _ _).symm, ?_⟩
    rw [← length_current, text_eq] at bound
    simp only [List.length_append, List.length_cons, List.length_take] at bound ⊢
    omega
  have text_eq : text.current = ahead ++ ('\x27' :: (quoted ++ ' ' :: pieceOf d.text.current
      c.value.2.span) ++ behind) := by
    have regroup : d.text.current = ahead ++ '\x27' :: quoted ++ behind := by
      rw [text_eq]
      simp
    rw [copying.current, copiedText, insertedText]
    generalize pieceOf d.text.current c.value.2.span = piece
    rw [regroup, ← length_quoted, List.take_left, List.drop_left]
    simp
  have length_piece : (pieceOf d.text.current c.value.2.span).length = c.value.2.span.length :=
    length_pieceOf (by rwa [length_current])
  have span_eq : (value.2.stretched (c.value.2.span.length + 1 : Nat)).span =
    Span.sized ahead.length
      ('\x27' :: (quoted ++ ' ' :: pieceOf d.text.current c.value.2.span)).length := by
    refine span_stretched start ?_
    simp only [List.length_append, List.length_cons, length_piece] at length_quoted ⊢
    omega
  have holds : Holds ({ d with text := text, tree := tree } : Document).tree _ := copying.holds
  have read := readNode_committed holds (copying.kept resting.kept) text_eq span_eq
  have fits' : ahead.length + ('\x27' :: (quoted ++ ' ' :: pieceOf d.text.current
      c.value.2.span)).length < positionLimit := by
    simp only [List.length_append, List.length_cons, length_piece] at length_quoted ⊢
    omega
  rw [copying.run, read]
  rcases readWhole_run fits' with ⟨g, parses', ok⟩ | ⟨r, rejected⟩
  · have one := parses'.of_quote
    have more : ¬g.children.length = (before ++ c :: after).length + 1 := by
      rw [one, List.length_append, List.length_cons]
      omega
    rw [ok]
    dsimp only
    rw [if_neg more]
  · rw [rejected]

/-- What copying a child comes to. -/
theorem Resting.copyChild (resting : Resting d (plug fs (.node value (before ++ c :: after))))
    (fits : d.text.currentLength + (c.value.2.span.length + 1) < positionLimit) :
    (∃ root d' b', d.copyChild parenthesised value.1 (handle c) = .ok (some root, d') ∧
      d'.text.current = copiedText d.text.current c.value.2.span ∧ d'.widened = d.widened ∧
      Resting d' b') ∨
    d.copyChild parenthesised value.1 (handle c) = .ok (none, d) := by
  obtain ⟨text, tree, copying⟩ := resting.laid.exists_copying fits
  by_cases is_list : value.2.kind = .list
  · obtain ⟨root, d', fs', c', -, ran, current, widened, resting', -⟩ :=
      copying.accepted resting fits is_list
    exact .inl ⟨root, d', _, ran, current, widened, resting'⟩
  · exact .inr (copying.declined_by_quote resting fits is_list)

end Document

end FormEdit
