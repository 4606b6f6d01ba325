import FormEdit.Proofs.Buffer.Slicing
import FormEdit.Proofs.Document.Rearranging
import FormEdit.Proofs.Document.Tracking
import FormEdit.Proofs.Weave.Trading

/-!
# Moving and copying under a settled node

While changes are pending elsewhere, a node can be settled: nothing is pending in its text, and the
text reads as the node. If its children are moved or copied (`Laid.exists_trade`), its text reads as
another node with the same first and last character, so what is pending around it is as it was
(`Tracked.trade`).
-/

namespace FormEdit

namespace Buffer

variable {b : Buffer} {span : Span} {before mid behind : List Cell}

/-- The text of a span, deleted characters at its ends included, of which nothing is pending. -/
structure Steady (b : Buffer) (span : Span) (before mid behind : List Cell) : Prop where
  cells : b.cells = before ++ (mid ++ behind)
  kept : AllKept mid
  start : currentCount before = span.start
  stop : span.start + mid.length = span.stop
  ends : EndsCurrent before
  starts : StartsCurrent behind

theorem exists_steady (kept : AllKept (b.cellsOf span)) (inside : span.stop ≤ b.currentLength) :
    ∃ before mid behind, Steady b span before mid behind := by
  have covers := covers_cellsOf b span
  have order := span.start_le_stop
  have start : span.start ≤ b.currentLength := Nat.le_trans order inside
  refine ⟨_, _, _, covers.cells, kept, ?_, ?_, covers.ends start, covers.starts⟩
  · rw [← length_shown, covers.start, List.length_take, length_current]
    omega
  · have piece := congrArg List.length covers.shown_inside
    rw [length_shown, kept.currentCount_eq, length_pieceOf (by rwa [length_current]), Span.length]
      at piece
    omega

/-- Kept cells give way to others that begin and end as they do: nothing goes, and nothing comes but
`count` more cells, of which those that are new are blanks. -/
structure Extends (count : Nat) (mid mid' : List Cell) : Prop where
  head : mid'.head? = mid.head?
  last : mid'.getLast? = mid.getLast?
  longer : mid'.length = mid.length + count
  stays : ∀ c ∈ mid, c ∈ mid'
  comes : ∀ c ∈ mid', c ∈ mid ∨ c = ⟨' ', .kept⟩

section

variable {pre first gap second part post : List Cell}

theorem extends_exchanged (some_pre : pre ≠ []) (some_post : post ≠ []) :
    Extends 0 [pre, first, gap, second, post].flatten [pre, second, gap, first, post].flatten := by
  simp only [List.flatten_cons, List.flatten_nil, List.append_nil]
  refine ⟨?_, ?_, ?_, ?_, ?_⟩
  · rw [List.head?_append_of_ne_nil pre some_pre, List.head?_append_of_ne_nil pre some_pre]
  · simp only [← List.append_assoc]
    rw [List.getLast?_append_of_ne_nil _ some_post, List.getLast?_append_of_ne_nil _ some_post]
  · simp only [List.length_append]
    omega
  · intro c mem
    simp only [List.mem_append] at mem ⊢
    tauto
  · intro c mem
    simp only [List.mem_append] at mem ⊢
    tauto

theorem extends_copied (some_pre : pre ≠ []) (some_rest : part ++ post ≠ []) :
    Extends (part.length + 1) [pre, part, post].flatten
      [pre, part, [⟨' ', .kept⟩], part, post].flatten := by
  simp only [List.flatten_cons, List.flatten_nil, List.append_nil]
  refine ⟨?_, ?_, ?_, ?_, ?_⟩
  · rw [List.head?_append_of_ne_nil pre some_pre, List.head?_append_of_ne_nil pre some_pre]
  · have regroup : pre ++ (part ++ ([⟨' ', .kept⟩] ++ (part ++ post))) =
        (pre ++ (part ++ [⟨' ', .kept⟩])) ++ (part ++ post) := by simp
    rw [regroup, List.getLast?_append_of_ne_nil _ some_rest,
      List.getLast?_append_of_ne_nil _ some_rest]
  · simp only [List.length_append, List.length_singleton]
    omega
  · intro c mem
    simp only [List.mem_append] at mem ⊢
    tauto
  · intro c mem
    simp only [List.mem_append, List.mem_singleton] at mem ⊢
    tauto

end

namespace Steady

theorem text_eq (steady : Steady b span before mid behind) : b = ⟨before ++ (mid ++ behind)⟩ :=
  congrArg Buffer.mk steady.cells

/-- Both views show the same of it. -/
theorem slice_committed (steady : Steady b span before mid behind) :
    b.slice .committed span = Placed.run span.start (mid.map Cell.char) := by
  have stop : currentCount (before ++ mid) = span.stop := by
    rw [currentCount_append, steady.kept.currentCount_eq, steady.start, steady.stop]
  have cells := cellsOf_append steady.start stop steady.ends steady.starts
  rw [List.append_assoc, ← steady.cells] at cells
  rw [slice, cells, placeCommitted_eq steady.kept, placeCurrent_eq, steady.kept.shown_eq]

/-- Two stretches of it trade places as they are. -/
theorem exchange {earlier later : Span} (steady : Steady b span before mid behind)
    (low : span.start ≤ earlier.start) (order : earlier.stop ≤ later.start)
    (high : later.stop ≤ span.stop) :
    ∃ pre first gap second post x b', mid = [pre, first, gap, second, post].flatten ∧
      span.start + pre.length = earlier.start ∧ later.stop + post.length = span.stop ∧
      b.exchange earlier later = .ok (x, b') ∧
      Steady b' span before [pre, second, gap, first, post].flatten behind := by
  have text := steady.text_eq
  obtain ⟨-, kept, start, stop, ends, starts⟩ := steady
  have order_first := earlier.start_le_stop
  have order_second := later.start_le_stop
  have bound : later.stop - span.start ≤ mid.length := by omega
  obtain ⟨pre, first, gap, second, post, rfl, i, j, m, n⟩ := Document.exists_pieces
    (i := earlier.start - span.start) (j := earlier.stop - span.start)
    (m := later.start - span.start) (by omega) (by omega) (by omega) bound
  simp only [List.flatten_cons, List.flatten_nil, List.append_nil, AllKept.append,
    List.length_append] at kept i j m n stop
  obtain ⟨kept_pre, kept_first, kept_gap, kept_second, kept_post⟩ := kept
  have count_pre := kept_pre.currentCount_eq
  have count_first := kept_first.currentCount_eq
  have count_gap := kept_gap.currentCount_eq
  have count_second := kept_second.currentCount_eq
  have division : Division earlier later (before ++ pre) first gap second (post ++ behind) := by
    refine ⟨?_, ?_, ?_, ?_, ends.append_left kept_pre.endsCurrent, kept_gap.startsCurrent, ?_,
      kept_post.startsCurrent.append starts⟩
    · simp only [currentCount_append]
      omega
    · simp only [currentCount_append]
      omega
    · simp only [currentCount_append]
      omega
    · simp only [currentCount_append]
      omega
    · exact ((ends.append_left kept_pre.endsCurrent).append_left kept_first.endsCurrent).append_left
        kept_gap.endsCurrent
  have traded := division.exchange_eq order
  rw [division.exchanged (((ends.append_left kept_pre.endsCurrent).append_left
    kept_second.endsCurrent).append_left kept_gap.endsCurrent)] at traded
  have regroup : b = ⟨before ++ pre ++ first ++ gap ++ second ++ (post ++ behind)⟩ :=
    text.trans (by simp)
  rw [← regroup] at traded
  refine ⟨pre, first, gap, second, post, _, _, rfl, by omega, by omega, traded, ?_, ?_, start, ?_,
    ends, starts⟩
  · simp
  · simp only [List.flatten_cons, List.flatten_nil, List.append_nil, AllKept.append]
    exact ⟨kept_pre, kept_second, kept_gap, kept_first, kept_post⟩
  · simp only [List.flatten_cons, List.flatten_nil, List.append_nil, List.length_append]
    omega

/-- A stretch of it is copied behind itself, with a blank in between. -/
theorem copy {piece wider : Span} (steady : Steady b span before mid behind)
    (low : span.start ≤ piece.start) (high : piece.stop ≤ span.stop)
    (start_eq : wider.start = span.start) (stop_eq : wider.stop = span.stop + (piece.length + 1)) :
    ∃ pre part post, mid = [pre, part, post].flatten ∧ span.start + pre.length = piece.start ∧
      part.length = piece.length ∧ piece.stop + post.length = span.stop ∧
      Steady (b.patchIn piece.stop (ofText " " ++ b.copy piece)).1 wider before
        [pre, part, [⟨' ', .kept⟩], part, post].flatten behind := by
  have text := steady.text_eq
  obtain ⟨-, kept, start, stop, ends, starts⟩ := steady
  have order := piece.start_le_stop
  have bound : piece.stop - span.start ≤ mid.length := by omega
  obtain ⟨pre, part, post, rfl, i, j⟩ := Document.exists_split
    (i := piece.start - span.start) (by omega) bound
  simp only [AllKept.append, List.length_append] at kept i j stop
  obtain ⟨kept_pre, kept_part, kept_post⟩ := kept
  have count_pre := kept_pre.currentCount_eq
  have count_part := kept_part.currentCount_eq
  have first : currentCount (before ++ pre) = piece.start := by
    rw [currentCount_append]
    omega
  have second : currentCount (before ++ pre ++ part) = piece.stop := by
    rw [currentCount_append, first]
    omega
  have starts_post := kept_post.startsCurrent.append starts
  have regroup : b = ⟨before ++ pre ++ part ++ (post ++ behind)⟩ := text.trans (by simp)
  have part_eq := cellsOf_append first second (ends.append_left kept_pre.endsCurrent) starts_post
  have patched := patchIn_append (ofText " " ++ b.copy piece) second starts_post
  rw [← regroup] at part_eq patched
  have more : (ofText " " ++ b.copy piece).cells = ⟨' ', .kept⟩ :: part := by
    rw [← part_eq]
    rfl
  have kept_blank : AllKept [⟨' ', .kept⟩] := by
    intro c mem
    rw [List.mem_singleton.mp mem]
  refine ⟨pre, part, post, by simp, by omega, ?_, by omega, ?_, ?_, by rw [start, start_eq], ?_,
    ends, starts⟩
  · rw [Span.length]
    omega
  · rw [patched, more]
    simp
  · simp only [List.flatten_cons, List.flatten_nil, List.append_nil, AllKept.append]
    exact ⟨kept_pre, kept_part, kept_blank, kept_part, kept_post⟩
  · simp only [List.flatten_cons, List.flatten_nil, List.append_nil, List.length_append,
      List.length_singleton, Span.length] at stop_eq ⊢
    omega

end Steady

end Buffer

namespace Document

open Rose Buffer Branch Weave FormEdit.Language FormEdit.Tree

variable {d d' : Document} {b c : Branch} {fs fs' : List (Rose.Frame (Handle × Node))}
  {la ra before mid mid' behind : List Cell} {w v : Weave} {gs : List Weave.Frame}
  {f : Form} {k : Nat}

theorem Tracked.laid (tracked : Tracked d b la w ra) : Laid d b where
  holds := tracked.holds
  inside := by
    intro entry mem
    exact Nat.le_trans (Branch.preorder_inside tracked.nested mem).2 tracked.inside

/-- Nothing is pending in the text of a node, deleted characters at its edges included, and the text
reads as the node. -/
def SettledAt (d : Document) (h : Handle) : Prop :=
  ∃ span f, d.tree.span h = .ok span ∧ AllKept (d.text.cellsOf span) ∧ d.tree.form h = .ok f ∧
    d.readNode parenthesised h .committed = .ok f

/-- What is read from cells without a semicolon. -/
theorem reads_of_readWhole {position : Nat} (plain : ∀ c ∈ mid, c.char ≠ ';')
    (fits : position + mid.length < positionLimit)
    (read : parenthesised.readWhole (Placed.run position (mid.map Cell.char)) = .ok f) :
    Reads position (mid.map Cell.char) f := by
  refine (parses_iff_reads ?_).mp ((readWhole_eq_ok (by rwa [List.length_map])).mp read)
  intro typed
  obtain ⟨c, mem, semicolon⟩ := List.mem_map.mp typed
  exact plain c mem semicolon

theorem readNode_steady {span : Span} {h : Handle} (is_span : d.tree.span h = .ok span)
    (steady : Steady d.text span before mid behind) : d.readNode parenthesised h .committed =
      parenthesised.readWhole (Placed.run span.start (mid.map Cell.char)) := by
  rw [readNode, is_span, mapError_ok, ok_bind, steady.slice_committed]

theorem plain_of_steady {span : Span} (plain : ';' ∉ d.text.current)
    (steady : Steady d.text span before mid behind) : ∀ c ∈ mid, c.char ≠ ';' := by
  intro c mem semicolon
  refine plain ?_
  rw [← semicolon, Buffer.current_eq, steady.cells, shown_append, shown_append,
    steady.kept.shown_eq]
  simp only [List.mem_append]
  exact .inr (.inl (List.mem_map_of_mem mem))

/-- The text of a settled node reads as the node. -/
theorem Laid.settledAt (laid : Laid d (Rose.plug fs b)) (plain : ';' ∉ d.text.current)
    (fits : d.text.currentLength < positionLimit) (settled : d.SettledAt (handle b)) :
    ∃ before mid behind, Steady d.text b.value.2.span before mid behind ∧
      Reads b.value.2.span.start (mid.map Cell.char) (Branch.form b) := by
  obtain ⟨span, f, is_span, kept, form, read⟩ := settled
  obtain rfl := Except.ok.inj (is_span.symm.trans laid.holds.hole.span_eq)
  obtain rfl := Except.ok.inj (form.symm.trans laid.holds.form_hole)
  have inside := laid.hole_inside
  obtain ⟨before, mid, behind, steady⟩ := exists_steady kept inside
  refine ⟨before, mid, behind, steady, ?_⟩
  rw [readNode_steady is_span steady] at read
  refine reads_of_readWhole (plain_of_steady plain steady) ?_ read
  have stop := steady.stop
  omega

/-- The cells of a settled node are those of its weave. -/
theorem Tracked.steady_cells {kind : Kind} {parts : List Weave} {span : Span}
    (tracked : Tracked d b la (wrap gs v) ra) (v_eq : v = .node kind parts)
    (steady : Steady d.text span before mid behind)
    (span_eq : span = Span.sized (la.length + currentCount (left gs)) v.room) :
    v.cells = mid ∧ live before = la ++ live (left gs) ∧ live behind = live (right gs) ++ ra := by
  have length := steady.stop
  have start := steady.start
  rw [span_eq] at length start
  simp only [Span.sized] at length start
  have none : Backed (fun _ => False) 0 v := by
    refine follows (LostAt d.text.cells) _ v _ 0 (backed_under tracked.backed) fun n inside lost =>
      ?_
    rw [steady.cells, lostAt_around steady.kept steady.ends steady.starts] at lost
    omega
  have unmarked := unmarked_of_backed (fun _ => id) v_eq none
  have live_v : live v.cells = v.cells := live_eq_self (by rw [v_eq, cells_node]; exact unmarked)
  have cells := tracked.cells
  rw [steady.cells, cells_wrap] at cells
  simp only [live_append, live_v, live_eq_self steady.kept.current, List.append_assoc] at cells
  rw [← List.append_assoc la] at cells
  have ahead : (live before).length = (la ++ live (left gs)).length := by
    rw [length_live, List.length_append, length_live, start]
  obtain ⟨ahead_eq, rest⟩ := List.append_inj cells ahead
  have within : mid.length = v.cells.length := by
    rw [← live_v, length_live]
    change mid.length = v.room
    omega
  obtain ⟨mid_eq, behind_eq⟩ := List.append_inj rest within
  exact ⟨mid_eq.symm, ahead_eq, behind_eq⟩

theorem exact_of_steady (steady : Steady d.text b.value.2.span before mid behind)
    (reads : Reads b.value.2.span.start (mid.map Cell.char) (Branch.form b)) :
    ∃ v first last,
      Exact b.value.2.span.start (mid.map Cell.char) (Branch.form b) v first last := by
  refine Exact.of_span reads ?_
  rw [span_form, List.length_map]
  exact Span.ext rfl steady.stop.symm

/-- What reads from cells that begin and end as those of a settled node fills its text too. -/
theorem exists_exact (steady : Steady d.text b.value.2.span before mid behind)
    (reads : Reads b.value.2.span.start (mid.map Cell.char) (Branch.form b))
    (grows : Extends k mid mid') (reads' : Reads b.value.2.span.start (mid'.map Cell.char) f) :
    ∃ v first last, Exact b.value.2.span.start (mid'.map Cell.char) f v first last ∧
      mid.head? = some ⟨first, .kept⟩ ∧ mid.getLast? = some ⟨last, .kept⟩ := by
  obtain ⟨u, first, last, exact⟩ := exact_of_steady steady reads
  obtain ⟨v, exact'⟩ := exact.exists_traded reads'
    (by rw [List.head?_map, grows.head, List.head?_map])
    (by rw [List.getLast?_map, grows.last, List.getLast?_map])
  refine ⟨v, first, last, exact', ?_, ?_⟩
  · rw [← keptCells_chars steady.kept, keptCells, List.head?_map, exact.head_eq]
    rfl
  · rw [← keptCells_chars steady.kept, keptCells, List.getLast?_map, exact.last_eq]
    rfl

/-- The tree around a node that has another weave. -/
theorem forms_traded {position : Nat} {ws : List Weave} (focus : Focus d.tree position fs b gs v)
    (grows : width ws = v.room + k) (tags_eq : tags fs' = (tags fs).map (roomTags k))
    (form : formsAt (position + currentCount (left gs)) ws = [Branch.form c]) :
    formsAt position (Weave.plug gs ws) = [Branch.form (Rose.plug fs' c)] := by
  have room : tags (fs.map (roomFrame k)) = tagsAt position gs (width ws) :=
    tags_room focus.tags_eq (by rw [grows]; push_cast; rfl)
  rw [tags_roomFrame, ← tags_eq] at room
  rw [formsAt_plug form, ← room, ← form_plug]

/-! ## Another text for a settled node -/

/-- A settled node gets other text, `k` characters longer, and is what that reads as. -/
structure Trade (d d' : Document) (k : Nat) (fs : List (Rose.Frame (Handle × Node))) (b : Branch)
    (before mid behind mid' : List Cell) (fs' : List (Rose.Frame (Handle × Node))) (c : Branch) :
    Prop where
  steady : Steady d.text b.value.2.span before mid behind
  reads : Reads b.value.2.span.start (mid.map Cell.char) (Branch.form b)
  cells : d'.text.cells = before ++ (mid' ++ behind)
  kept : AllKept mid'
  reads' : Reads b.value.2.span.start (mid'.map Cell.char) (Branch.form c)
  grows : Extends k mid mid'
  holds : Holds d'.tree (Rose.plug fs' c)
  tags_eq : tags fs' = (tags fs).map (roomTags k)
  widened : d'.widened = d.widened

namespace Trade

theorem stays (trade : Trade d d' k fs b before mid behind mid' fs' c) :
    ∀ x ∈ d.text.cells, x ∈ d'.text.cells := by
  intro x mem
  rw [trade.steady.cells] at mem
  rw [trade.cells]
  simp only [List.mem_append] at mem ⊢
  exact mem.imp_right (.imp_left (trade.grows.stays x))

theorem comes (trade : Trade d d' k fs b before mid behind mid' fs' c) :
    ∀ x ∈ d'.text.cells, x ∈ d.text.cells ∨ x = ⟨' ', .kept⟩ := by
  intro x mem
  rw [trade.cells] at mem
  rw [trade.steady.cells]
  simp only [List.mem_append] at mem ⊢
  rcases mem with mem | mem | mem
  · exact .inl (.inl mem)
  · exact (trade.grows.comes x mem).imp_left fun old => .inr (.inl old)
  · exact .inl (.inr (.inr mem))

theorem length (trade : Trade d d' k fs b before mid behind mid' fs' c) :
    d'.text.currentLength = d.text.currentLength + k := by
  have longer := trade.grows.longer
  simp only [currentLength_eq, trade.steady.cells, trade.cells, currentCount_append,
    trade.steady.kept.currentCount_eq, trade.kept.currentCount_eq]
  omega

end Trade

/-- What is woven around a settled node is so around another one with the same first and last
character. -/
theorem Tracked.trade (tracked : Tracked d (Rose.plug fs b) la w ra)
    (trade : Trade d d' k fs b before mid behind mid' fs' c) :
    ∃ w', Tracked d' (Rose.plug fs' c) la w' ra := by
  obtain ⟨gs, v, rfl, focus⟩ := exists_focus tracked.holds tracked.form
  obtain ⟨kind, parts, v_eq⟩ := is_node_of_form focus.form
  have steady := trade.steady
  have grows := trade.grows
  obtain ⟨rfl, ahead, after⟩ := tracked.steady_cells v_eq steady focus.span_eq
  obtain ⟨v', first, last, exact, head, final⟩ :=
    exists_exact steady trade.reads grows trade.reads'
  have v'_cells : v'.cells = mid' := by
    rw [exact.cells_eq, keptCells_chars trade.kept]
  have room : v.room = v.cells.length := steady.kept.currentCount_eq
  have room' : v'.room = mid'.length := by
    rw [Weave.room, v'_cells, trade.kept.currentCount_eq]
  have start_eq : b.value.2.span.start = la.length + currentCount (left gs) :=
    congrArg Span.start focus.span_eq
  rw [start_eq] at exact
  have carries := carries_traded v_eq steady.kept exact head final (steady.start.trans start_eq)
    steady.ends steady.starts
  rw [v'_cells, ← trade.cells, ← steady.cells] at carries
  obtain ⟨w', looks, turned⟩ := carries.wrap
  have good := turned.good d.widened tracked.backed tracked.good
  refine ⟨w', trade.holds, ?_, tracked.blanks, tracked.blanks', ?_, trade.widened ▸ good,
    turned.backed tracked.backed⟩
  · rw [trade.cells, looks.cells, cells_wrap]
    simp only [live_append, ahead, after, v'_cells, List.append_assoc]
  · rw [looks.forms, ← formsAt_singleton, ← plug_singleton]
    refine forms_traded focus ?_ trade.tags_eq (by rw [formsAt_singleton, exact.form])
    rw [width_cons, width_nil, Nat.add_zero, room, room', grows.longer]

/-- What a settled node's new text reads as takes its place. -/
theorem Laid.replant {d₁ : Document} {fs₁ : List (Rose.Frame (Handle × Node))} {b₁ : Branch}
    {wider : Span} (laid : Laid d (Rose.plug fs b)) (plain : ';' ∉ d.text.current)
    (steady : Steady d.text b.value.2.span before mid behind)
    (reads : Reads b.value.2.span.start (mid.map Cell.char) (Branch.form b))
    (steady₁ : Steady d₁.text wider before mid' behind) (grows : Extends k mid mid')
    (holds : Holds d₁.tree (Rose.plug fs₁ b₁)) (tags_eq : tags fs₁ = (tags fs).map (roomTags k))
    (span_eq : b₁.value.2.span = Span.sized b.value.2.span.start mid'.length)
    (widened : d₁.widened = d.widened) (fits : d.text.currentLength + k < positionLimit)
    (read : parenthesised.readWhole (Placed.run b.value.2.span.start (mid'.map Cell.char)) =
      .ok f) :
    ∃ new tree ids fs' c, d₁.putForm (handle b₁) f .committed =
      .ok (new, { d₁ with tree := tree, ids := ids }) ∧
      Trade d { d₁ with tree := tree, ids := ids } k fs b before mid behind mid' fs' c := by
  obtain ⟨tree, ids, fs', c, put, holds', tags_eq', form⟩ := putForm_committed holds f
  have longer := grows.longer
  have reads' : Reads b.value.2.span.start (mid'.map Cell.char) f := by
    refine reads_of_readWhole (fun c mem => ?_) ?_ read
    · rcases grows.comes c mem with old | rfl
      · exact plain_of_steady plain steady c old
      · decide
    · have inside := laid.hole_inside
      have stop := steady.stop
      omega
  obtain ⟨v', first, last, exact, -⟩ := exists_exact steady reads grows reads'
  have room : v'.room = mid'.length := by
    rw [Weave.room, exact.cells_eq, keptCells_chars steady₁.kept, steady₁.kept.currentCount_eq]
  rw [span_eq, ← room, ← exact.form_eq] at form
  exact ⟨_, tree, ids, fs', c, put, steady, reads, steady₁.cells, steady₁.kept, form ▸ reads',
    grows, holds', tags_eq'.trans tags_eq, widened⟩

/-! ## Moving and copying -/

variable {value : Handle × Node} {bs cs : List Branch} {e l : Branch} {root : Handle}

theorem neighbours_apart
    (nested : (Branch.form (Rose.plug fs (.node value (bs ++ e :: l :: cs)))).Nested) :
    e.value.2.span.stop ≤ l.value.2.span.start := by
  rw [form_plug, form_node, List.map_append] at nested
  obtain ⟨-, order, -⟩ := nested.hole.1
  have both := (List.pairwise_append.mp order).2.1
  simpa using (List.pairwise_cons.mp both).1 (Branch.form l) (by simp)

theorem edges_of_pair {x y : Char}
    (nested : (Branch.form (Rose.plug fs (.node value (bs ++ e :: l :: cs)))).Nested)
    (exact : Exact value.2.span.start (mid.map Cell.char)
      (Branch.form (.node value (bs ++ e :: l :: cs))) v x y)
    (steady : Steady d.text value.2.span before mid behind) :
    value.2.span.start < e.value.2.span.start ∧ e.value.2.span.stop ≤ l.value.2.span.start ∧
      l.value.2.span.stop < value.2.span.stop := by
  have around := exact.around
  rw [form_node, Rose.children_node, List.length_map, List.length_map, steady.stop] at around
  have first := around (Branch.form e) (by simp)
  have second := around (Branch.form l) (by simp)
  rw [span_form] at first second
  refine ⟨first.1, neighbours_apart nested, second.2.2 ?_⟩
  simp only [List.length_append, List.length_cons]
  omega

/-- Two neighbours under a settled node that trade places leave it another text. -/
theorem Laid.exchange_trades (laid : Laid d (Rose.plug fs (.node value (bs ++ e :: l :: cs))))
    (nested : (Branch.form (Rose.plug fs (.node value (bs ++ e :: l :: cs)))).Nested)
    (plain : ';' ∉ d.text.current) (fits : d.text.currentLength < positionLimit)
    (settled : d.SettledAt value.1)
    (ran : d.exchange parenthesised (handle e) (handle l) = .ok (some root, d')) :
    ∃ before mid behind mid' fs' c,
      Trade d d' 0 fs (.node value (bs ++ e :: l :: cs)) before mid behind mid' fs' c := by
  have at_e : Holds d.tree (Rose.plug (⟨value, bs, l :: cs⟩ :: fs) e) := laid.holds
  have at_l : Holds d.tree (Rose.plug (⟨value, bs ++ [e], cs⟩ :: fs) l) := by
    simpa [Rose.Frame.fill] using laid.holds
  have up : d.tree.parent (handle e) = .ok (some value.1) := at_e.hole.parent_ok
  have span_e : d.tree.span (handle e) = .ok e.value.2.span := at_e.hole.span_eq
  have span_l : d.tree.span (handle l) = .ok l.value.2.span := at_l.hole.span_eq
  have span : d.tree.span value.1 = .ok value.2.span := laid.holds.hole.span_eq
  obtain ⟨before, mid, behind, steady, reads⟩ := laid.settledAt plain fits settled
  obtain ⟨v, x, y, exact⟩ := exact_of_steady steady reads
  obtain ⟨low, order, high⟩ := edges_of_pair nested exact steady
  obtain ⟨pre, first, gap, second, post, x, text, rfl, length_pre, length_post, exchanged,
      steady'⟩ :=
    steady.exchange (Nat.le_of_lt low) order (Nat.le_of_lt high)
  have span' : ({ d with text := text } : Document).tree.span value.1 = .ok value.2.span := span
  have holds : Holds ({ d with text := text } : Document).tree _ := laid.holds
  simp only [Document.exchange, up, span_e, span_l, exchanged, ok_bind,
    readNode_steady span' steady'] at ran
  cases read : parenthesised.readWhole
      (Placed.run value.2.span.start ([pre, second, gap, first, post].flatten.map Cell.char)) with
  | error failure =>
    rw [read] at ran
    cases failure <;> cases ran
  | ok f =>
    rw [Rose.value_node] at length_pre length_post
    have grows :
        Extends 0 [pre, first, gap, second, post].flatten [pre, second, gap, first, post].flatten :=
      extends_exchanged (List.ne_nil_of_length_pos (by omega))
        (List.ne_nil_of_length_pos (by omega))
    obtain ⟨new, tree, ids, fs', c, put, trade⟩ :=
      laid.replant plain steady reads steady' grows holds
        (map_roomTags_zero _).symm (Span.ext rfl steady'.stop.symm) rfl fits read
    have put_here : ({ d with text := text } : Document).putForm value.1 f .committed = _ := put
    rw [read] at ran
    simp only [put_here, ok_bind, pure_eq_ok, Except.ok.injEq, Prod.mk.injEq] at ran
    obtain ⟨-, rfl⟩ := ran
    exact ⟨_, _, _, _, _, _, trade⟩

variable {child : Branch}

theorem edges_of_child {x y : Char}
    (nested : (Branch.form (Rose.plug fs (.node value (bs ++ child :: cs)))).Nested)
    (exact : Exact value.2.span.start (mid.map Cell.char)
      (Branch.form (.node value (bs ++ child :: cs))) v x y)
    (steady : Steady d.text value.2.span before mid behind) :
    value.2.span.start < child.value.2.span.start ∧ child.value.2.span.start < value.2.span.stop ∧
      child.value.2.span.stop ≤ value.2.span.stop := by
  have around := exact.around
  rw [form_node, Rose.children_node, List.length_map, steady.stop] at around
  have edges := around (Branch.form child) (by simp)
  rw [form_plug, form_node] at nested
  obtain ⟨inside, -, -⟩ := nested.hole.1
  have within := inside (Branch.form child) (by simp)
  rw [span_form] at edges within
  exact ⟨edges.1, edges.2.1, within.2⟩

/-- A child of a settled node that is copied leaves it another text. -/
theorem Laid.copyChild_trades (laid : Laid d (Rose.plug fs (.node value (bs ++ child :: cs))))
    (nested : (Branch.form (Rose.plug fs (.node value (bs ++ child :: cs)))).Nested)
    (plain : ';' ∉ d.text.current)
    (fits : d.text.currentLength + (child.value.2.span.length + 1) < positionLimit)
    (settled : d.SettledAt value.1)
    (ran : d.copyChild parenthesised value.1 (handle child) = .ok (some root, d')) :
    ∃ before mid behind mid' fs' c, Trade d d' (child.value.2.span.length + 1) fs
      (.node value (bs ++ child :: cs)) before mid behind mid' fs' c := by
  obtain ⟨text, tree, copying⟩ := laid.exists_copying fits
  obtain ⟨before, mid, behind, steady, reads⟩ := laid.settledAt plain (by omega) settled
  obtain ⟨v, x, y, exact⟩ := exact_of_steady steady reads
  obtain ⟨low, high, within⟩ := edges_of_child nested exact steady
  have stretched := Reader.stretched_stop value.2.span (child.value.2.span.length + 1)
  obtain ⟨pre, part, post, rfl, length_pre, length_part, length_post, steady'⟩ :=
    steady.copy (Nat.le_of_lt low) within stretched.1 stretched.2
  have patched : text = (d.text.patchIn child.value.2.span.stop
    (Buffer.ofText " " ++ d.text.copy child.value.2.span)).1 := copying.patched
  rw [← patched] at steady'
  simp only [Rose.value_node] at length_pre length_post
  have some_rest : part ++ post ≠ [] := by
    refine List.ne_nil_of_length_pos ?_
    rw [List.length_append, length_part, Span.length]
    omega
  have some_pre : pre ≠ [] := List.ne_nil_of_length_pos (by omega)
  have grows := extends_copied some_pre some_rest
  rw [length_part] at grows
  have span' : ({ d with text := text, tree := tree } : Document).tree.span value.1 = .ok _ :=
    copying.holds.hole.span_eq
  have start' : (value.2.stretched (child.value.2.span.length + 1 : Nat)).span.start =
    value.2.span.start := stretched.1
  have holds : Holds ({ d with text := text, tree := tree } : Document).tree _ := copying.holds
  rw [copying.run, readNode_steady span' steady', Rose.value_node, start'] at ran
  cases read : parenthesised.readWhole (Placed.run value.2.span.start
      ([pre, part, [⟨' ', .kept⟩], part, post].flatten.map Cell.char)) with
  | error failure =>
    rw [read] at ran
    cases failure <;> cases ran
  | ok f =>
    obtain ⟨new, tree', ids, fs', c, put, trade⟩ :=
      laid.replant plain steady reads steady' grows holds
        (tags_roomFrame _ fs) (Span.ext start' steady'.stop.symm) rfl fits read
    have put_here :
        ({ d with text := text, tree := tree } : Document).putForm value.1 f .committed = _ := put
    rw [read] at ran
    simp only at ran
    split at ran
    · simp only [put_here, ok_bind, pure_eq_ok, Except.ok.injEq, Prod.mk.injEq] at ran
      obtain ⟨-, rfl⟩ := ran
      exact ⟨_, _, _, _, _, _, trade⟩
    · cases ran

/-- A node that is moved or copied under a settled one leaves it another text. -/
theorem Laid.exists_trade {r : Rearrangement} {parent : Handle} (laid : Laid d b)
    (nested : (Branch.form b).Nested) (plain : ';' ∉ d.text.current) (fits : r.Fits d)
    (up : d.tree.parent r.node = .ok (some parent)) (settled : d.SettledAt parent)
    (ran : r.run d = .ok (.ok (some root), d')) :
    ∃ fs p before mid behind mid' fs' c, b = Rose.plug fs p ∧ handle p = parent ∧
      Trade d d' (r.growth d) fs p before mid behind mid' fs' c := by
  have short : d.text.currentLength < positionLimit :=
    Nat.lt_of_le_of_lt (Nat.le_add_right _ _) fits
  cases r with
  | moveEarlier h =>
    obtain ⟨earlier, found, exchanged⟩ := moveEarlier_made ran
    obtain ⟨fs, value, before, e, l, after, rfl, rfl, rfl⟩ :=
      laid.holds.exists_siblings (.inl found)
    have at_l : Holds d.tree (Rose.plug (⟨value, before ++ [e], after⟩ :: fs) l) := by
      simpa [Rose.Frame.fill] using laid.holds
    cases at_l.hole.parent_ok.symm.trans up
    obtain ⟨_, _, _, _, _, _, trade⟩ := laid.exchange_trades nested plain short settled exchanged
    exact ⟨_, _, _, _, _, _, _, _, rfl, rfl, trade⟩
  | moveLater h =>
    obtain ⟨later, found, exchanged⟩ := moveLater_made ran
    obtain ⟨fs, value, before, e, l, after, rfl, rfl, rfl⟩ :=
      laid.holds.exists_siblings (.inr found)
    have at_e : Holds d.tree (Rose.plug (⟨value, before, l :: after⟩ :: fs) e) := laid.holds
    cases at_e.hole.parent_ok.symm.trans up
    obtain ⟨_, _, _, _, _, _, trade⟩ := laid.exchange_trades nested plain short settled exchanged
    exact ⟨_, _, _, _, _, _, _, _, rfl, rfl, trade⟩
  | duplicate h =>
    obtain ⟨above, above_eq, copied⟩ := duplicate_made ran
    cases above_eq.symm.trans up
    obtain ⟨fs, value, before, child, after, rfl, rfl, rfl⟩ := laid.holds.exists_frame up
    have at_child : Holds d.tree (Rose.plug (⟨value, before, after⟩ :: fs) child) := laid.holds
    have span : d.tree.span (handle child) = .ok child.value.2.span := at_child.hole.span_eq
    rw [Rearrangement.Fits, Rearrangement.growth, span] at fits
    rw [Rearrangement.growth, span]
    obtain ⟨_, _, _, _, _, _, trade⟩ := laid.copyChild_trades nested plain fits settled copied
    exact ⟨_, _, _, _, _, _, _, _, rfl, rfl, trade⟩

end Document

end FormEdit
