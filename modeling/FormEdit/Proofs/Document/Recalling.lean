import FormEdit.Proofs.Document.CurrentText
import FormEdit.Proofs.Document.Session
import FormEdit.Proofs.Grammar.Placing
import FormEdit.Proofs.Tree.Routes
import FormEdit.Proofs.Weave.Following
import FormEdit.Proofs.Weave.Reviving

/-!
# What a changed document was read from

While changes are pending, the tree can still be what the committed text reads as. The document is
then woven so that its weave with all strokes taken back is good (`Recalls`): that weave has the
committed characters, so they read as a form of the shape of the tree (`Recalls.showsCommitted`).
Strokes keep a document so, and so does reading a node again that still has the first and the last
of its committed characters (`Recalls.reread`): then the place of the node in storage is its place
in both texts.
-/

namespace FormEdit.Document

open Rose Buffer Branch Weave FormEdit.Language FormEdit.Tree

variable {d d₁ d' : Document} {b n : Branch} {fs : List (Rose.Frame (Handle × Node))}
  {la ra la' ra' : List Cell} {w w' : Weave} {gs : List Weave.Frame} {kind : Kind}
  {parts us vs : List Weave} {position count : Nat}

/-- The committed text of the root reads as a form of the shape of the tree. -/
def ShowsCommitted (d : Document) : Prop :=
  ∃ f g, d.tree.form d.root = .ok f ∧ d.readNode parenthesised d.root .committed = .ok g ∧
    g.shape = f.shape

/-- The document is woven from `w` with the blanks `la` and `ra` around it: it has the same two
texts, each node has its place in both, and without its strokes the weave is good. -/
structure Recalls (d : Document) (b : Branch) (la : List Cell) (w : Weave)
    (ra : List Cell) : Prop where
  holds : Holds d.tree b
  texts : SameTexts d.text.cells (la ++ (w.cells ++ ra))
  plain : ∀ c ∈ d.text.cells, c.char ≠ ';'
  blanks : Blanks la
  blanks' : Blanks ra
  form : formsOf la.length w = [Branch.form b]
  good : ∀ v ∈ revived w, Good d.widened v
  matched : AllMatch d.text.cells la.length la.length w

theorem saved_blanks (blanks : Blanks la) : saved la = la :=
  saved_kept blanks.allKept

theorem length_original_blanks (blanks : Blanks la) : (original la).length = la.length := by
  rw [← length_saved, saved_blanks blanks]

namespace Recalls

/-- A document without changes whose text reads as its tree. -/
theorem of_reads (holds : Holds d.tree b) (kept : ∀ c ∈ d.text.cells, c.status = .kept)
    (reads : Reads 0 d.text.current (Branch.form b)) (narrow : d.widened = false)
    (plain : ';' ∉ d.text.current) : ∃ la w ra, Recalls d b la w ra := by
  obtain ⟨la, w, ra, text, blanks, blanks', kept_w, good, form⟩ := exists_weave kept reads
  rw [List.append_assoc] at text
  refine ⟨la, w, ra, holds, ⟨by rw [text], by rw [text]⟩, ?_, blanks, blanks', form, ?_, ?_⟩
  · rintro c mem semicolon
    refine plain (List.mem_map.mpr ⟨c, List.mem_filter.mpr ⟨mem, ?_⟩, semicolon⟩)
    exact isCurrent_of_kept (kept c mem)
  · rw [revived_of_kept w kept_w, narrow]
    simpa using good
  · intro x mem
    obtain ⟨start, length⟩ := place_kept (p := la.length) (q := la.length) kept_w (by
      rw [placesAt_singleton]
      exact List.mem_of_mem_tail mem)
    constructor
    · intro j t c spot _ low high
      obtain rfl := spot_kept kept spot
      omega
    · intro j t c spot _ low high
      obtain rfl := spot_kept kept spot
      omega

theorem length_of_texts {text : Buffer} (texts : SameTexts text.cells (la ++ (w.cells ++ ra)))
    (blanks : Blanks la) (blanks' : Blanks ra) :
    text.currentLength = la.length + w.room + ra.length := by
  have length := congrArg List.length texts.live_eq
  rw [length_live] at length
  simp only [live_append, blanks.live_eq, blanks'.live_eq, List.length_append, length_live]
    at length
  rw [currentLength_eq, length, room, Nat.add_assoc]

theorem length_eq (recalls : Recalls d b la w ra) :
    d.text.currentLength = la.length + w.room + ra.length :=
  length_of_texts recalls.texts recalls.blanks recalls.blanks'

theorem span_eq (recalls : Recalls d b la w ra) : b.value.2.span = Span.sized la.length w.room := by
  obtain ⟨-, start, stop⟩ := nests w _ (Branch.form b) (by rw [recalls.form]; simp)
  rw [span_form] at start stop
  exact Span.ext start stop

theorem nested (recalls : Recalls d b la w ra) : (Branch.form b).Nested :=
  nested_formsOf (by rw [recalls.form]; simp)

theorem inside (recalls : Recalls d b la w ra) : b.value.2.span.stop ≤ d.text.currentLength := by
  rw [recalls.span_eq, recalls.length_eq]
  simp only [Span.sized]
  omega

theorem laid (recalls : Recalls d b la w ra) : Laid d b where
  holds := recalls.holds
  inside := by
    intro entry mem
    exact Nat.le_trans (Branch.preorder_inside recalls.nested mem).2 recalls.inside

theorem saved_eq (recalls : Recalls d b la w ra) :
    saved d.text.cells = la ++ (saved w.cells ++ ra) := by
  rw [recalls.texts.saved_eq, saved_append, saved_append, saved_blanks recalls.blanks,
    saved_blanks recalls.blanks']

theorem plain_current (recalls : Recalls d b la w ra) : ';' ∉ d.text.current := by
  intro typed
  obtain ⟨c, mem, semicolon⟩ := List.mem_map.mp typed
  exact recalls.plain c (List.mem_filter.mp mem).1 semicolon

theorem plain_saved (recalls : Recalls d b la w ra) : ';' ∉ (saved d.text.cells).map Cell.char := by
  intro typed
  obtain ⟨c, mem, semicolon⟩ := List.mem_map.mp typed
  exact recalls.plain c (List.mem_filter.mp mem).1 semicolon

/-- The committed characters of the root read as what is left of its nodes without the strokes. -/
theorem reads (recalls : Recalls d b la (.node kind parts) ra) :
    ∃ span, Reads la.length (original (stored parts))
      (.node ⟨kind, span⟩ (formsAt la.length (revivedEach parts))) :=
  reads_original (recalls.good _ (by rw [revived_node]; simp)).loosen

/-- So does the whole committed text. -/
theorem parses (recalls : Recalls d b la (.node kind parts) ra) :
    ∃ span, Parses 0 ((saved d.text.cells).map Cell.char)
      (.node ⟨kind, span⟩ (formsAt la.length (revivedEach parts))) := by
  obtain ⟨span, reads⟩ := recalls.reads
  refine ⟨span, (parses_iff_reads recalls.plain_saved).mpr ?_⟩
  rw [recalls.saved_eq, List.map_append, List.map_append, ← original_eq_saved, cells_node,
    ← List.append_assoc]
  exact Reads.pad (by simpa using reads) recalls.blanks.chars recalls.blanks'.chars

/-- The committed text of the root reads as a form of the shape of the tree. -/
theorem showsCommitted (recalls : Recalls d b la w ra)
    (fits : d.text.currentLength + 1 < positionLimit) :
    d.ShowsCommitted := by
  obtain ⟨kind, parts, rfl⟩ := is_node_of_form recalls.form
  obtain ⟨span, reads⟩ := recalls.reads
  have root_eq : d.root = handle b := recalls.holds.root.symm
  have root_span : d.tree.span (handle b) = .ok b.value.2.span := recalls.holds.linked.span_eq
  have chars : (d.text.slice .committed b.value.2.span).map Placed.char =
      original (stored parts) := by
    rw [slice, map_char_placeCommitted, original_eq_saved, recalls.span_eq]
    rw [recalls.texts.saved_cellsOf recalls.blanks.allKept recalls.blanks'.allKept rfl
      (by simp [Span.sized, room]), cells_node, original_eq_saved]
  have plain : ';' ∉ original (stored parts) := by
    have plain_saved := recalls.plain_saved
    rw [recalls.saved_eq, cells_node] at plain_saved
    simp only [List.map_append, List.mem_append, not_or] at plain_saved
    exact plain_saved.2.1
  have sorted := sorted_slice_committed recalls.inside fits
  obtain ⟨g, read, shape⟩ := readWhole_placed sorted (by
    rw [chars]
    exact (parses_iff_reads plain).mpr reads)
  refine ⟨Branch.form b, g, recalls.holds.form, ?_, ?_⟩
  · rw [readNode, root_eq, root_span, mapError_ok, ok_bind, read]
  · have shapes := shape_original kind parts la.length la.length span
    rw [recalls.form, List.map_cons, List.map_nil, List.cons.injEq] at shapes
    rw [shape, ← shapes.1]

/-! ## Strokes -/

/-- The root can take in the blanks beside it. -/
theorem reached (recalls : Recalls d b la w ra) (reached : Reached d d₁ la w ra la' w' ra')
    (site : Site d₁.tree position count la' w' fs n gs kind parts) :
    Recalls d₁ (Rose.plug fs n) la' w' ra' := by
  have whole := site.focus.whole
  rw [site.wrapped] at whole
  cases reached with
  | inside =>
    rw [recalls.blanks.currentCount_eq] at whole
    exact { recalls with holds := site.focus.holds, form := whole }
  | @outside tree la l r ra k ps =>
    have blanks_l := recalls.blanks.right
    have blanks_r := recalls.blanks'.left
    have still {cells : List Cell} (blanks : Blanks cells) :
        revivedEach (cells.map cell) = cells.map cell :=
      revivedEach_of_kept fun c mem => (blanks c (by simpa using mem)).1
    rw [recalls.blanks.left.currentCount_eq] at whole
    refine ⟨site.focus.holds, ?_, recalls.plain, recalls.blanks.left, recalls.blanks'.right, whole,
      ?_, ?_⟩
    · simpa using recalls.texts
    · intro v mem
      rw [revived_node, revivedEach_append, revivedEach_append, still blanks_l, still blanks_r,
        List.mem_singleton] at mem
      rw [mem]
      exact (recalls.good _ (by rw [revived_node]; simp)).widen blanks_l blanks_r
    · intro x mem
      refine recalls.matched x ?_
      rw [placesOf_node, List.tail_cons, placesAt_append, placesAt_append, placesAt_cells,
        placesAt_cells, List.append_nil, List.nil_append, width_map_cell, oldWidth_map_cell,
        blanks_l.currentCount_eq, length_original_blanks blanks_l, ← List.length_append] at mem
      rwa [placesOf_node, List.tail_cons]

theorem exists_found (recalls : Recalls d b la w ra) (single : count ≤ 1)
    (enough : position + count ≤ d.text.currentLength) :
    ∃ d₁ la w ra fs n gs kind parts, Recalls d₁ (Rose.plug fs n) la w ra ∧
      Found d d₁ position count la w ra fs n gs kind parts := by
  have form := recalls.form
  rw [← recalls.blanks.currentCount_eq] at form
  have total := recalls.length_eq
  rw [← recalls.blanks.currentCount_eq, ← recalls.blanks'.currentCount_eq] at total
  rw [total] at enough
  obtain ⟨d₁, la', w', ra', fs, n, gs, kind, parts, reached, found⟩ :=
    Document.exists_found recalls.holds form single enough
  exact ⟨d₁, la', w', ra', fs, n, gs, kind, parts, recalls.reached reached found.site, found⟩

/-- Some cells of a node give way to others that are committed as they are. -/
theorem makeRoom {old new : List Cell} {text : Buffer} {seam : Nat} {distance : Int}
    (recalls : Recalls d (Rose.plug fs n) la (wrap gs (.node kind (us ++ old.map cell ++ vs))) ra)
    (focus : Focus d.tree la.length fs n gs (.node kind (us ++ old.map cell ++ vs)))
    (texts : SameTexts text.cells
      (la ++ ((wrap gs (.node kind (us ++ new.map cell ++ vs))).cells ++ ra)))
    (plain : ∀ c ∈ text.cells, c.char ≠ ';') (same : original new = original old)
    (matched : AllMatch text.cells la.length la.length
      (wrap gs (.node kind (us ++ new.map cell ++ vs))))
    (grows : (currentCount new : Int) = currentCount old + distance)
    (ahead : ∀ f ∈ formsAt (la.length + currentCount (left gs)) us, (Form.span f).start < seam)
    (behind : seam ≤ la.length + currentCount (left gs) + width us + currentCount old)
    (fits : text.currentLength < positionLimit) :
    ∃ tree fs' n', { d with text := text }.makeRoom (handle n) seam distance =
        .ok { d with text := text, tree := tree } ∧ handle n' = handle n ∧
      Recalls { d with text := text, tree := tree } (Rose.plug fs' n') la
        (wrap gs (.node kind (us ++ new.map cell ++ vs))) ra := by
  have total := length_of_texts texts recalls.blanks recalls.blanks'
  rw [room, cells_wrap, currentCount_append, currentCount_append, cells_node, ← width] at total
  obtain ⟨tree, fs', n', made, handle_eq, focus'⟩ :=
    makeRoom_spec (d := { d with text := text }) focus grows ahead behind (by omega)
  refine ⟨tree, fs', n', made, handle_eq, focus'.holds, texts, plain, recalls.blanks,
    recalls.blanks', focus'.whole, ?_, matched⟩
  rw [revived_wrap_cells gs same]
  exact recalls.good

end Recalls

/-- The text after a stroke, before anything is read again. -/
def Stroke.change (b : Buffer) : Stroke → Checked Buffer
  | .insert c position => b.insert c position
  | .delete position => b.delete position

/-- All that is left of a stroke is that a node is read again. -/
structure Left (s : Stroke) (d d' : Document) (n : Branch) : Prop where
  run : s.run d = (do
    let (outcome, d'') ← d'.reread parenthesised (handle n)
    pure (.ok outcome, d''))
  changed : ∃ text, s.change d.text = .ok text ∧ saved d'.text.cells = saved text.cells
  short : d'.text.currentLength ≤ d.text.currentLength + 1

/-- Where a typed character is stored. -/
theorem typed_split (span : Span) (c : Char) (inside : position ≤ d.text.currentLength) :
    ∃ before behind, d.text.cells = before ++ behind ∧ currentCount before = position ∧
      d.typed span c position = .ok ⟨before ++ ([⟨c, .inserted⟩] ++ behind)⟩ ∧
      (span.start = position → StartsCurrent behind) := by
  rw [typed]
  split
  · obtain ⟨before, behind, split, count, starts⟩ := exists_lastSplit d.text.cells inside
    refine ⟨before, behind, split, count, ?_, fun _ => starts⟩
    rw [show d.text = ⟨before ++ behind⟩ by rw [← split]]
    exact insertPastDeleted_append count starts
  · rename_i elsewhere
    obtain ⟨before, behind, split, count, ends⟩ := exists_firstSplit d.text.cells inside
    refine ⟨before, behind, split, count, ?_, fun here => absurd here elsewhere⟩
    rw [show d.text = ⟨before ++ behind⟩ by rw [← split]]
    exact insert_append count ends

/-- The cells around a stretch of those of a node. -/
theorem cells_around (la ra mid : List Cell) (gs : List Weave.Frame) (kind : Kind)
    (us vs : List Weave) :
    la ++ ((wrap gs (.node kind (us ++ mid.map cell ++ vs))).cells ++ ra) =
      (la ++ (left gs ++ stored us)) ++ (mid ++ (stored vs ++ (right gs ++ ra))) := by
  simp [cells_wrap]

theorem currentCount_ahead (blanks : Blanks la) (gs : List Weave.Frame) (us : List Weave) :
    currentCount (la ++ (left gs ++ stored us)) =
      la.length + currentCount (left gs) + width us := by
  rw [currentCount_append, currentCount_append, blanks.currentCount_eq, width, Nat.add_assoc]

/-- No semicolon comes in with a stretch that has none. -/
theorem plain_replaced {before old new behind : List Cell}
    (plain : ∀ c ∈ before ++ (old ++ behind), c.char ≠ ';') (plain_new : ∀ c ∈ new, c.char ≠ ';') :
    ∀ c ∈ before ++ (new ++ behind), c.char ≠ ';' := by
  intro c mem
  simp only [List.mem_append] at plain mem
  rcases mem with mem | mem | mem
  · exact plain c (.inl mem)
  · exact plain_new c mem
  · exact plain c (.inr (.inr mem))

/-- Typing adds nothing to the committed cells. -/
theorem insert_saved {b : Buffer} (c : Char) (inside : position ≤ b.currentLength) :
    ∃ text, b.insert c position = .ok text ∧ saved text.cells = saved b.cells := by
  obtain ⟨cells⟩ := b
  obtain ⟨before, behind, rfl, count, ends⟩ := exists_firstSplit cells inside
  refine ⟨_, insert_append count ends, ?_⟩
  simp [saved, Cell.isCommitted]

namespace Recalls

theorem insert {c : Char} (recalls : Recalls d b la w ra) (not_comment : c ≠ ';')
    (inside : position ≤ d.text.currentLength) (fits : d.text.currentLength + 1 < positionLimit) :
    ∃ d' fs n la w ra, Recalls d' (Rose.plug fs n) la w ra ∧ Left (.insert c position) d d' n := by
  obtain ⟨d₁, la, w, ra, fs, n, gs, kind, parts, recalls, found⟩ :=
    recalls.exists_found (Nat.zero_le 1) inside
  have same := found.same
  obtain ⟨us, vs, rfl, focus, seam, ahead, outside, inner⟩ := found.exists_seam recalls.blanks
  obtain ⟨before, behind, split, count, is_typed, starts⟩ :=
    typed_split (d := d) n.value.2.span c inside
  have ran := insert_run inside found.around same focus.holds.hole.span_eq is_typed
  have span_start : n.value.2.span.start = la.length + currentCount (left gs) := by
    rw [focus.span_eq]
    rfl
  have plain := recalls.plain
  have texts := recalls.texts
  have matched := recalls.matched
  have total := recalls.length_eq
  rw [same, currentLength_eq] at total
  rw [same, split] at plain texts matched
  rw [split] at total
  have untyped : us ++ vs = us ++ ([] : List Cell).map cell ++ vs := by simp
  have matched' := matched.typed c (seam.trans count.symm) (by rwa [count]) inner
    (fun at_start => starts (by omega)) (by omega)
  rw [untyped] at recalls focus texts
  rw [cells_around, List.nil_append] at texts
  have typed := texts.typed c (by rw [currentCount_ahead recalls.blanks, count, seam])
  rw [← cells_around] at typed
  have length : (⟨before ++ ([⟨c, .inserted⟩] ++ behind)⟩ : Buffer).currentLength =
      d.text.currentLength + 1 := by
    rw [currentLength_eq, currentLength_eq, split]
    simp [Cell.isCurrent]
    omega
  have grows : (currentCount [⟨c, .inserted⟩] : Int) = currentCount [] + 1 := by
    simp [Cell.isCurrent]
  have plain_typed : ∀ e ∈ before ++ ([⟨c, .inserted⟩] ++ behind), e.char ≠ ';' :=
    @plain_replaced before [] [⟨c, .inserted⟩] behind plain (by simpa using not_comment)
  obtain ⟨tree, fs', n', made, handle_eq, recalls'⟩ := recalls.makeRoom focus typed plain_typed rfl
    matched' grows ahead (by simp [seam]) (by omega)
  obtain ⟨text, changed, none_saved⟩ := insert_saved (b := d.text) c inside
  refine ⟨_, fs', n', la, _, ra, recalls', ?_, ⟨text, changed, ?_⟩, Nat.le_of_eq length⟩
  · rw [Stroke.run, ran, made, ok_bind, ← handle_eq]
  · rw [none_saved, split]
    simp [saved, Cell.isCommitted]

theorem delete (recalls : Recalls d b la w ra) (inside : position < d.text.currentLength)
    (fits : d.text.currentLength < positionLimit) :
    ∃ d' fs n la w ra, Recalls d' (Rose.plug fs n) la w ra ∧ Left (.delete position) d d' n := by
  obtain ⟨d₁, la, w, ra, fs, n, gs, kind, parts, recalls, found⟩ :=
    recalls.exists_found (Nat.le_refl 1) inside
  have same := found.same
  obtain ⟨us, c', vs, rfl, current', focus, seam⟩ := found.exists_cell recalls.blanks
  obtain ⟨before, rest, split, count, starts⟩ := exists_lastSplit d.text.cells (Nat.le_of_lt inside)
  obtain ⟨c, behind, rfl⟩ : ∃ c behind, rest = c :: behind := by
    refine List.exists_cons_of_ne_nil ?_
    rintro rfl
    rw [currentLength_eq, split, List.append_nil] at inside
    omega
  have current : c.isCurrent = true := starts c rfl
  have deleted : d.text.delete position = .ok ⟨before ++ (struck c ++ behind)⟩ := by
    rw [show d.text = ⟨before ++ c :: behind⟩ by rw [← split], delete_append count current, struck]
    split <;> rfl
  have ran := delete_run inside found.around same deleted
  have plain := recalls.plain
  have texts := recalls.texts
  have matched := recalls.matched
  rw [same, split] at plain texts matched
  have shape : us ++ cell c' :: vs = us ++ [c'].map cell ++ vs := by simp
  rw [shape] at recalls texts matched
  rw [cells_around] at texts
  obtain ⟨rfl, struck_texts⟩ :=
    texts.struck (by rw [currentCount_ahead recalls.blanks, count, seam]) current current'
  rw [← cells_around] at struck_texts
  have matched' := matched.struck current (seam.trans count.symm)
  have shrinks : (currentCount (struck c) : Int) = currentCount [c] + -1 := by
    simp [currentCount_struck, current]
  have ahead : ∀ f ∈ formsAt (la.length + currentCount (left gs)) us,
      (Form.span f).start < position + 1 := formsAt_start_lt seam
  have length : (⟨before ++ (struck c ++ behind)⟩ : Buffer).currentLength + 1 =
      d.text.currentLength := by
    rw [currentLength_eq, currentLength_eq, split]
    simp [currentCount_struck, current]
    omega
  have plain_struck : ∀ e ∈ before ++ (struck c ++ behind), e.char ≠ ';' := by
    refine @plain_replaced before [c] (struck c) behind plain fun e mem => ?_
    rw [char_struck mem]
    exact plain c (by simp)
  obtain ⟨tree, fs', n', made, handle_eq, recalls'⟩ := recalls.makeRoom focus struck_texts
    plain_struck (original_struck current) matched' shrinks ahead (by simp [current, seam])
    (by omega)
  refine ⟨_, fs', n', la, _, ra, recalls', ?_, ⟨_, deleted, rfl⟩,
    Nat.le_succ_of_le (Nat.le_of_succ_le (Nat.le_of_eq length))⟩
  rw [Stroke.run, ran, made, ok_bind, ← handle_eq]

end Recalls

/-! ## Reading a node again -/

/-- Of the cells that the committed text has, those at the edges of the node at a route are still
kept. -/
def KeepsEdges (committed : List Cell) (route : Route) : Prop :=
  ∃ f g first last, Parses 0 (committed.map Cell.char) f ∧ f.branchAt route = some g ∧
    committed[(Form.span g).start]? = some first ∧ committed[(Form.span g).stop - 1]? = some last ∧
    first.status = .kept ∧ last.status = .kept

/-- Without the strokes a hole is at the same route. -/
theorem routeOf_revived (gs : List Weave.Frame) (p p' m m' : Nat) :
    routeOf (tagsAt p (gs.map Weave.Frame.revived) m) = routeOf (tagsAt p' gs m') := by
  induction gs generalizing m m' with
  | nil => rfl
  | cons g gs ih =>
    have same (start start' : Nat) :
        (formsAt start (revivedEach g.before)).length = (formsAt start' g.before).length := by
      have shapes := @shape_revivedEach g.before (fun w _ => shape_revived w) start start'
      simpa using congrArg List.length shapes
    rw [List.map_cons, tagsAt, tagsAt, routeOf, routeOf]
    simp only [Weave.Frame.revived]
    rw [ih, same]

namespace Recalls

/-- The edges of a node are where its committed characters are. -/
theorem edges {g : Weave.Frame} {m : Nat}
    (recalls : Recalls d b la (wrap (g :: gs) (.node kind parts)) ra)
    (keeps : KeepsEdges (saved d.text.cells) (routeOf (tagsAt la.length (g :: gs) m))) :
    ∃ first last, (saved d.text.cells)[la.length + (original (left (g :: gs))).length]? =
      some first ∧
      (saved d.text.cells)[la.length + (original (left (g :: gs))).length + oldWidth parts - 1]? =
        some last ∧
      first.status = .kept ∧ last.status = .kept := by
  obtain ⟨f, h, first, last, parses, at_route, is_first, is_last, kept_first, kept_last⟩ := keeps
  obtain ⟨outer, ps, wrapped⟩ := is_node_of_form recalls.form
  obtain ⟨span, own⟩ := (wrapped ▸ recalls).parses
  obtain rfl := parses.unique own
  have whole := revived_wrap (g :: gs) kind parts
  rw [wrapped, revived_node, ← plug_singleton] at whole
  have inner :=
    formsOf_node (la.length + currentCount (left ((g :: gs).map Weave.Frame.revived))) kind
      (revivedEach parts)
  rw [← formsAt_singleton] at inner
  have plugged := formsAt_plug inner
  rw [← whole, formsAt_singleton, formsOf_node, List.cons.injEq] at plugged
  have below : routeOf (tagsAt la.length (g :: gs) m) ≠ [] := by simp [tagsAt, routeOf]
  rw [branchAt_below below _ ⟨outer, Span.sized la.length (width (revivedEach ps))⟩, plugged.1,
    ← routeOf_revived (g :: gs) la.length la.length (width [.node kind (revivedEach parts)]) m,
    branchAt_plug] at at_route
  cases at_route
  have start : currentCount (left ((g :: gs).map Weave.Frame.revived)) =
      (original (left (g :: gs))).length := by
    rw [left_revived, currentCount_keptCells]
  have length : width (revivedEach parts) = oldWidth parts := by
    rw [width, stored_revivedEach_eq, currentCount_keptCells, oldWidth]
  simp only [Form.span, value_node, Span.sized, start, length] at is_first is_last
  exact ⟨first, last, is_first, is_last, kept_first, kept_last⟩

/-- The nodes of a weave have characters without the strokes. -/
theorem good_hole {g : Weave.Frame}
    (recalls : Recalls d b la (wrap (g :: gs) (.node kind parts)) ra) :
    Good d.widened
      (wrap (g.revived :: gs.map Weave.Frame.revived) (.node kind (revivedEach parts))) ∧
      Kept [wrap (g.revived :: gs.map Weave.Frame.revived) (.node kind (revivedEach parts))] ∧
      0 < oldWidth parts := by
  have good := recalls.good _ (by rw [revived_wrap]; exact List.mem_singleton_self _)
  have kept := kept_revivedEach [wrap (g :: gs) (.node kind parts)]
  rw [revivedEach_cons, revivedEach_nil, List.append_nil, revived_wrap] at kept
  refine ⟨good, kept, ?_⟩
  have kept_parts := kept_revivedEach parts
  obtain ⟨c, head, -⟩ :=
    (((Good.inner good kept).shape kept_parts).1.spelled kept_parts).solid_front
  rw [spelling_revivedEach] at head
  exact List.length_pos_of_ne_nil (List.ne_nil_of_mem (List.mem_of_head? head))

/-- A node that keeps its edges is stored in a stretch that is its place in both texts. -/
theorem exists_stretch {g : Weave.Frame} {span : Span} {m : Nat}
    (recalls : Recalls d b la (wrap (g :: gs) (.node kind parts)) ra)
    (span_eq : span = Span.sized (la.length + currentCount (left (g :: gs))) (width parts))
    (some : 0 < width parts)
    (keeps : KeepsEdges (saved d.text.cells) (routeOf (tagsAt la.length (g :: gs) m))) :
    ∃ before mid behind, d.text.Commits span before mid behind ∧
      (original before).length = la.length + (original (left (g :: gs))).length ∧
      (original mid).length = oldWidth parts ∧
      (∀ c, (original mid).head? = .some c → c ∈ shown mid) ∧
      (original mid).getLast? = (shown mid).getLast? := by
  obtain ⟨first, last, is_first, is_last, kept_first, kept_last⟩ := recalls.edges keeps
  have total := recalls.length_eq
  rw [room, cells_wrap, currentCount_append, currentCount_append, cells_node, ← width] at total
  subst span_eq
  obtain ⟨before, mid, behind, commits⟩ := exists_commits d.text
    (Span.sized (la.length + currentCount (left (g :: gs))) (width parts))
    (by simp only [Span.sized]; omega) (by simp only [Span.sized]; omega)
  have matched := recalls.matched _ (place_mem g gs kind parts)
  have count_mid := commits.count_mid
  simp only [Span.length, Span.sized, Nat.add_sub_cancel_left] at count_mid
  rw [commits.cells] at matched is_first is_last
  obtain ⟨-, -, filled⟩ := recalls.good_hole
  obtain ⟨old_before, old_mid, inner, l, rfl, kept_l⟩ :=
    matched.stretch commits.count.symm count_mid.symm commits.some commits.starts
      commits.ends filled is_first is_last kept_first kept_last
  simp only at old_before old_mid
  have head := saved_head (by rw [old_mid]; exact filled) (old_before ▸ is_first)
  refine ⟨before, inner ++ [l], behind, commits, old_before, old_mid, ?_, ?_⟩
  · rintro c begins
    rw [original_eq_saved, List.head?_map, head] at begins
    cases begins
    have mem := (List.mem_filter.mp (List.mem_of_head? head)).1
    exact List.mem_map.mpr ⟨first, List.mem_filter.mpr ⟨mem, isCurrent_of_kept kept_first⟩, rfl⟩
  · rw [original_append, shown_append]
    simp [original_cons, shown_cons, Cell.isCommitted, Cell.isCurrent, kept_l]

/-- A node other than the root gets another text, `k` characters longer, in which nothing is
pending, and is what that reads as. Its first and last committed characters are still there. -/
theorem renew {k : Nat} {g : Weave.Frame} {c : Branch} {fs' : List (Rose.Frame (Handle × Node))}
    {before mid new behind : List Cell}
    (recalls : Recalls d (Rose.plug fs b) la (wrap (g :: gs) (.node kind parts)) ra)
    (focus : Focus d.tree la.length fs b (g :: gs) (.node kind parts))
    (cells : d.text.cells = before ++ (mid ++ behind))
    (count : currentCount before = la.length + currentCount (left (g :: gs)))
    (count_mid : currentCount mid = width parts) (some : 0 < width parts)
    (old_count : (original before).length = la.length + (original (left (g :: gs))).length)
    (old_count_mid : (original mid).length = oldWidth parts)
    (cells' : d'.text.cells = before ++ (new ++ behind)) (kept_new : AllKept new)
    (plain_new : ∀ x ∈ new, x.char ≠ ';') (length : new.length = width parts + k)
    (reads : Reads (la.length + currentCount (left (g :: gs))) (new.map Cell.char) (Branch.form c))
    (first : ∀ x, (original mid).head? = .some x → x ∈ new.map Cell.char)
    (last : (original mid).getLast? = (new.map Cell.char).getLast?)
    (holds : Holds d'.tree (Rose.plug fs' c)) (tags_eq : tags fs' = (tags fs).map (roomTags k))
    (widened : d'.widened = d.widened) : ∃ w', Recalls d' (Rose.plug fs' c) la w' ra := by
  -- The stretch and the cells of the node give way to the new ones side by side.
  have hole (mid : List Cell) : la ++ ((left (g :: gs) ++ mid ++ right (g :: gs)) ++ ra) =
      (la ++ left (g :: gs)) ++ (mid ++ (right (g :: gs) ++ ra)) := by
    simp only [List.append_assoc]
  have texts := recalls.texts
  have matched := recalls.matched
  have plain := recalls.plain
  rw [cells] at texts matched plain
  rw [cells_wrap, cells_node, hole] at texts
  obtain ⟨texts', -, original_eq⟩ := texts.replaced
    (by rw [currentCount_append, recalls.blanks.currentCount_eq, count]) count_mid
    (by rw [original_append, List.length_append, length_original_blanks recalls.blanks, old_count])
    old_count_mid
  -- What the node reads as takes its place among those that are as they were read.
  obtain ⟨good, kept, -⟩ := recalls.good_hole
  obtain ⟨ws, good', kept_ws, stored_ws, forms⟩ := good.renew kept reads
    (by rwa [spelling_revivedEach, ← original_eq]) (by rwa [spelling_revivedEach, ← original_eq])
  rw [keptCells_chars kept_new] at stored_ws
  have cells_eq : (wrap gs (g.fill ws)).cells = left (g :: gs) ++ stored ws ++ right (g :: gs) := by
    have whole := stored_plug (g :: gs) ws
    rwa [plug_cons_wrap, stored_cons, stored_nil, List.append_nil] at whole
  have grows : width ws = (node kind parts).room + k := by
    rw [width, stored_ws, kept_new.currentCount_eq, length, room_node]
  refine ⟨wrap gs (g.fill ws), holds, ?_, ?_, recalls.blanks, recalls.blanks', ?_, ?_, ?_⟩
  · rw [cells', cells_eq, hole, stored_ws]
    exact texts' new
  · rw [cells']
    exact plain_replaced plain plain_new
  · have plugged := forms_traded focus grows tags_eq forms
    rwa [plug_cons_wrap, formsAt_singleton] at plugged
  · intro v mem
    rw [revived_wrap_fill, revivedEach_of_kept kept_ws, List.mem_singleton] at mem
    rw [mem, widened]
    exact good'
  · rw [cells']
    refine matched.renewed count.symm old_count.symm (by rw [room_node, count_mid])
      (by rw [oldWidth_node, old_count_mid]) (by rwa [count_mid]) ?_ kept_ws stored_ws
    rw [kept_new.currentCount_eq]
    omega

/-- A node other than the root that keeps its edges is read again and committed. -/
theorem commit {o : Rose.Frame (Handle × Node)} {f : Form} {tree : Tree} (ids : IdSource)
    {fs' : List (Rose.Frame (Handle × Node))} {c : Branch}
    (recalls : Recalls d (Rose.plug (o :: fs) b) la w ra)
    (rereads : Rereads d (o :: fs) b.value.2.span f) (holds : Holds tree (Rose.plug fs' c))
    (tags_eq : tags fs' = tags (o :: fs)) (form : Branch.form c = f)
    (keeps : KeepsEdges (saved d.text.cells) (routeOf fs')) :
    ∃ w', Recalls { d with tree := tree, ids := ids, text := d.text.commit b.value.2.span }
      (Rose.plug fs' c) la w' ra := by
  obtain ⟨gs, v, rfl, focus⟩ := exists_focus recalls.holds recalls.form
  obtain ⟨k, ps, rfl⟩ := is_node_of_form focus.form
  obtain ⟨g, gs, rfl, -⟩ := focus.out
  have route : routeOf fs' = routeOf (tagsAt la.length (g :: gs) (node k ps).room) := by
    rw [← focus.tags_eq, ← tags_eq, tags, routeOf_map]
  have span_eq := focus.span_eq
  rw [room_node] at span_eq
  have reads := rereads.reads
  have some : 0 < width ps := by
    by_contra none
    refine reads.nonempty ?_
    rw [span_eq]
    simp [Span.length, Span.sized, Nat.eq_zero_of_not_pos none]
  obtain ⟨before, mid, behind, commits, old_count, old_count_mid, first, last⟩ :=
    recalls.exists_stretch span_eq some (route ▸ keeps)
  have count : currentCount before = la.length + currentCount (left (g :: gs)) := by
    rw [commits.count, span_eq]
    rfl
  have count_mid : currentCount mid = width ps := by
    rw [commits.count_mid, span_eq]
    simp [Span.length, Span.sized]
  have chars : (settle mid).map Cell.char = shown mid := by
    rw [settle_eq_keptCells, map_char_keptCells]
  have kept : AllKept (settle mid) := kept_settle
  have plain : ∀ x ∈ settle mid, x.char ≠ ';' := by
    intro x mem
    obtain ⟨y, listed, rfl⟩ := List.mem_map.mp mem
    refine recalls.plain y ?_
    rw [commits.cells]
    simp [(List.mem_filter.mp listed).1]
  rw [current_eq, commits.cells, drop_shown commits.count, take_shown commits.count_mid, span_eq,
    ← chars, ← form] at reads
  rw [← chars] at first last
  have cells' : (d.text.commit b.value.2.span).cells = before ++ (settle mid ++ behind) := by
    rw [commits.committed]
  have length : (settle mid).length = width ps + 0 := by
    rw [← kept.currentCount_eq, currentCount_settle, count_mid, Nat.add_zero]
  have tags_eq' : tags fs' = (tags (o :: fs)).map (roomTags (0 : Nat)) := by
    rw [tags_eq, map_roomTags_zero]
  exact recalls.renew focus commits.cells count count_mid some old_count old_count_mid
    cells' kept plain length reads first last holds tags_eq' rfl

/-- A settled node other than the root that keeps its edges gets another text. -/
theorem trade {k : Nat} {o : Rose.Frame (Handle × Node)} {fs' : List (Rose.Frame (Handle × Node))}
    {c : Branch} {before mid behind mid' : List Cell}
    (recalls : Recalls d (Rose.plug (o :: fs) b) la w ra)
    (trade : Trade d d' k (o :: fs) b before mid behind mid' fs' c)
    (keeps : KeepsEdges (saved d.text.cells) (routeOf (o :: fs))) :
    ∃ w', Recalls d' (Rose.plug fs' c) la w' ra := by
  obtain ⟨gs, v, rfl, focus⟩ := exists_focus recalls.holds recalls.form
  obtain ⟨kind, ps, rfl⟩ := is_node_of_form focus.form
  obtain ⟨g, gs, rfl, -⟩ := focus.out
  have steady := trade.steady
  have grows := trade.grows
  have span_eq := focus.span_eq
  rw [room_node] at span_eq
  have start : b.value.2.span.start = la.length + currentCount (left (g :: gs)) :=
    congrArg Span.start span_eq
  have width_eq : mid.length = width ps := by
    have stop := steady.stop
    rw [span_eq] at stop
    exact Nat.add_left_cancel stop
  have some : mid ≠ [] := by
    rintro rfl
    exact trade.reads.nonempty rfl
  have route : routeOf (o :: fs) = routeOf (tagsAt la.length (g :: gs) (node kind ps).room) := by
    rw [← focus.tags_eq, tags, routeOf_map]
  obtain ⟨first, last, is_first, is_last, kept_first, kept_last⟩ := recalls.edges (route ▸ keeps)
  have count : currentCount before = la.length + currentCount (left (g :: gs)) :=
    steady.start.trans start
  have count_mid : currentCount mid = width ps := by rw [steady.kept.currentCount_eq, width_eq]
  have matched := recalls.matched _ (place_mem g gs kind ps)
  rw [steady.cells] at matched is_first is_last
  obtain ⟨-, -, filled⟩ := recalls.good_hole
  obtain ⟨old_count, old_count_mid, -⟩ := matched.stretch count.symm count_mid.symm some
    steady.kept.startsCurrent steady.kept.endsCurrent filled is_first is_last kept_first kept_last
  have chars : original mid = mid.map Cell.char := by rw [original_eq_saved, saved_kept steady.kept]
  have plain : ∀ x ∈ mid', x.char ≠ ';' := by
    intro x mem
    rcases trade.comes x (by rw [trade.cells]; simp [mem]) with old | rfl
    · exact recalls.plain x old
    · decide
  have reads := trade.reads'
  rw [start] at reads
  refine recalls.renew focus steady.cells count count_mid ?_ old_count old_count_mid trade.cells
    trade.kept plain (by rw [grows.longer, width_eq]) reads ?_ ?_ trade.holds trade.tags_eq
    trade.widened
  · rw [← width_eq]
    exact List.length_pos_of_ne_nil some
  · intro x head
    rw [chars, List.head?_map, ← grows.head, ← List.head?_map] at head
    exact List.mem_of_mem_head? head
  · rw [chars, List.getLast?_map, ← grows.last, List.getLast?_map]

/-- If nothing is pending in the text of the root, nothing is pending at all. -/
theorem settled_of_root {before mid behind : List Cell} (recalls : Recalls d b la w ra)
    (steady : Steady d.text b.value.2.span before mid behind) : d.isSettled = true := by
  have kept_la := recalls.blanks.allKept
  have kept_ra := recalls.blanks'.allKept
  have texts := recalls.texts
  have start := steady.start
  have stop := steady.stop
  rw [recalls.span_eq] at start stop
  have count_mid : currentCount mid = currentCount w.cells := by
    rw [steady.kept.currentCount_eq]
    exact Nat.add_left_cancel stop
  rw [steady.cells] at texts
  obtain ⟨ahead, -, after⟩ :=
    texts.between kept_la kept_ra start count_mid steady.ends steady.starts
  rw [isSettled_iff, steady.cells, AllKept.append, AllKept.append]
  exact ⟨ahead.allKept kept_la, steady.kept, after.allKept kept_ra⟩

/-- Reading again leaves a document alone, settles it, or commits one node. -/
theorem reread {outcome : Outcome} (recalls : Recalls d (Rose.plug fs n) la w ra)
    (fits : d.text.currentLength + 1 < positionLimit)
    (ran : d.reread parenthesised (handle n) = .ok (outcome, d')) :
    (outcome = .pending d.root ∧ d' = d) ∨ ∃ root node, outcome = .reparsed root node ∧
      (d'.isSettled = true ∨ ∃ route, d'.tree.route node = .ok route ∧
        (KeepsEdges (saved d.text.cells) route → ∃ b la w ra, Recalls d' b la w ra)) := by
  rw [Document.reread] at ran
  rcases rereadFrom_spec recalls.holds recalls.holds.depth_lt recalls.nested recalls.inside fits
      recalls.plain_current with
    ⟨inner, outer, f, rfl, rereads, spec⟩ | ⟨spec, -⟩
  · rw [Rose.plug_append] at recalls
    obtain ⟨tree, ids, fs', c, put, holds', tags_eq, form⟩ := putForm_current recalls.holds f
    rw [spec, put, ok_bind] at ran
    obtain ⟨d'', committed, ran⟩ := bind_eq_ok.mp ran
    cases ran
    refine .inr ⟨_, handle c, rfl, ?_⟩
    cases outer with
    | nil =>
      obtain rfl : fs' = [] := by simpa [tags] using tags_eq
      rw [Rose.plug_nil] at holds'
      rw [commitNode_root (d := { d with tree := tree, ids := ids }) holds'] at committed
      cases committed
      exact .inl (by simp [isSettled, isChanged, commitAll, settle])
    | cons o outer =>
      cases fs' with
      | nil => cases tags_eq
      | cons o' fs' =>
        cases settled :
          d.widened && !(d.text.commit (Rose.plug inner n).value.2.span).isChanged with
        | true =>
          rw [commitNode_narrow (d := { d with tree := tree, ids := ids }) holds' _ settled]
            at committed
          obtain ⟨d₁, narrowed, committed⟩ := bind_eq_ok.mp committed
          cases committed
          refine .inl ?_
          simp only [isSettled]
          rw [narrowRoot_text narrowed]
          exact (Bool.and_eq_true_iff.mp settled).2
        | false =>
          rw [commitNode_inner (d := { d with tree := tree, ids := ids }) holds' _ settled]
            at committed
          cases committed
          refine .inr ⟨_, holds'.bears.route, fun keeps => ?_⟩
          obtain ⟨w', recalls'⟩ := recalls.commit ids rereads holds' tags_eq form keeps
          exact ⟨_, _, _, _, recalls'⟩
  · rw [spec] at ran
    cases ran
    exact .inl ⟨rfl, rfl⟩

end Recalls

end FormEdit.Document
