import FormEdit.Proofs.Document.Incremental
import FormEdit.Proofs.Document.Rearranging
import FormEdit.Proofs.Tree.Routes

/-!
# Exchanging siblings

Two siblings trade places by their text. Where no character comes to stand beside another that it
reads as one token with, each of the pieces that trade places is read as before, so the move is
made, the two nodes are exchanged in the tree, and nothing else changes but positions. The pieces
then stand in the same list in another order, which is why the way back is made as well.
-/

namespace FormEdit

open Rose Buffer Branch Lexer FormEdit.Language FormEdit.Tree

namespace Language

variable {position : Nat} {chars : List Char} {frames : List (Frame Tag)} {span : Span}
  {cs : List Form}

/-- A list is enclosed by the text around its place. -/
theorem Parses.enclosed_at {ahead inside behind : List Char}
    (parses : Parses position chars (plug frames (.node ⟨.list, span⟩ cs)))
    (text : chars = ahead ++ (parens inside ++ behind))
    (span_eq : span = Span.sized (position + ahead.length) (inside.length + 2)) :
    Enclosed position chars frames span cs ahead inside behind := by
  obtain ⟨ahead', inside', behind', enclosed⟩ := parses.enclosed
  have same := enclosed.text.symm.trans text
  have spans := enclosed.span_eq.symm.trans span_eq
  simp only [Span.sized, Span.mk.injEq] at spans
  have length_ahead : ahead'.length = ahead.length := by omega
  obtain ⟨rfl, rest⟩ := List.append_inj same length_ahead
  have length_inside : (parens inside').length = (parens inside).length := by
    simp only [length_parens]
    omega
  obtain ⟨list, rfl⟩ := List.append_inj rest length_inside
  obtain rfl : inside' = inside := by simpa [parens] using list
  exact enclosed

end Language

namespace Document

variable {d d' : Document} {b e l : Branch} {fs : List (Frame (Handle × Node))}
  {value : Handle × Node} {before after : List Branch}

/-- Pieces of which none ends with a character that reads as one token with the next. -/
theorem separate_of_apart {text ahead behind : List Char} {pieces : List (List Char)}
    (tame : ∀ piece ∈ pieces, Tame piece) (text_eq : text = ahead ++ (pieces.flatten ++ behind))
    (apart : ∀ count, count + 1 < pieces.length →
      Apart text (ahead ++ (pieces.take (count + 1)).flatten).length) : Separate pieces := by
  induction pieces generalizing ahead with
  | nil => trivial
  | cons piece rest ih =>
    constructor
    · apply ends_of_apart (tame piece List.mem_cons_self)
      cases rest with
      | nil =>
        intro x y _ head
        cases head
      | cons second rest =>
        have edge := apart 0 (by simp)
        have split : text = (ahead ++ piece) ++ ((second :: rest).flatten ++ behind) := by
          rw [text_eq, List.flatten_cons]
          simp only [List.append_assoc]
        simp only [List.take_succ_cons, List.take_zero, List.flatten_cons, List.flatten_nil,
          List.append_nil] at edge
        rw [split] at edge
        exact edge.parted.shrink
    · refine @ih (ahead ++ piece) (fun part mem => tame part (List.mem_cons_of_mem _ mem)) ?_ ?_
      · rw [text_eq, List.flatten_cons]
        simp only [List.append_assoc]
      · intro count bound
        have edge := apart (count + 1) (by simpa using bound)
        rwa [List.take_succ_cons, List.flatten_cons, ← List.append_assoc] at edge

/-- Where two stretches of a text trade places, none of their edges comes to stand inside of what
reads as one token. -/
def StaysApart (text : List Char) (earlier later : Span) : Prop :=
  ∀ edge ∈ [earlier.start, earlier.start + later.length, later.stop - earlier.length, later.stop],
    Apart (exchangedText text earlier later) edge

instance (text : List Char) (position : Nat) : Decidable (Apart text position) :=
  decidable_of_iff (0 < position → (text[position - 1]?.all fun x => text[position]?.all fun y =>
      !(inAtom x && inAtom y)) = true) (by
    simp only [Option.all_eq_true, Bool.not_eq_true', Apart]
    exact ⟨fun apart x y inner before behind => apart inner x before y behind,
      fun apart inner x before y behind => apart x y inner before behind⟩)

instance (text : List Char) (earlier later : Span) : Decidable (StaysApart text earlier later) :=
  inferInstanceAs (Decidable (∀ edge ∈ _, Apart _ edge))

variable {frames : List (Frame Tag)} {span earlier later : Span} {cs : List Form}
  {ahead pre first gap second post behind : List Char}

theorem Pair.separate_traded
    (pair : Pair d frames span cs earlier later ahead pre first gap second post behind)
    (apart : StaysApart d.text.current earlier later) :
    Separate [pre, second, gap, first, post] := by
  have tame : ∀ piece ∈ [pre, second, gap, first, post], Tame piece := by
    intro piece mem
    apply pair.separate.tame
    simp only [List.mem_cons, List.not_mem_nil, or_false] at mem ⊢
    tauto
  have text_eq : exchangedText d.text.current earlier later =
      (ahead ++ ['(']) ++ ([pre, second, gap, first, post].flatten ++ ')' :: behind) := by
    rw [pair.text_eq]
    simp [parens]
  refine separate_of_apart tame text_eq fun count bound => apart _ ?_
  rw [pair.span_first, pair.span_second]
  have few : count = 0 ∨ count = 1 ∨ count = 2 ∨ count = 3 := by
    simp only [List.length_cons, List.length_nil] at bound
    omega
  simp only [List.mem_cons, List.not_mem_nil, or_false, Span.sized, Span.length]
  rcases few with rfl | rfl | rfl | rfl <;>
    simp only [List.take_succ_cons, List.take_zero, List.flatten_cons, List.flatten_nil,
      List.length_append, List.length_cons, List.length_nil] <;> omega

/-- The pieces are read as before, each in its new place. -/
theorem Pair.parses_traded
    (pair : Pair d (tags fs) value.2.span ((before ++ e :: l :: after).map Branch.form)
      e.value.2.span l.value.2.span ahead pre first gap second post behind)
    (separate : Separate [pre, second, gap, first, post]) :
    Parses ahead.length (parens [pre, second, gap, first, post].flatten)
      (.node ⟨.list, value.2.span⟩ (before.map Branch.form ++
        Form.moved (-(first ++ gap).length) (Branch.form l) ::
          Form.moved (second ++ gap).length (Branch.form e) :: after.map Branch.form)) := by
  obtain ⟨items, items_eq, derives⟩ := pair.enclosed.items
  have ordered := ordered_of_tokensAt items_eq
  rw [Nat.zero_add] at items_eq
  rw [List.map_append, List.map_cons, List.map_cons] at derives
  obtain ⟨items', items_eq', derives'⟩ :=
    Reader.exchange_derives pair.separate separate items_eq derives
      ordered.order (by rw [span_form, pair.span_first]) (by rw [span_form, pair.span_second])
  have list := parses_parens pair.tame items_eq' derives'
  have span_eq : value.2.span =
      Span.sized ahead.length ([pre, second, gap, first, post].flatten.length + 2) := by
    rw [pair.enclosed.span_eq]
    simp only [List.flatten_cons, List.flatten_nil, List.length_append, List.length_nil,
      Nat.zero_add]
    congr 1
    omega
  rwa [← span_eq] at list

/-- The children of a branch that stands for a form. -/
theorem exists_neighbours {c : Branch} {tag : Tag} {xs ys : List Form} {f g : Form}
    (form : Branch.form c = .node tag (xs ++ f :: g :: ys)) :
    ∃ value before s t after, c = .node value (before ++ s :: t :: after) ∧ value.2.tag = tag ∧
      before.map Branch.form = xs ∧ Branch.form s = f ∧ Branch.form t = g ∧
      after.map Branch.form = ys := by
  obtain ⟨value, children⟩ := c
  rw [form_node, Rose.node.injEq] at form
  obtain ⟨tag_eq, children_eq⟩ := form
  obtain ⟨before, rest, rfl, before_eq, rest_eq⟩ := List.map_eq_append_iff.mp children_eq
  obtain ⟨s, rest, rfl, s_eq, rest_eq⟩ := List.map_eq_cons_iff.mp rest_eq
  obtain ⟨t, after, rfl, t_eq, after_eq⟩ := List.map_eq_cons_iff.mp rest_eq
  exact ⟨value, before, s, t, after, rfl, tag_eq, before_eq, s_eq, t_eq, after_eq⟩

/-- Two siblings are exchanged, and then stand in the pieces of the text in the other order. -/
theorem Pair.traded
    (resting : Resting d (plug fs (.node value (before ++ e :: l :: after))))
    (fits : d.text.currentLength < positionLimit)
    (pair : Pair d (tags fs) value.2.span ((before ++ e :: l :: after).map Branch.form)
      e.value.2.span l.value.2.span ahead pre first gap second post behind)
    (separate : Separate [pre, second, gap, first, post]) :
    ∃ root d' fs' value' before' s t after',
      d.exchange parenthesised (handle e) (handle l) = .ok (some root, d') ∧
      Resting d' (plug fs' (.node value' (before' ++ s :: t :: after'))) ∧
      Pair d' (tags fs') value'.2.span ((before' ++ s :: t :: after').map Branch.form)
        s.value.2.span t.value.2.span ahead pre second gap first post behind ∧
      tags fs' = tags fs ∧ before'.map Branch.form = before.map Branch.form ∧
      Branch.form s = Form.moved (-(first ++ gap).length) (Branch.form l) ∧
      Branch.form t = Form.moved (second ++ gap).length (Branch.form e) ∧
      after'.map Branch.form = after.map Branch.form := by
  have list := pair.parses_traded separate
  rcases pair.exchange resting fits with
    ⟨g, root, d', fs', c, parses, ran, current_eq, -, resting', tags_eq, form⟩ | ⟨none, -⟩
  · obtain rfl := parses.unique list
    obtain ⟨value', before', s, t, after', rfl, tag_eq, before_eq, s_eq, t_eq, after_eq⟩ :=
      exists_neighbours form
    refine ⟨root, d', fs', value', before', s, t, after', ran, resting', ?_, tags_eq, before_eq,
      s_eq, t_eq, after_eq⟩
    have span_eq : value'.2.span = value.2.span := congrArg Tag.span tag_eq
    have span_s : s.value.2.span = l.value.2.span.moved (-(first ++ gap).length) := by
      rw [← span_form, s_eq, Form.moved, Form.span, value_map]
      simp [← span_form, Form.span]
    have span_t : t.value.2.span = e.value.2.span.moved (second ++ gap).length := by
      rw [← span_form, t_eq, Form.moved, Form.span, value_map]
      simp [← span_form, Form.span]
    have parses' := resting'.parses
    rw [form_plug, form_node, resting'.is_list] at parses'
    constructor
    · refine parses'.enclosed_at (current_eq.trans pair.text_eq) ?_
      rw [span_eq, pair.enclosed.span_eq]
      simp only [List.flatten_cons, List.flatten_nil, List.length_append, List.length_nil]
      congr 1
      omega
    · exact separate
    · rw [span_s, pair.span_second]
      ext <;> simp only [Span.moved, Span.sized, List.length_append] <;> omega
    · rw [span_t, pair.span_first]
      ext <;> simp only [Span.moved, Span.sized, List.length_append] <;> omega
  · exact absurd list (none _)

/-- The tree with the two exchanged: its kinds are in the same places but for theirs. -/
theorem shape_traded {fs' : List (Frame (Handle × Node))} {value' : Handle × Node}
    {before' after' : List Branch} {s t : Branch} {x y : Int} (tags_eq : tags fs' = tags fs)
    (kind_eq : value'.2.kind = value.2.kind)
    (before_eq : before'.map Branch.form = before.map Branch.form)
    (s_eq : Branch.form s = Form.moved x (Branch.form l))
    (t_eq : Branch.form t = Form.moved y (Branch.form e))
    (after_eq : after'.map Branch.form = after.map Branch.form) :
    (Branch.form (plug fs' (.node value' (before' ++ s :: t :: after')))).shape =
      tradeUnder before.length (routeOf fs)
        (Branch.form (plug fs (.node value (before ++ e :: l :: after)))).shape := by
  have route_eq : routeOf ((tags fs).map (Frame.map Tag.kind)) = routeOf fs := by
    rw [routeOf_map, tags, routeOf_map]
  have count : ((before.map Branch.form).map (Rose.map Tag.kind)).length = before.length := by simp
  have shape_s : (Form.moved x (Branch.form l)).map Tag.kind = (Branch.form l).map Tag.kind :=
    Form.shape_moved x _
  have shape_t : (Form.moved y (Branch.form e)).map Tag.kind = (Branch.form e).map Tag.kind :=
    Form.shape_moved y _
  simp only [form_plug, form_node, Form.shape, map_plug, map_node, List.map_append, List.map_cons,
    tags_eq, kind_eq, before_eq, s_eq, t_eq, after_eq, shape_s, shape_t]
  rw [← route_eq, ← count, tradeUnder_plug]

theorem routes_eq {fs' : List (Frame (Handle × Node))} (tags_eq : tags fs' = tags fs) :
    routeOf fs' = routeOf fs := by
  have routes := congrArg routeOf tags_eq
  rwa [tags, tags, routeOf_map, routeOf_map] at routes

/-- The edit was made. -/
def Made (edited : Checked (Edited (Option Handle))) (d' : Document) : Prop :=
  ∃ root, edited = .ok (.ok (some root), d')

/-- Two neighbours are exchanged by moving either of them. -/
theorem made_of_exchange {root : Handle}
    (holds : Holds d.tree (plug fs (.node value (before ++ e :: l :: after))))
    (ran : d.exchange parenthesised (handle e) (handle l) = .ok (some root, d')) :
    Made (d.moveEarlier parenthesised (handle l)) d' ∧
      Made (d.moveLater parenthesised (handle e)) d' := by
  have at_e : Holds d.tree (plug (⟨value, before, l :: after⟩ :: fs) e) := holds
  have at_l : Holds d.tree (plug (⟨value, before ++ [e], after⟩ :: fs) l) := by
    simpa [Frame.fill] using holds
  have pair : d.exchangePair parenthesised (some (handle e, handle l)) =
      .ok (.ok (some root), d') := by
    rw [exchangePair, ran]
    rfl
  constructor
  · refine ⟨root, ?_⟩
    rw [moveEarlier, if_pos at_l.hole.contains, at_l.bears.siblingBefore_eq, ok_bind]
    simpa using pair
  · refine ⟨root, ?_⟩
    rw [moveLater, if_pos at_e.hole.contains, at_e.bears.siblingAfter_eq, ok_bind]
    simpa using pair

/-- In a document without pending changes that is in step with its text, a node moved past a sibling
trades places with it and with nothing else, as long as the two stay apart from what they come to
stand beside; and the move back restores the text and the tree. -/
theorem move_exchanges_two_siblings (d : Document) (linked : d.WellLinked)
    (settled : d.isSettled = true) (in_step : d.InStep)
    (short : d.text.currentLength < positionLimit) {earlier later : Handle}
    (siblings : d.tree.siblingBefore later = .ok (some earlier) ∨
      d.tree.siblingAfter earlier = .ok (some later))
    (apart : ∀ first second, d.tree.span earlier = .ok first → d.tree.span later = .ok second →
      StaysApart d.text.current first second) :
    ∃ above index d', d.tree.route earlier = .ok (above ++ [index]) ∧
      d.tree.route later = .ok (above ++ [index + 1]) ∧
      Made (d.moveEarlier parenthesised later) d' ∧ Made (d.moveLater parenthesised earlier) d' ∧
      (∃ f f', d.tree.form d.root = .ok f ∧ d'.tree.form d'.root = .ok f' ∧
        f'.shape = tradeUnder index above f.shape) ∧
      ∃ moved passed d'', d'.tree.atRoute (above ++ [index]) = .ok (some moved) ∧
        d'.tree.atRoute (above ++ [index + 1]) = .ok (some passed) ∧
        Made (d'.moveLater parenthesised moved) d'' ∧
        Made (d'.moveEarlier parenthesised passed) d'' ∧
        d''.text = d.text ∧ d''.tree.form d''.root = d.tree.form d.root := by
  obtain ⟨b, resting⟩ := exists_resting linked settled in_step short
  obtain ⟨fs, value, before, e, l, after, rfl, rfl, rfl⟩ := resting.holds.exists_siblings siblings
  obtain ⟨ahead, pre, first, gap, second, post, behind, pair⟩ := resting.exists_pair
  have at_e : Holds d.tree (plug (⟨value, before, l :: after⟩ :: fs) e) := resting.holds
  have at_l : Holds d.tree (plug (⟨value, before ++ [e], after⟩ :: fs) l) := by
    simpa [Frame.fill] using resting.holds
  have separate := pair.separate_traded (apart _ _ at_e.hole.span_eq at_l.hole.span_eq)
  obtain ⟨root, d', fs', value', before', s, t, after', ran, resting', pair', tags_eq, before_eq,
    s_eq, t_eq, after_eq⟩ := pair.traded resting short separate
  have short' : d'.text.currentLength < positionLimit := by
    have old := congrArg List.length pair.enclosed.text
    have new := congrArg List.length pair'.enclosed.text
    simp only [length_current, List.length_append, length_parens, List.flatten_cons,
      List.flatten_nil, List.length_nil] at old new
    omega
  obtain ⟨root', d'', fs'', value'', before'', _, _, _, ran', resting'', pair'', -⟩ :=
    pair'.traded resting' short' pair.separate
  have same_text : d''.text = d.text :=
    eq_of_kept resting''.kept resting.kept (pair''.enclosed.text.trans pair.enclosed.text.symm)
  have same_form := resting''.parses
  rw [same_text] at same_form
  have same_form := same_form.unique resting.parses
  have made := made_of_exchange resting.holds ran
  have made' := made_of_exchange resting'.holds ran'
  have at_s : Holds d'.tree (plug (⟨value', before', t :: after'⟩ :: fs') s) := resting'.holds
  have at_t : Holds d'.tree (plug (⟨value', before' ++ [s], after'⟩ :: fs') t) := by
    simpa [Frame.fill] using resting'.holds
  have route_e := at_e.bears.route
  have route_l := at_l.bears.route
  have route_s := at_s.bears.atRoute
  have route_t := at_t.bears.atRoute
  have count : before'.length = before.length := by
    simpa using congrArg List.length before_eq
  simp only [routeOf, List.length_append, List.length_cons, List.length_nil, routes_eq tags_eq,
    count] at route_e route_l route_s route_t
  refine ⟨routeOf fs, before.length, d', route_e, route_l, made.1, made.2, ?_, ?_⟩
  · refine ⟨_, _, resting.holds.form, resting'.holds.form, ?_⟩
    have kind_eq : value'.2.kind = value.2.kind := resting'.is_list.trans resting.is_list.symm
    exact shape_traded tags_eq kind_eq before_eq s_eq t_eq after_eq
  · refine ⟨handle s, handle t, d'', route_s, route_t, made'.2, made'.1, same_text, ?_⟩
    exact resting''.holds.form.trans ((congrArg Except.ok same_form).trans resting.holds.form.symm)

/-- The two children around the comment trade places and trade back. -/
theorem commentedPair_moves_there_and_back : commentedPair.WellLinked ∧
    commentedPair.isSettled = true ∧ commentedPair.InStep ∧
    (∃ d', Made (commentedPair.moveEarlier parenthesised ⟨2, 0⟩) d' ∧
      ∃ moved d'', d'.tree.atRoute [0] = .ok (some moved) ∧
        Made (d'.moveLater parenthesised moved) d'' ∧ d''.text = commentedPair.text) := by
  have settled : commentedPair.isSettled = true := by decide
  have short : commentedPair.text.currentLength < positionLimit := by decide
  have siblings : commentedPair.tree.siblingBefore ⟨2, 0⟩ = .ok (some ⟨1, 0⟩) := by decide +kernel
  have apart : ∀ first second, commentedPair.tree.span ⟨1, 0⟩ = .ok first →
      commentedPair.tree.span ⟨2, 0⟩ = .ok second →
      StaysApart commentedPair.text.current first second := by
    intro first second is_first is_second
    obtain rfl : Span.sized 1 1 = first := Except.ok.inj is_first
    obtain rfl : Span.sized 6 3 = second := Except.ok.inj is_second
    decide +kernel
  obtain ⟨above, index, d', route, -, made, -, -, moved, -, d'', found, -, back, -, text, -⟩ :=
    move_exchanges_two_siblings commentedPair commentedPair_linked settled
      commentedPair_inStep short (.inl siblings) apart
  have first_child : commentedPair.tree.route ⟨1, 0⟩ = .ok [0] := by decide +kernel
  rw [Except.ok.inj (route.symm.trans first_child)] at found
  exact ⟨commentedPair_linked, settled, commentedPair_inStep, d', made, moved, d'', found, back,
    text⟩

/-- The form `(a'b)`: nothing stands between the atom and the quote. -/
def closePairForm : Form :=
  .node ⟨.list, Span.sized 0 5⟩ [.leaf ⟨.atom "a", Span.sized 1 1⟩,
    .node ⟨.quote, Span.sized 2 2⟩ [.leaf ⟨.atom "b", Span.sized 3 1⟩]]

/-- The text `(a'b)` with its tree. -/
def closePair : Document where
  text := Buffer.ofText "(a\x27b)"
  tree := (Tree.ofForm closePairForm .fromOne).1
  ids := .counting 5
  widened := false

/-- What `closePair` turns into. -/
def fusedForm : Form :=
  .node ⟨.list, Span.sized 0 5⟩
    [.node ⟨.quote, Span.sized 1 3⟩ [.leaf ⟨.atom "ba", Span.sized 2 2⟩]]

/-- The move is made although the two atoms become one, and so the list is left with one child. -/
theorem closePair_loses_a_child : closePair.isSettled = true ∧ closePair.InStep ∧
    closePair.tree.siblingBefore ⟨2, 0⟩ = .ok (some ⟨1, 0⟩) ∧
    ∃ d', Made (closePair.moveEarlier parenthesised ⟨2, 0⟩) d' ∧
      d'.text.current = "(\x27ba)".toList ∧
      closePair.tree.form closePair.root = .ok closePairForm ∧
      d'.tree.form d'.root = .ok fusedForm ∧
      fusedForm.shape ≠ tradeUnder 0 [] closePairForm.shape := by
  have is_form : closePair.tree.form closePair.root = .ok closePairForm := by decide +kernel
  have in_step : closePair.InStep := ⟨closePairForm, by decide +kernel, is_form⟩
  have siblings : closePair.tree.siblingBefore ⟨2, 0⟩ = .ok (some ⟨1, 0⟩) := by decide +kernel
  have made : (closePair.moveEarlier parenthesised ⟨2, 0⟩).map
      (fun edited => (edited.1, edited.2.text.current, edited.2.tree.form edited.2.root)) =
      .ok (.ok (some ⟨4, 0⟩), "(\x27ba)".toList, .ok fusedForm) := by decide +kernel
  cases ran : closePair.moveEarlier parenthesised ⟨2, 0⟩ with
  | error fault =>
    rw [ran] at made
    cases made
  | ok edited =>
    obtain ⟨answer, d'⟩ := edited
    rw [ran] at made
    simp only [Except.map, Except.ok.injEq, Prod.mk.injEq] at made
    obtain ⟨rfl, text, form⟩ := made
    exact ⟨by decide, in_step, siblings, d', ⟨_, rfl⟩, text, is_form, form, by decide +kernel⟩

end Document

end FormEdit
