import FormEdit.Proofs.Document.Reaching
import FormEdit.Proofs.Grammar.Quiet

/-!
# Strokes in texts with comments

Comments around the root are no part of it, so a stroke beside the root is read together with only
some of them. Still, if the whole text reads as a form after a stroke, so does what the root takes
in of it (`takes_stroke`), and the stroke is not left pending: `readable_stroke_is_taken_in`. There
are two exceptions, and both do happen (`readable_strokes_left_pending`): a stroke inside of a
comment ahead of the root, and one that takes the end of the root away from a semicolon.
-/

namespace FormEdit.Document

open Rose Buffer Branch Weave Lexer FormEdit.Language FormEdit.Tree

variable {d : Document} {b : Branch} {fs : List (Rose.Frame (Handle × Node))} {position count : Nat}

/-! ## Reading again -/

/-- The current characters under a span. -/
def under (d : Document) (span : Span) : List Char :=
  (d.text.current.drop span.start).take span.length

theorem length_under {span : Span} (inside : span.stop ≤ d.text.currentLength) :
    (d.under span).length = span.length := by
  rw [under, List.length_take, List.length_drop, length_current, Span.length]
  omega

/-- A node is read again or not; the root is, if its text reads as a form. -/
theorem rereadNode_cases (holds : Holds d.tree (plug fs b))
    (inside : b.value.2.span.stop ≤ d.text.currentLength)
    (fits : d.text.currentLength + 1 < positionLimit) :
    (∃ f, d.rereadNode parenthesised (handle b) = .ok (some f)) ∨
      d.rereadNode parenthesised (handle b) = .ok none ∧
        (fs = [] → ∀ f, ¬Parses b.value.2.span.start (d.under b.value.2.span) f) := by
  obtain ⟨result, checked, at_root, -⟩ := isFused_spec holds inside fits
  have span : d.tree.span (handle b) = .ok b.value.2.span := holds.hole.span_eq
  have order := b.value.2.span.start_le_stop
  have short : b.value.2.span.start + (d.under b.value.2.span).length < positionLimit := by
    rw [length_under inside, Span.length]
    omega
  have read : d.readNode parenthesised (handle b) .current =
      parenthesised.readWhole (Placed.run b.value.2.span.start (d.under b.value.2.span)) := by
    simp only [readNode, span, mapError_ok, ok_bind]
    rw [slice_current _ (by omega)]
    rfl
  cases result with
  | true =>
    refine .inr ⟨by simp [rereadNode, checked], fun top => ?_⟩
    exact absurd (at_root top) (by simp)
  | false =>
    rcases readWhole_run short with ⟨f, -, ok⟩ | ⟨r, rejected⟩
    · exact .inl ⟨f, by simp [rereadNode, checked, read, ok]⟩
    · refine .inr ⟨by simp [rereadNode, checked, read, rejected], fun _ f parses => ?_⟩
      rw [(readWhole_eq_ok short).mpr parses] at rejected
      cases rejected

/-- Narrowing the root never ends in a fault: the tokens under it stand one behind the other. -/
theorem narrowRoot_returns (holds : Holds d.tree b)
    (inside : b.value.2.span.stop ≤ d.text.currentLength)
    (fits : d.text.currentLength < positionLimit) :
    ∃ d', d.narrowRoot parenthesised = .ok d' := by
  have span : d.tree.span d.root = .ok b.value.2.span := span_root holds
  have order := b.value.2.span.start_le_stop
  have short : b.value.2.span.start + (d.under b.value.2.span).length < positionLimit := by
    rw [length_under inside, Span.length]
    omega
  have slice : d.text.slice .current b.value.2.span =
      Placed.run b.value.2.span.start (d.under b.value.2.span) := slice_current _ (by omega)
  rcases split_run short with ⟨tokens, tokens_eq, split⟩ | ⟨-, r, rejected⟩
  · have ordered := ordered_of_tokensAt tokens_eq
    simp only [narrowRoot, span, ok_bind, slice, parenthesised, split]
    cases first : tokens.head? with
    | none => exact ⟨d, rfl⟩
    | some head =>
      cases final : tokens.getLast? with
      | none => exact ⟨d, rfl⟩
      | some last =>
        have in_order : head.span.start ≤ last.span.stop := by
          obtain ⟨more, rfl⟩ := List.head?_eq_some_iff.mp first
          rcases List.mem_cons.mp (List.mem_of_getLast? final) with rfl | mem
          · exact last.span.start_le_stop
          · have later := (List.pairwise_cons.mp ordered.order).1 last mem
            have := head.span.start_le_stop
            have := last.span.start_le_stop
            omega
        obtain ⟨⟨h, n⟩, cs⟩ := b
        have top : Holds d.tree (plug [] (.node (h, n) cs)) := holds
        obtain ⟨t', set, -⟩ := top.setSpan ⟨head.span.start, last.span.stop, in_order⟩
        have root_eq : d.root = h := holds.root.symm
        refine ⟨{ d with tree := t' }, ?_⟩
        simp only [Span.make_ok in_order, ok_bind, root_eq, set, pure_eq_ok]
  · refine ⟨d, ?_⟩
    simp only [narrowRoot, span, ok_bind, slice, parenthesised, rejected, pure_eq_ok]

theorem commitNode_returns (holds : Holds d.tree (plug fs b))
    (inside : fs ≠ [] → (plug fs b).value.2.span.stop ≤ d.text.currentLength)
    (fits : d.text.currentLength < positionLimit) (span : Span) :
    ∃ d', d.commitNode parenthesised (handle b) span = .ok d' := by
  cases fs with
  | nil => exact ⟨_, commitNode_root holds span⟩
  | cons g fs =>
    cases settled : d.widened && !(d.text.commit span).isChanged with
    | false => exact ⟨_, commitNode_inner holds span settled⟩
    | true =>
      have length_same : (d.text.commit span).currentLength = d.text.currentLength := by
        rw [← length_current, ← length_current, commit_current]
      have root_inside := inside (by simp)
      rw [← length_same] at root_inside fits
      obtain ⟨d', narrowed⟩ :=
        @narrowRoot_returns { d with text := d.text.commit span } _ holds root_inside fits
      refine ⟨{ d' with widened := false }, ?_⟩
      rw [commitNode_narrow holds span settled, narrowed]
      rfl

/-- A form that was read takes the place of its node. -/
theorem renewNode_returns (holds : Holds d.tree (plug fs b))
    (inside : (plug fs b).value.2.span.stop ≤ d.text.currentLength)
    (fits : d.text.currentLength < positionLimit) (f : Form) (span : Span) :
    ∃ root node d', (do
      let (new, d') ← d.putForm (handle b) f .current
      let d' ← d'.commitNode parenthesised new span
      pure (.reparsed d'.root new, d') : Checked (Outcome × Document)) =
        .ok (.reparsed root node, d') := by
  obtain ⟨tree, ids, fs', c, put, holds', tags_eq, -⟩ := putForm_current holds f
  have same_span := span_root_eq (b := b) (c := c) tags_eq
  obtain ⟨d', committed⟩ := @commitNode_returns { d with tree := tree, ids := ids } c fs' holds'
    (fun inner => by rw [same_span inner]; exact inside) fits span
  refine ⟨d'.root, handle c, d', ?_⟩
  rw [put, ok_bind]
  simp only [committed, ok_bind, pure_eq_ok]

/-- If the text under the root reads as a form, some node is read again. -/
theorem rereadFrom_of_parses {steps : Nat} {f : Form} (holds : Holds d.tree (plug fs b))
    (enough : fs.length < steps) (nested : (Branch.form (plug fs b)).Nested)
    (inside : (plug fs b).value.2.span.stop ≤ d.text.currentLength)
    (fits : d.text.currentLength + 1 < positionLimit)
    (parses : Parses (plug fs b).value.2.span.start (d.under (plug fs b).value.2.span) f) :
    ∃ root node d', rereadFrom parenthesised steps d (handle b) =
      .ok (.reparsed root node, d') := by
  induction steps generalizing fs b with
  | zero => omega
  | succ steps ih =>
    have span : d.tree.span (handle b) = .ok b.value.2.span := holds.hole.span_eq
    have within := hole_inside nested
    rcases rereadNode_cases holds (by omega) fits with ⟨g, found⟩ | ⟨none, fails⟩
    · obtain ⟨root, node, d', renewed⟩ :=
        renewNode_returns holds inside (Nat.lt_of_succ_lt fits) g b.value.2.span
      refine ⟨root, node, d', ?_⟩
      simp only [rereadFrom, span, ok_bind, found]
      exact renewed
    · cases fs with
      | nil => exact absurd parses (fails rfl f)
      | cons g fs =>
        rw [rereadFrom_climbs holds none]
        exact @ih (g.fill b) fs holds (by simpa using enough) nested inside parses

/-! ## What the root is read from -/

namespace Stroke

/-- The stroke does not fall into a comment ahead of the root, and does not take the end of the root
away from a semicolon right behind it. -/
structure Clear (text : List Char) (root : Span) (s : Stroke) : Prop where
  outside : s.place < root.start → Mode.free.after (text.take s.place) ≠ .comment
  apart : s = .delete (root.stop - 1) → text[root.stop]? ≠ some ';'

end Stroke

theorem exists_before {α : Type} {xs : List α} {n : Nat} (inside : n ≤ xs.length) :
    ∃ before behind, xs = before ++ behind ∧ before.length = n :=
  ⟨xs.take n, xs.drop n, (List.take_append_drop n xs).symm, List.length_take_of_le inside⟩

theorem exists_around {α : Type} {xs : List α} {n : Nat} (inside : n < xs.length) :
    ∃ before x behind, xs = before ++ x :: behind ∧ before.length = n :=
  ⟨xs.take n, xs[n], xs.drop (n + 1), by simp, List.length_take_of_le (Nat.le_of_lt inside)⟩

theorem typed_at (before behind : List Char) (c : Char) :
    typedText (before ++ behind) c before.length = before ++ c :: behind := by
  rw [typedText, List.take_left, List.drop_left]

theorem erase_at {α : Type} (before behind : List α) (x : α) :
    (before ++ x :: behind).eraseIdx before.length = before ++ behind := by
  rw [List.eraseIdx_append_of_length_le (Nat.le_refl _), Nat.sub_self, List.eraseIdx_cons_zero]

namespace Stroke

/-- A stroke puts characters in the place of others: one for none, or none for one. -/
structure Trades (s : Stroke) (text front gone new back : List Char) : Prop where
  text_eq : text = front ++ (gone ++ back)
  applied_eq : s.applied text = front ++ (new ++ back)
  place_eq : s.place = front.length
  taken_eq : s.taken = gone.length
  added_eq : s.added = new.length

theorem exists_trades {text : List Char} (s : Stroke) (within : s.Within text) :
    ∃ front gone new back, s.Trades text front gone new back := by
  cases s with
  | insert c position =>
    have inside : position ≤ text.length := within
    obtain ⟨front, back, rfl, rfl⟩ := exists_before inside
    exact ⟨front, [], [c], back, rfl, typed_at front back c, rfl, rfl, rfl⟩
  | delete position =>
    have inside : position < text.length := within
    obtain ⟨front, x, back, rfl, rfl⟩ := exists_around inside
    exact ⟨front, [x], [], back, rfl, erase_at front back x, rfl, rfl, rfl⟩

theorem Trades.reach_eq {s : Stroke} {text front gone new back : List Char} {root : Span}
    {start length start' length' : Nat} (trades : s.Trades text front gone new back)
    (root_eq : root = Span.sized start length) (start_eq : start' = min start front.length)
    (stop_eq : start' + length' + gone.length =
      max (start + length) (front.length + gone.length) + new.length) :
    s.reach root = Span.sized start' length' := by
  rw [root_eq]
  refine Stroke.reach_eq ?_ ?_
  · rwa [trades.place_eq]
  · rwa [trades.place_eq, trades.taken_eq, trades.added_eq]

end Stroke

/-- The part of a changed text that the root takes in reads as a form. -/
def Takes (root : Span) (text : List Char) (s : Stroke) : Prop :=
  ∃ before own behind g, s.applied text = before ++ (own ++ behind) ∧
    s.reach root = Span.sized before.length own.length ∧ Parses before.length own g

section

variable {text ahead own rest front gone new back : List Char} {f g : Form} {s : Stroke}
  (framed : Framed text f ahead own rest) (trades : s.Trades text front gone new back)

include framed trades

/-- A stroke ahead of the root is taken in with all that lies in between. -/
theorem takes_ahead {behind : List Char} (ahead_eq : ahead = front ++ gone ++ behind)
    (back_eq : back = behind ++ (own ++ rest)) (before : front.length < ahead.length)
    (clear : s.Clear text f.span) (parses : Parses 0 (s.applied text) g) : Takes f.span text s := by
  have applied : s.applied text = front ++ ((new ++ behind ++ own) ++ rest) := by
    rw [trades.applied_eq, back_eq]
    simp
  have outside := clear.outside (by rw [framed.span_eq, trades.place_eq]; exact before)
  rw [trades.place_eq, trades.text_eq, List.take_left] at outside
  rw [applied] at parses
  rw [List.append_assoc] at ahead_eq
  subst ahead_eq
  refine ⟨front, _, rest, g, applied, ?_, framed.changed_ahead outside parses⟩
  apply trades.reach_eq framed.span_eq <;> simp only [List.length_append] <;> omega

/-- A stroke in the root leaves what follows the root apart from it: if it takes the end of the root
away, there is no semicolon behind that. -/
theorem apart_inside {before behind : List Char} (front_eq : front = ahead ++ before)
    (own_eq : own = before ++ gone ++ behind) (inside : before.length < own.length)
    (clear : s.Clear text f.span) (ended : Mode.free.after (before ++ (new ++ behind)) = .atom) :
    NotInAtom rest := by
  rw [List.append_assoc] at own_eq
  cases behind with
  | cons y behind =>
    have last (middle : List Char) :
        (before ++ (middle ++ y :: behind)).getLast? = (y :: behind).getLast? := by
      rw [List.getLast?_append_of_ne_nil _ (by simp), List.getLast?_append_of_ne_nil _ (by simp)]
    refine framed.apart ?_ ended
    rw [own_eq, last, last]
  | nil =>
    have place := trades.place_eq
    have taken := trades.taken_eq
    rw [List.append_nil] at own_eq
    rw [own_eq, List.length_append] at inside
    rw [front_eq, List.length_append] at place
    cases s with
    | insert c position =>
      simp only [Stroke.taken] at taken
      omega
    | delete position =>
      simp only [Stroke.place, Stroke.taken] at place taken
      have stop : (Form.span f).stop = (ahead ++ own).length := by
        rw [framed.span_eq, List.length_append]
        rfl
      refine framed.quiet'.head fun comment => clear.apart ?_ ?_
      · rw [stop, own_eq, Stroke.delete.injEq, List.length_append, List.length_append]
        omega
      · rw [stop, framed.text, ← List.append_assoc, List.getElem?_append_right (Nat.le_refl _),
          Nat.sub_self, ← List.head?_eq_getElem?, comment]

theorem takes_inside {before behind : List Char} (front_eq : front = ahead ++ before)
    (own_eq : own = before ++ gone ++ behind) (back_eq : back = behind ++ rest)
    (inside : before.length < own.length) (clear : s.Clear text f.span)
    (parses : Parses 0 (s.applied text) g) : Takes f.span text s := by
  have applied : s.applied text = ahead ++ ((before ++ (new ++ behind)) ++ rest) := by
    rw [trades.applied_eq, front_eq, back_eq]
    simp
  have apart := apart_inside framed trades front_eq own_eq inside clear
  rw [applied] at parses
  refine ⟨ahead, _, rest, g, applied, ?_, framed.changed apart parses⟩
  apply trades.reach_eq framed.span_eq <;>
    simp only [front_eq, own_eq, List.length_append] at inside ⊢ <;> omega

/-- A stroke behind the root is taken in with all that lies in between. -/
theorem takes_behind {between : List Char} (front_eq : front = ahead ++ (own ++ between))
    (rest_eq : rest = between ++ (gone ++ back)) (parses : Parses 0 (s.applied text) g) :
    Takes f.span text s := by
  have applied : s.applied text = ahead ++ ((own ++ (between ++ new)) ++ back) := by
    rw [trades.applied_eq, front_eq]
    simp
  have reads : ∃ g, Parses ahead.length (own ++ (between ++ new)) g := by
    have taken := trades.taken_eq
    have added := trades.added_eq
    cases s with
    | insert c position =>
      obtain rfl := List.eq_nil_of_length_eq_zero taken.symm
      obtain ⟨x, rfl⟩ := List.length_eq_one_iff.mp added.symm
      rw [applied] at parses
      rw [rest_eq, List.nil_append] at framed
      exact framed.typed_behind (by simpa using parses)
    | delete position =>
      obtain rfl := List.eq_nil_of_length_eq_zero added.symm
      rw [rest_eq] at framed
      rw [List.append_nil]
      exact ⟨f, framed.reads_on framed.ends.left framed.quiet'.left.1⟩
  obtain ⟨g, reads⟩ := reads
  refine ⟨ahead, _, back, g, applied, ?_, reads⟩
  apply trades.reach_eq framed.span_eq <;> simp only [front_eq, List.length_append] <;> omega

end

/-- Wherever a stroke falls, what the root takes in reads as a form if the whole text does. -/
theorem takes_stroke {text : List Char} {f g : Form} (parses : Parses 0 text f)
    (s : Stroke) (within : s.Within text) (clear : s.Clear text f.span)
    (parses' : Parses 0 (s.applied text) g) : Takes f.span text s := by
  obtain ⟨ahead, own, rest, framed⟩ := parses.framed
  obtain ⟨front, gone, new, back, trades⟩ := s.exists_trades within
  have single : gone.length ≤ 1 := by
    rw [← trades.taken_eq]
    cases s <;> simp [Stroke.taken]
  have parted : front ++ (gone ++ back) = ahead ++ (own ++ rest) :=
    trades.text_eq.symm.trans framed.text
  by_cases before : front.length < ahead.length
  · have shorter : (front ++ gone).length ≤ ahead.length := by
      rw [List.length_append]
      omega
    obtain ⟨behind, ahead_eq, back_eq⟩ :=
      append_parted (by rw [List.append_assoc]; exact parted) shorter
    exact takes_ahead framed trades ahead_eq back_eq before clear parses'
  · obtain ⟨between, front_eq, own_rest⟩ := append_parted parted.symm (Nat.le_of_not_lt before)
    by_cases inside : between.length < own.length
    · have shorter : (between ++ gone).length ≤ own.length := by
        rw [List.length_append]
        omega
      obtain ⟨behind, own_eq, back_eq⟩ :=
        append_parted (by rw [List.append_assoc]; exact own_rest.symm) shorter
      exact takes_inside framed trades front_eq own_eq back_eq inside clear parses'
    · obtain ⟨between, rfl, rest_eq⟩ := append_parted own_rest (Nat.le_of_not_lt inside)
      exact takes_behind framed trades front_eq rest_eq parses'

theorem length_applied_le (text : List Char) (s : Stroke) :
    (s.applied text).length ≤ text.length + 1 := by
  cases s with
  | insert c position => exact Nat.le_of_eq (length_typedText text c position)
  | delete position => exact Nat.le_succ_of_le (List.length_eraseIdx_le text position)

/-- From a document that is in step with its text, comments and all, a stroke after which the text
reads as a form has a node read again: it is never left pending. The stroke is one that does not
fall into a comment ahead of the root, nor takes the end of the root away from a semicolon right
behind it. -/
theorem readable_stroke_is_taken_in (d : Document) (linked : d.WellLinked) (in_step : d.InStep)
    (short : d.text.currentLength + 2 < positionLimit) (s : Stroke)
    (within : s.Within d.text.current)
    (clear : ∀ root, d.tree.span d.root = .ok root → s.Clear d.text.current root)
    (readable : ∃ f, freshForm (s.applied d.text.current) = .ok f) :
    ∃ root node d', s.run d = .ok (.ok (.reparsed root node), d') := by
  obtain ⟨b, holds⟩ := linked
  obtain ⟨g, fresh⟩ := readable
  have length_eq := length_current d.text
  have length_le := length_applied_le d.text.current s
  have parses := in_step.parses holds (by omega)
  have parses' := (freshForm_eq_ok (by omega)).mp fresh
  have span : d.tree.span d.root = .ok b.value.2.span := by
    rw [root, ← holds.root]
    exact holds.linked.span_eq
  have clear_root := clear _ span
  rw [← span_form] at clear_root
  obtain ⟨before, own, behind, g, applied_eq, reach_eq, own_parses⟩ :=
    takes_stroke parses s within clear_root parses'
  have inside := (parses.inside (value_mem_preorder _)).2
  rw [Nat.zero_add, length_eq, ← Form.span, span_form] at inside
  obtain ⟨d₁, fs, n, ran, reaches⟩ := s.run_eq holds parses.nested inside short within
  rw [span_form, ← reaches.span_eq] at reach_eq
  rw [← reaches.current] at applied_eq length_le
  rw [length_current] at length_le
  have under_eq : d₁.under (plug fs n).value.2.span = own := by
    rw [under, applied_eq, reach_eq, Span.length, Span.sized, List.drop_left]
    simp
  have root_inside : (plug fs n).value.2.span.stop ≤ d₁.text.currentLength := by
    rw [reach_eq, ← length_current, applied_eq, Span.sized]
    simp
  have root_parses :
      Parses (plug fs n).value.2.span.start (d₁.under (plug fs n).value.2.span) g := by
    rw [under_eq, reach_eq]
    exact own_parses
  obtain ⟨root, node, d', reread_eq⟩ := rereadFrom_of_parses reaches.holds
    reaches.holds.depth_lt reaches.nested root_inside (by omega) root_parses
  refine ⟨root, node, d', ?_⟩
  rw [ran, reread, reread_eq]
  rfl

/-- The document of a text that reads as a form. -/
def opened (text : String) (f : Form) : Document :=
  ⟨Buffer.ofText text, (Tree.ofForm f .fromOne).1, (Tree.ofForm f .fromOne).2, false⟩

theorem opened_linked (text : String) (f : Form) : (opened text f).WellLinked := by
  obtain ⟨b, holds, -⟩ := Tree.ofForm_holds f .fromOne
  exact ⟨b, holds⟩

/-- A comment, `(a)` on the next line, and another comment right behind it. -/
def commentedList : Document :=
  opened ";x\n(a);y" (.node ⟨.list, Span.sized 3 3⟩ [.leaf ⟨.atom "a", Span.sized 4 1⟩])

theorem commentedList_inStep : commentedList.InStep := by
  refine ⟨.node ⟨.list, Span.sized 3 3⟩ [.leaf ⟨.atom "a", Span.sized 4 1⟩], ?_, ?_⟩
  · decide +kernel
  · decide +kernel

theorem commentedList_clear : ∀ root, commentedList.tree.span commentedList.root = .ok root →
    (Stroke.insert '\x27' 0).Clear commentedList.text.current root := by
  intro root span
  have span_eq : commentedList.tree.span commentedList.root = .ok (Span.sized 3 3) := by
    decide +kernel
  rw [span_eq, Except.ok.injEq] at span
  subst span
  exact ⟨fun _ => by decide, nofun⟩

/-- A quote typed ahead of the first comment takes the list on the next line. -/
theorem commentedList_is_quoted : commentedList.WellLinked ∧ commentedList.isSettled = true ∧
    commentedList.InStep ∧ (Stroke.insert '\x27' 0).Within commentedList.text.current ∧
    (∃ f, freshForm "\x27;x\n(a);y".toList = .ok f) ∧
    ∃ root node d', (Stroke.insert '\x27' 0).run commentedList =
      .ok (.ok (.reparsed root node), d') := by
  have within : (Stroke.insert '\x27' 0).Within commentedList.text.current := Nat.zero_le _
  have readable : ∃ f, freshForm "\x27;x\n(a);y".toList = .ok f :=
    ⟨.node ⟨.quote, Span.sized 0 7⟩
      [.node ⟨.list, Span.sized 4 3⟩ [.leaf ⟨.atom "a", Span.sized 5 1⟩]], by decide +kernel⟩
  exact ⟨opened_linked _ _, by decide, commentedList_inStep, within, readable,
    readable_stroke_is_taken_in commentedList (opened_linked _ _) commentedList_inStep (by decide)
      (.insert '\x27' 0) within commentedList_clear readable⟩

/-- A stroke that is left pending although the text reads as a form, before it and after it. -/
structure LeftPending (text : String) (s : Stroke) (d : Document) : Prop where
  read : ofText parenthesised text .fromOne = .ok d
  settled : d.isSettled = true
  in_step : d.InStep
  readable : ∃ f, freshForm (s.applied d.text.current) = .ok f
  pending : ∃ root d', s.run d = .ok (.ok (.pending root), d')

/-- Neither condition can be left out. Without its end the list `(a)` goes on with the semicolon
behind it, which the root is read without; and what is left of a comment ahead of the root is no
comment any more when the root takes it in. -/
theorem readable_strokes_left_pending :
    (∃ d, LeftPending "(a);)" (.delete 2) d) ∧ ∃ d, LeftPending ";a)\na" (.delete 1) d := by
  constructor
  · let f : Form := .node ⟨.list, Span.sized 0 3⟩ [.leaf ⟨.atom "a", Span.sized 1 1⟩]
    have ran : ((Stroke.delete 2).run (opened "(a);)" f)).map Prod.fst =
        .ok (.ok (.pending ⟨0, 0⟩)) := by
      decide +kernel
    obtain ⟨⟨answer, d'⟩, ran, rfl⟩ := map_eq_ok.mp ran
    refine ⟨opened "(a);)" f, by decide +kernel, by decide, ⟨f, ?_, ?_⟩,
      ⟨.node ⟨.list, Span.sized 0 4⟩ [.leaf ⟨.atom "a;", Span.sized 1 2⟩], ?_⟩, ⟨0, 0⟩, d', ran⟩
    all_goals decide +kernel
  · let f : Form := .leaf ⟨.atom "a", Span.sized 4 1⟩
    have ran : ((Stroke.delete 1).run (opened ";a)\na" f)).map Prod.fst =
        .ok (.ok (.pending ⟨0, 0⟩)) := by
      decide +kernel
    obtain ⟨⟨answer, d'⟩, ran, rfl⟩ := map_eq_ok.mp ran
    refine ⟨opened ";a)\na" f, by decide +kernel, by decide, ⟨f, ?_, ?_⟩,
      ⟨.leaf ⟨.atom "a", Span.sized 3 1⟩, ?_⟩, ⟨0, 0⟩, d', ran⟩
    all_goals decide +kernel

end FormEdit.Document
