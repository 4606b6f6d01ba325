import FormEdit.Proofs.Weave.Reading

/-!
# What a weave spells

The characters of a good weave in which all cells are kept read as its form, with any blanks around
them. Together with `weaves_of_derives` this makes weaves a complete account of reading:
`weave_of_reads` and `reads_of_weave`.
-/

namespace FormEdit.Weave

open Buffer Lexer Reader FormEdit.Language

variable {kind : Kind} {parts : List Weave} {w : Weave}

/-! ## The parts of a good node -/

theorem Kept.cell_eq {c : Cell} (kept : Kept [.cell c]) : Weave.cell c = keep c.char := by
  have status := kept c (by simp)
  obtain ⟨char, s⟩ := c
  simp only at status
  subst status
  rfl

theorem run_closed {ws : List Weave} {t : Stage} (kept : Kept ws)
    (ran : run false kind .closed ws = some t) : ws = [] := by
  cases ws with
  | nil => rfl
  | cons w ws =>
    obtain ⟨m, stepped, -⟩ := run_cons_eq_some.mp ran
    cases w with
    | cell c =>
      rw [(kept_cons.mp kept).1.cell_eq, step_keep] at stepped
      cases kind <;> simp [stepKept] at stepped
    | node k ps => cases kind <;> cases stepped

/-- A node begins with its mark, or with a character of its atom. -/
theorem step_begins {m : Stage} (kept : Kept [w]) (stepped : step false kind .start w = some m) :
    (kind = .list ∧ w = keep '(' ∧ m = .inside .free) ∨
      (kind = .quote ∧ w = keep '\x27' ∧ m = .quoted) ∨
      ∃ content c, kind = .atom content ∧ w = keep c ∧ inAtom c = true ∧ m = .atom [c] := by
  cases w with
  | node k ps => cases kind <;> cases stepped
  | cell c =>
    rw [kept.cell_eq, step_keep] at stepped
    rw [kept.cell_eq]
    cases kind with
    | list =>
      obtain ⟨opening, rfl⟩ : c.char = '(' ∧ .inside .free = m := by simpa [stepKept] using stepped
      exact .inl ⟨rfl, by rw [opening], rfl⟩
    | quote =>
      obtain ⟨mark, rfl⟩ : c.char = '\x27' ∧ .quoted = m := by simpa [stepKept] using stepped
      exact .inr (.inl ⟨rfl, by rw [mark], rfl⟩)
    | atom content =>
      obtain ⟨inside, rfl⟩ : inAtom c.char = true ∧ .atom [c.char] = m := by
        simpa [stepKept] using stepped
      exact .inr (.inr ⟨content, c.char, rfl, rfl, inside, rfl⟩)

/-- Inside of a list stand blanks and the nodes that may stand behind what is ahead of them, until
it is closed. -/
theorem step_inside {gap : Gap} {m : Stage} (kept : Kept [w])
    (stepped : step false .list (.inside gap) w = some m) :
    (w = keep ')' ∧ m = .closed) ∨ (∃ c, w = keep c ∧ Text.isBlank c = true ∧ m = .inside .free) ∨
      ∃ k ps, w = .node k ps ∧ gap.admits w.front = true ∧ m = .inside w.gapAfter := by
  cases w with
  | cell c =>
    rw [kept.cell_eq, step_keep, stepKept] at stepped
    rw [kept.cell_eq]
    split at stepped
    next closing =>
      cases stepped
      exact .inl ⟨by rw [closing], rfl⟩
    next =>
      obtain ⟨blank, rfl⟩ : Text.isBlank c.char = true ∧ .inside .free = m := by simpa using stepped
      exact .inr (.inl ⟨c.char, rfl, blank, rfl⟩)
  | node k ps =>
    rcases step_node_eq_some.mp stepped with ⟨gap', -, here, admitted, rfl⟩ | ⟨quote, -⟩
    · cases here
      exact .inr (.inr ⟨k, ps, rfl, admitted, rfl⟩)
    · cases quote

/-- A list that is closed ends with its parenthesis. -/
theorem run_inside {gap : Gap} (kept : Kept parts)
    (ran : run false .list (.inside gap) parts = some .closed) :
    ∃ middle gap', parts = middle ++ [keep ')'] ∧
      run false .list (.inside gap) middle = some (.inside gap') := by
  induction parts generalizing gap with
  | nil => cases ran
  | cons w ws ih =>
    obtain ⟨m, stepped, ran⟩ := run_cons_eq_some.mp ran
    obtain ⟨kept_w, kept_ws⟩ := kept_cons.mp kept
    have more (gap' : Gap) (here : m = .inside gap') :
        ∃ middle gap', w :: ws = middle ++ [keep ')'] ∧
        run false .list (.inside gap) middle = some (.inside gap') := by
      subst here
      obtain ⟨middle, gap'', rfl, inner⟩ := ih kept_ws ran
      exact ⟨w :: middle, gap'', rfl, run_cons_eq_some.mpr ⟨_, stepped, inner⟩⟩
    rcases step_inside kept_w stepped with ⟨rfl, rfl⟩ | ⟨c, -, -, here⟩ | ⟨k, ps, -, -, here⟩
    · rw [run_closed kept_ws ran]
      exact ⟨[], gap, rfl, rfl⟩
    · exact more .free here
    · exact more _ here

/-- A quote ends with the one node it stands before. -/
theorem run_quoted_inv (kept : Kept parts) (ran : run false .quote .quoted parts = some .closed) :
    ∃ (bs : List Char) (k : Kind) (ps : List Weave), parts = bs.map keep ++ [.node k ps] ∧
      (∀ c ∈ bs, Text.isBlank c = true) ∧ endsSolid (.node k ps) = true := by
  induction parts with
  | nil => cases ran
  | cons w ws ih =>
    obtain ⟨m, stepped, ran⟩ := run_cons_eq_some.mp ran
    obtain ⟨kept_w, kept_ws⟩ := kept_cons.mp kept
    cases w with
    | cell c =>
      rw [kept_w.cell_eq] at stepped ⊢
      simp only [step_keep, stepKept] at stepped
      split at stepped
      next blank =>
        cases stepped
        obtain ⟨bs, k, ps, rfl, blanks, solid⟩ := ih kept_ws ran
        exact ⟨c.char :: bs, k, ps, rfl, List.forall_mem_cons.mpr ⟨blank, blanks⟩, solid⟩
      next => cases stepped
    | node k ps =>
      rcases step_node_eq_some.mp stepped with ⟨gap, list, -⟩ | ⟨-, -, solid, rfl⟩
      · cases list
      · rw [run_closed kept_ws ran]
        exact ⟨[], k, ps, rfl, by simp, solid⟩

theorem run_atom_inv {content : String} {sofar : List Char} {t : Stage} (kept : Kept parts)
    (ran : run false (.atom content) (.atom sofar) parts = some t) :
    ∃ cs : List Char, parts = cs.map keep ∧ (∀ c ∈ cs, inAtom c = true) ∧
      t = .atom (sofar ++ cs) := by
  induction parts generalizing sofar with
  | nil =>
    cases ran
    exact ⟨[], rfl, by simp, by simp⟩
  | cons w ws ih =>
    obtain ⟨m, stepped, ran⟩ := run_cons_eq_some.mp ran
    obtain ⟨kept_w, kept_ws⟩ := kept_cons.mp kept
    cases w with
    | cell c =>
      rw [kept_w.cell_eq] at stepped ⊢
      simp only [step_keep, stepKept] at stepped
      split at stepped
      next inside =>
        cases stepped
        obtain ⟨cs, rfl, all, rfl⟩ := ih kept_ws ran
        exact ⟨c.char :: cs, rfl, List.forall_mem_cons.mpr ⟨inside, all⟩, by simp⟩
      next => simp at stepped
    | node k ps => cases stepped

/-- What the parts of a node are if all of its cells are kept. -/
inductive Spelled : Kind → List Weave → Prop
  | list {middle : List Weave} {gap : Gap}
      (ran : run false .list (.inside .free) middle = some (.inside gap)) :
      Spelled .list (keep '(' :: (middle ++ [keep ')']))
  | quote {bs : List Char} {k : Kind} {ps : List Weave} (blank : ∀ c ∈ bs, Text.isBlank c = true)
      (solid : endsSolid (.node k ps) = true) :
      Spelled .quote (keep '\x27' :: (bs.map keep ++ [.node k ps]))
  | atom {cs : List Char} (nonempty : cs ≠ []) (all : ∀ c ∈ cs, inAtom c = true) :
      Spelled (.atom (String.ofList cs)) (cs.map keep)

theorem Shape.spelled (kept : Kept parts) (shape : Shape false kind parts) :
    Spelled kind parts := by
  obtain ⟨t, ran, complete⟩ := shape
  cases parts with
  | nil =>
    cases ran
    cases kind <;> cases complete
  | cons w ws =>
    obtain ⟨m, stepped, ran⟩ := run_cons_eq_some.mp ran
    obtain ⟨kept_w, kept_ws⟩ := kept_cons.mp kept
    rcases step_begins kept_w stepped with
      ⟨rfl, rfl, rfl⟩ | ⟨rfl, rfl, rfl⟩ | ⟨content, c, rfl, rfl, inside, rfl⟩
    · have closed : t = .closed := by
        cases t <;> first | rfl | cases complete
      subst closed
      obtain ⟨middle, gap, rfl, inner⟩ := run_inside kept_ws ran
      exact .list inner
    · have closed : t = .closed := by
        cases t <;> first | rfl | cases complete
      subst closed
      obtain ⟨bs, k, ps, rfl, blank, solid⟩ := run_quoted_inv kept_ws ran
      exact .quote blank solid
    · obtain ⟨cs, rfl, all, rfl⟩ := run_atom_inv kept_ws ran
      have content_eq : content = String.ofList (c :: cs) := by
        simpa [Stage.complete] using complete
      rw [content_eq]
      exact @Spelled.atom (c :: cs) (by simp) (List.forall_mem_cons.mpr ⟨inside, all⟩)

/-- Where all cells are kept, a good node has its shape. -/
theorem Good.shape {loose : Bool} (good : Good loose (.node kind parts)) (kept : Kept parts) :
    Shape loose kind parts ∧ ∀ v ∈ parts, Good false v := by
  cases good with
  | changed lost =>
    have status := kept.mem lost _ (List.mem_singleton_self _)
    cases status
  | shaped shape each => exact ⟨shape, each⟩

theorem getLast_of_endsSolid (solid : endsSolid w = true) :
    ∃ last, w.cells.getLast? = some ⟨last, .kept⟩ ∧ Text.isBlank last = false := by
  unfold endsSolid at solid
  split at solid
  next c found => exact ⟨c, found, by simpa using solid⟩
  next => cases solid

theorem Spelled.ends (spelled : Spelled kind parts) :
    ∃ first last, Ends (.node kind parts) first last := by
  cases spelled with
  | @list middle gap ran =>
    refine ⟨'(', ')', ends_of_parts rfl ?_ (by decide)⟩
    simp [keep, List.getLast?_append, List.getLast?_cons]
  | @quote bs k ps blank solid =>
    obtain ⟨last, found, not_blank⟩ := getLast_of_endsSolid solid
    refine ⟨'\x27', last, ends_of_parts rfl ?_ not_blank⟩
    simp only [stored_cons, stored_append, stored_nil, List.append_nil, List.getLast?_append, found,
      Option.some_or]
  | @atom cs nonempty all =>
    obtain ⟨first, last, -, ends, -⟩ := atom_weave nonempty all
    exact ⟨first, last, ends⟩

theorem exists_ends (kept : Kept [.node kind parts]) (good : Good false (.node kind parts)) :
    ∃ first last, Ends (.node kind parts) first last :=
  ((good.shape (kept_node.mp kept)).1.spelled (kept_node.mp kept)).ends

/-! ## From a weave to its tokens -/

/-- The tokens of a weave, in whatever stands behind it. -/
def Tokened (w : Weave) : Prop :=
  ∀ position rest tokens f, formsOf position w = [f] →
    (∀ last, w.cells.getLast? = some ⟨last, .kept⟩ → Clear (.touching last) rest) →
    Lexes (position + w.room) rest tokens →
    ∃ own, Lexes position (spelling [w] ++ rest) (own ++ tokens) ∧ Derives own [f] []

/-- The first part of what stands inside of a list is a blank or a node, and the run goes on behind
it. -/
theorem run_middle_cons {gap gap' : Gap} {ws : List Weave} (kept : Kept (w :: ws))
    (good : Good false w) (ran : run false .list (.inside gap) (w :: ws) = some (.inside gap')) :
    (∃ c, w = keep c ∧ Text.isBlank c = true ∧
      run false .list (.inside .free) ws = some (.inside gap')) ∨
      ∃ k ps first last, w = .node k ps ∧ Ends w first last ∧
      gap.admits (some ⟨first, .kept⟩) = true ∧
        run false .list (.inside (.touching last)) ws = some (.inside gap') := by
  obtain ⟨m, stepped, ran⟩ := run_cons_eq_some.mp ran
  obtain ⟨kept_w, kept_ws⟩ := kept_cons.mp kept
  rcases step_inside kept_w stepped with
    ⟨rfl, rfl⟩ | ⟨c, rfl, blank, rfl⟩ | ⟨k, ps, rfl, admitted, rfl⟩
  · rw [run_closed kept_ws ran] at ran
    cases ran
  · exact .inl ⟨c, rfl, blank, ran⟩
  · obtain ⟨first, last, ends⟩ := exists_ends kept_w good
    rw [ends.front_eq] at admitted
    rw [ends.gapAfter] at ran
    exact .inr ⟨k, ps, first, last, rfl, ends, admitted, ran⟩

/-- What follows a node of a list does not run into it. -/
theorem clear_after {last : Char} {gap : Gap} {middle : List Weave} {rest : List Char}
    (kept : Kept middle) (good : ∀ v ∈ middle, Good false v)
    (ran : run false .list (.inside (.touching last)) middle = some (.inside gap))
    (clear : Clear gap rest) : Clear (.touching last) (spelling middle ++ rest) := by
  cases middle with
  | nil =>
    cases ran
    exact clear
  | cons w ws =>
    rw [spelling_cons]
    intro c hc
    rcases run_middle_cons kept (good w (by simp)) ran with
      ⟨d, rfl, blank, -⟩ | ⟨k, ps, first, final, rfl, ends, admitted, -⟩
    · have same : d = c := by simpa [spelling, keep] using hc
      rw [← same, inAtom_of_blank blank, Bool.and_false]
    · rw [List.append_assoc, List.head?_append, ends.head_eq] at hc
      have same : first = c := by simpa using hc
      rw [same] at admitted
      simpa only [Gap.admits, Bool.not_eq_true'] using admitted

theorem run_not_blocked {gap gap' : Gap} {middle : List Weave} (kept : Kept middle)
    (good : ∀ v ∈ middle, Good false v) (start : gap ≠ .blocked)
    (ran : run false .list (.inside gap) middle = some (.inside gap')) : gap' ≠ .blocked := by
  induction middle generalizing gap with
  | nil =>
    cases ran
    exact start
  | cons w ws ih =>
    have later {gap : Gap} (start : gap ≠ .blocked)
        (ran : run false .list (.inside gap) ws = some (.inside gap')) : gap' ≠ .blocked :=
      ih (kept_cons.mp kept).2 (fun v hv => good v (by simp [hv])) start ran
    rcases run_middle_cons kept (good w (by simp)) ran with
      ⟨c, -, -, ran⟩ | ⟨k, ps, first, last, -, -, -, ran⟩
    · exact later (by simp) ran
    · exact later (by simp) ran

theorem lexes_of_middle {middle : List Weave} (kept : Kept middle)
    (good : ∀ v ∈ middle, Good false v) (tokened : ∀ v ∈ middle, Tokened v) :
    ∀ {gap gap' : Gap} {position : Nat} {rest : List Char} {tokens : List (Token Mark)},
    run false .list (.inside gap) middle = some (.inside gap') → Clear gap' rest →
    Lexes (position + width middle) rest tokens →
    ∃ own, Lexes position (spelling middle ++ rest) (own ++ tokens) ∧
      Derives own (formsAt position middle) [] := by
  induction middle with
  | nil =>
    intro gap gap' position rest tokens ran clear lexes
    exact ⟨[], by simpa using lexes, by rw [formsAt_nil]; exact .nil⟩
  | cons w ws ih =>
    intro gap gap' position rest tokens ran clear lexes
    have kept_ws := (kept_cons.mp kept).2
    have good_ws : ∀ v ∈ ws, Good false v := fun v hv => good v (by simp [hv])
    have later := @ih kept_ws good_ws (fun v hv => tokened v (by simp [hv]))
    rw [width_cons, ← Nat.add_assoc] at lexes
    rw [spelling_cons, List.append_assoc, formsAt_cons]
    rcases run_middle_cons kept (good w (by simp)) ran with
      ⟨c, rfl, blank, ran⟩ | ⟨k, ps, first, last, rfl, ends, -, ran⟩
    · obtain ⟨own, lexes', derives⟩ := later ran clear lexes
      refine ⟨own, .blank blank lexes', ?_⟩
      simpa [keep] using derives
    · obtain ⟨own, lexes', derives⟩ := later ran clear lexes
      have clear_node : ∀ c, (Weave.node k ps).cells.getLast? = some ⟨c, .kept⟩ →
          Clear (.touching c) (spelling ws ++ rest) := by
        intro c found
        rw [ends.last_eq] at found
        cases found
        exact clear_after kept_ws good_ws ran clear
      obtain ⟨own', lexes'', derives'⟩ := tokened (.node k ps) (by simp) position
        (spelling ws ++ rest) (own ++ tokens) _ (formsOf_node _ _ _) clear_node lexes'
      refine ⟨own' ++ own, by rw [List.append_assoc]; exact lexes'', ?_⟩
      rw [formsOf_node]
      exact (derives'.extend own).append derives

/-- A run that was not blocked passes over a closing parenthesis. -/
theorem clear_closing {gap : Gap} {rest : List Char} (open_gap : gap ≠ .blocked) :
    Clear gap (')' :: rest) := by
  cases gap with
  | free => trivial
  | touching last =>
    intro c hc
    cases hc
    rw [show inAtom ')' = false by decide, Bool.and_false]
  | blocked => exact absurd rfl open_gap

theorem tokened_list {middle : List Weave} {gap : Gap} (kept : Kept middle)
    (good : ∀ v ∈ middle, Good false v) (each : ∀ v ∈ middle, Tokened v)
    (ran : run false .list (.inside .free) middle = some (.inside gap)) :
    Tokened (.node .list (keep '(' :: (middle ++ [keep ')']))) := by
  intro position rest tokens f form clear lexes
  rw [formsOf_node, formsAt_list, width_list, List.cons.injEq] at form
  obtain ⟨rfl, -⟩ := form
  rw [room_node, width_list] at lexes
  rw [spelling_node, spelling_list]
  let closing : Token Mark := ⟨.closing, (')').toString, Span.sized (position + 1 + width middle) 1⟩
  let opening : Token Mark := ⟨.opening, ('(').toString, Span.sized position 1⟩
  have closed : Lexes (position + 1 + width middle) (')' :: rest) (closing :: tokens) := by
    refine .mark (by decide) ?_
    rwa [show position + 1 + width middle + 1 = position + (1 + width middle + 1) by omega]
  obtain ⟨own, lexes', derives⟩ := lexes_of_middle kept good each ran
    (clear_closing (run_not_blocked kept good (by simp) ran)) closed
  refine ⟨opening :: (own ++ [closing]), ?_, ?_⟩
  · simp only [List.cons_append, List.append_assoc, List.nil_append]
    exact .mark (by decide) lexes'
  · refine .list rfl (derives.extend [closing]) rfl rfl ?_ .nil
    simp only [Span.sized, closing]
    omega

theorem tokened_quote {bs : List Char} {k : Kind} {ps : List Weave}
    (blank : ∀ c ∈ bs, Text.isBlank c = true) (solid : endsSolid (.node k ps) = true)
    (inner : Tokened (.node k ps)) :
    Tokened (.node .quote (keep '\x27' :: (bs.map keep ++ [.node k ps]))) := by
  intro position rest tokens f form clear lexes
  rw [formsOf_node, formsAt_quote, width_quote, formsOf_node, List.cons.injEq] at form
  obtain ⟨rfl, -⟩ := form
  rw [room_node, width_quote] at lexes
  rw [spelling_node, spelling_quote]
  let mark : Token Mark := ⟨.quote, ('\x27').toString, Span.sized position 1⟩
  have last_eq : (Weave.node .quote (keep '\x27' :: (bs.map keep ++ [.node k ps]))).cells.getLast? =
      (Weave.node k ps).cells.getLast? := by
    obtain ⟨last, found, -⟩ := getLast_of_endsSolid solid
    simp only [cells_node, stored_cons, stored_append, stored_nil, List.append_nil,
      List.getLast?_append]
    rw [← cells_node k ps, found]
    rfl
  have after : Lexes (position + 1 + bs.length + (Weave.node k ps).room) rest tokens := by
    rwa [show position + 1 + bs.length + (Weave.node k ps).room =
      position + (1 + bs.length + (Weave.node k ps).room) by omega]
  obtain ⟨own, lexes', derives⟩ := inner (position + 1 + bs.length) rest tokens _
    (formsOf_node _ _ _) (fun last found => clear last (by rw [last_eq, found])) after
  refine ⟨mark :: own, ?_, ?_⟩
  · simp only [List.cons_append, List.append_assoc]
    exact .mark (by decide) (.blanks blank lexes')
  · refine .quote rfl derives rfl ?_ .nil
    rw [room_node]
    simp only [Span.sized, Form.span, Rose.value_node]
    omega

theorem tokened_atom {cs : List Char} (nonempty : cs ≠ []) (all : ∀ c ∈ cs, inAtom c = true) :
    Tokened (.node (.atom (String.ofList cs)) (cs.map keep)) := by
  intro position rest tokens f form clear lexes
  rw [formsOf_node, formsAt_keep, width_keep, List.cons.injEq] at form
  obtain ⟨rfl, -⟩ := form
  rw [room_node, width_keep] at lexes
  rw [spelling_node, spelling_keep]
  obtain ⟨first, last, inside, ends, -⟩ := atom_weave nonempty all
  have ends_here : NotInAtom rest := by
    intro c hc
    have apart := clear last ends.last_eq c hc
    simpa [inside] using apart
  exact ⟨[⟨.atom, String.ofList cs, Span.sized position cs.length⟩],
    .atom nonempty all ends_here lexes, .atom rfl .nil⟩

theorem tokened (w : Weave) (kept : Kept [w]) (good : Good false w) : Tokened w := by
  induction w using Weave.induction with
  | cell c =>
    intro position rest tokens f form
    simp at form
  | node kind parts ih =>
    have kept_parts := kept_node.mp kept
    obtain ⟨shape, each⟩ := good.shape kept_parts
    have inner : ∀ v ∈ parts, Tokened v := fun v hv => ih v hv (kept_parts.mem hv) (each v hv)
    cases shape.spelled kept_parts with
    | @list middle gap ran =>
      obtain ⟨-, kept_rest⟩ := kept_cons.mp kept_parts
      exact tokened_list (kept_append.mp kept_rest).1 (fun v hv => each v (by simp [hv]))
        (fun v hv => inner v (by simp [hv])) ran
    | @quote bs k ps blank solid => exact tokened_quote blank solid (inner _ (by simp))
    | @atom cs nonempty all => exact tokened_atom nonempty all

/-! ## Reading and weaving -/

/-- A text that reads as a form is woven from kept cells, with blanks around the form. -/
theorem weave_of_reads {position : Nat} {chars : List Char} {f : Form}
    (reads : Reads position chars f) :
    ∃ (bs bs' : List Char) (w : Weave), chars = bs ++ spelling [w] ++ bs' ∧
      (∀ c ∈ bs, Text.isBlank c = true) ∧ (∀ c ∈ bs', Text.isBlank c = true) ∧ Kept [w] ∧
      Good false w ∧ formsOf (position + bs.length) w = [f] := by
  obtain ⟨tokens, lexes, derives⟩ := reads
  obtain ⟨ws, later, woven, lexes'⟩ := weaves_of_derives derives lexes
  obtain ⟨bs, w, first, last, rfl, blank, ends⟩ := woven.single f rfl
  refine ⟨bs, later, w, ?_, blank, lexes'.blank_of_nil, (kept_append.mp woven.kept).2,
    woven.good w (by simp), ?_⟩
  · rw [woven.text, spelling_append, spelling_keep]
  · have forms := woven.forms
    rwa [formsAt_append, formsAt_keep, width_keep, List.nil_append, formsAt_singleton] at forms

theorem lexes_of_blank {position : Nat} {bs : List Char} (blank : ∀ c ∈ bs, Text.isBlank c = true) :
    Lexes position bs [] := by
  have blanks : Lexes position (bs ++ []) [] := .blanks blank .nil
  simpa using blanks

/-- A good weave of kept cells reads as its form, with any blanks around it. -/
theorem reads_of_weave {position : Nat} {bs bs' : List Char} {f : Form}
    (blank : ∀ c ∈ bs, Text.isBlank c = true) (blank' : ∀ c ∈ bs', Text.isBlank c = true)
    (kept : Kept [w]) (good : Good false w) (form : formsOf (position + bs.length) w = [f]) :
    Reads position (bs ++ spelling [w] ++ bs') f := by
  obtain ⟨own, lexes, derives⟩ := tokened w kept good (position + bs.length) bs' [] f form (by
    intro last found c hc
    rw [inAtom_of_blank (blank' c (List.mem_of_mem_head? hc)), Bool.and_false])
    (lexes_of_blank blank')
  refine ⟨own, ?_, derives⟩
  rw [List.append_assoc]
  rw [List.append_nil] at lexes
  exact .blanks blank lexes

end FormEdit.Weave
