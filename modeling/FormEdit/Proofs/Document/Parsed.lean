import FormEdit.Proofs.Buffer.Kept
import FormEdit.Proofs.Buffer.Slicing
import FormEdit.Proofs.Document.Fresh
import FormEdit.Proofs.Grammar.Alone
import FormEdit.Proofs.Tree.Siblings

/-!
# Documents that were just read

The tree of a document that was just read fits its text node by node: what is under a node is its
stretch of the text in both views, and read on its own it gives the subtree of the node, each form
in its place: `parsed_nodes_read_alone`. An edit can therefore read a node again without the text
around it.
-/

namespace FormEdit.Document

open Rose Buffer FormEdit.Language FormEdit.Tree

variable {chars : List Char} {ids : IdSource} {d : Document}

/-- A text that is read becomes a buffer without changes and a tree of what it reads as. -/
theorem ofText_reads (read : ofText parenthesised (String.ofList chars) ids = .ok d) :
    d.text = Buffer.ofText (String.ofList chars) ∧ ∃ b, Holds d.tree b ∧
      parenthesised.readWhole (Placed.run 0 chars) = .ok (Branch.form b) := by
  rw [ofText_eq] at read
  obtain ⟨form, form_eq, made⟩ := bind_eq_ok.mp read
  cases made
  obtain ⟨b, holds, rfl⟩ := ofForm_holds form ids
  exact ⟨rfl, b, holds, form_eq⟩

/-- Both views of a buffer without changes show its text. -/
theorem slice_ofText (chars : List Char) (view : View) (span : Span) :
    (Buffer.ofText (String.ofList chars)).slice view span =
      Placed.run span.start (pieceOf chars span) := by
  have current : (Buffer.ofText (String.ofList chars)).slice .current span =
      Placed.run span.start (pieceOf chars span) := by
    rw [slice_current_clamped, current_ofText]
  cases view with
  | current => exact current
  | committed => rw [slice_committed (kept_ofText _), current]

/-- The characters under a node of a text that was read are read as the subtree of the node. -/
theorem readWhole_under {fs : List (Frame (Handle × Node))} {c : Branch}
    (read : parenthesised.readWhole (Placed.run 0 chars) = .ok (Branch.form (plug fs c))) :
    c.value.2.span.stop ≤ chars.length ∧
      parenthesised.readWhole (Placed.run c.value.2.span.start (pieceOf chars c.value.2.span)) =
        .ok (Branch.form c) := by
  rw [form_plug] at read
  have inside : c.value.2.span.stop ≤ chars.length := by
    have mem : (Branch.form c).value ∈ (plug (tags fs) (Branch.form c)).preorder :=
      (preorder_plug _ _).mem_iff.mpr (List.mem_append_left _ (value_mem_preorder _))
    have bound := ((parses_of_readWhole read).1.inside mem).2
    rwa [Nat.zero_add, ← Form.span, Branch.span_form] at bound
  have order := c.value.2.span.start_le_stop
  have span_eq : (Branch.form c).span = Span.sized (0 + (chars.take c.value.2.span.start).length)
      (pieceOf chars c.value.2.span).length := by
    have length := length_pieceOf inside
    rw [Span.length] at length
    rw [Branch.span_form]
    ext
    · simp only [Span.sized, List.length_take]
      omega
    · simp only [Span.sized, List.length_take]
      omega
  rw [← take_pieceOf_drop chars c.value.2.span] at read
  have alone := readWhole_alone read span_eq
  rw [Branch.span_form] at alone
  exact ⟨inside, alone⟩

/-- Every node of a document that was just read stands for a stretch of its text: both views show
these characters under it, and from them alone the subtree of the node is read again, with the
kinds, the contents and the spans that it has in the tree. -/
theorem parsed_nodes_read_alone {text : String} (read : ofText parenthesised text ids = .ok d)
    {h : Handle} (live : d.tree.contains h = true) :
    ∃ span form, d.tree.span h = .ok span ∧ d.tree.form h = .ok form ∧ form.span = span ∧
      span.stop ≤ text.toList.length ∧
      ∀ view, d.textOf h view = .ok (String.ofList (pieceOf text.toList span)) ∧
        parenthesised.readWhole (d.text.slice view span) = .ok form := by
  obtain ⟨chars, rfl⟩ : ∃ chars, text = String.ofList chars :=
    ⟨text.toList, String.ofList_toList.symm⟩
  obtain ⟨text_eq, b, holds, whole⟩ := ofText_reads read
  obtain ⟨fs, c, rfl, rfl⟩ := holds.exists_hole live
  obtain ⟨inside, alone⟩ := readWhole_under whole
  have span_eq := holds.hole.span_eq
  rw [String.toList_ofList]
  refine ⟨c.value.2.span, Branch.form c, span_eq, holds.form_hole, Branch.span_form c, inside, ?_⟩
  intro view
  have slice_eq : d.text.slice view c.value.2.span =
      Placed.run c.value.2.span.start (pieceOf chars c.value.2.span) := by
    rw [text_eq, slice_ofText]
  constructor
  · rw [textOf, span_eq, ok_bind, slice_eq, pure_eq_ok, Placed.text, map_char_run]
  · rw [slice_eq, alone]

/-- The list of an atom with a semicolon in it and a quoted list with a comment, and a comment
ahead. -/
def commentedQuote : Document where
  text := Buffer.ofText ";x\n(a;b \x27(c ;d\n))"
  tree := (Tree.ofForm (.node ⟨.list, Span.sized 3 14⟩ [.leaf ⟨.atom "a;b", Span.sized 4 3⟩,
    .node ⟨.quote, Span.sized 8 8⟩ [.node ⟨.list, Span.sized 9 7⟩
      [.leaf ⟨.atom "c", Span.sized 10 1⟩]]]) .fromOne).1
  ids := .counting 6
  widened := false

/-- The quote is read from its own characters, at the positions that they have in the text. -/
theorem commentedQuote_reads_its_quote :
    ofText parenthesised ";x\n(a;b \x27(c ;d\n))" .fromOne = .ok commentedQuote ∧
    commentedQuote.tree.contains ⟨2, 0⟩ = true ∧
    commentedQuote.textOf ⟨2, 0⟩ .committed = .ok "\x27(c ;d\n)" ∧
    parenthesised.readWhole (commentedQuote.text.slice .committed (Span.sized 8 8)) =
      .ok (.node ⟨.quote, Span.sized 8 8⟩ [.node ⟨.list, Span.sized 9 7⟩
        [.leaf ⟨.atom "c", Span.sized 10 1⟩]]) := by
  have read : ofText parenthesised ";x\n(a;b \x27(c ;d\n))" .fromOne = .ok commentedQuote := by
    decide +kernel
  have live : commentedQuote.tree.contains ⟨2, 0⟩ = true := by decide
  obtain ⟨span, form, span_eq, form_eq, -, -, views⟩ := parsed_nodes_read_alone read live
  have known_span : commentedQuote.tree.span ⟨2, 0⟩ = .ok (Span.sized 8 8) := by decide +kernel
  have known_form : commentedQuote.tree.form ⟨2, 0⟩ = .ok (.node ⟨.quote, Span.sized 8 8⟩
      [.node ⟨.list, Span.sized 9 7⟩ [.leaf ⟨.atom "c", Span.sized 10 1⟩]]) := by decide +kernel
  obtain rfl : Span.sized 8 8 = span := Except.ok.inj (known_span.symm.trans span_eq)
  obtain rfl := Except.ok.inj (known_form.symm.trans form_eq)
  obtain ⟨shown, again⟩ := views .committed
  refine ⟨read, live, shown.trans ?_, again⟩
  decide

end FormEdit.Document
