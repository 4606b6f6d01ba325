import FormEdit.Document.Rereading
import FormEdit.Proofs.Buffer.Current
import FormEdit.Proofs.Grammar.Derives
import FormEdit.Proofs.Tree.Enclosing

/-!
# What reading again comes to

In a document whose tree is well linked and whose nodes lie inside of the text, reading again never
ends in a fault. It climbs from a node towards the root and stops at the first node that reads on
its own and does not run into its neighbours (`Rereads`); that node is replaced. If there is none,
the root included, nothing changes.
-/

namespace FormEdit

open Rose Buffer FormEdit.Language

namespace Placed

theorem find_run {position start : Nat} {chars : List Char} (after : start ≤ position) :
    ((run start chars).find? (·.position == position)).map Placed.char =
      chars[position - start]? := by
  induction chars generalizing start with
  | nil => simp [run]
  | cons c chars ih =>
    rw [run, List.find?_cons]
    by_cases here : start = position
    · simp [here]
    · have later : position - start = (position - (start + 1)) + 1 := by omega
      simp only [here, beq_eq_false_iff_ne.mpr, ne_eq, not_false_eq_true]
      rw [ih (by omega), later, List.getElem?_cons_succ]

end Placed

namespace Document

open Branch FormEdit.Tree

variable {d : Document} {b : Branch} {fs : List (Frame (Handle × Node))}

/-- The characters on the two sides of an edge do not read as one token. -/
def Apart (text : List Char) (position : Nat) : Prop :=
  ∀ x y, 0 < position → text[position - 1]? = some x → text[position]? = some y →
    (Lexer.inAtom x && Lexer.inAtom y) = false

/-- A node other than the root reads on its own at a place where it runs into nothing. -/
structure Rereads (d : Document) (fs : List (Frame (Handle × Node))) (span : Span) (f : Form) :
    Prop where
  reads : Reads span.start ((d.text.current.drop span.start).take span.length) f
  apart : fs ≠ [] → Apart d.text.current span.start ∧ Apart d.text.current span.stop

theorem charAt_slice {window : Span} {position : Nat}
    (inside : window.start ≤ d.text.currentLength) (after : window.start ≤ position)
    (before : position < window.stop) :
    charAt (d.text.slice .current window) position = d.text.current[position]? := by
  rw [charAt, slice_current _ inside, Placed.find_run after, List.getElem?_take_of_lt (by
    simp only [Span.length]
    omega), List.getElem?_drop]
  congr 1
  omega

theorem fused_eq_false {x y : Option Char} (apart : fused parenthesised x y = false) :
    ∀ u v, x = some u → y = some v → (Lexer.inAtom u && Lexer.inAtom v) = false := by
  rintro u v rfl rfl
  exact apart

theorem isFused_spec (holds : Holds d.tree (plug fs b))
    (inside : b.value.2.span.stop ≤ d.text.currentLength)
    (fits : d.text.currentLength + 1 < positionLimit) :
    ∃ result, d.isFused parenthesised (handle b) = .ok result ∧ (fs = [] → result = false) ∧
      (result = false → fs ≠ [] → b.value.2.span.isEmpty = false →
        Apart d.text.current b.value.2.span.start ∧ Apart d.text.current b.value.2.span.stop) := by
  have span : d.tree.span (handle b) = .ok b.value.2.span := holds.hole.span_eq
  have order := b.value.2.span.start_le_stop
  cases fs with
  | nil =>
    have top : d.tree.parent (handle b) = .ok none := holds.hole.parent_ok
    refine ⟨false, ?_, fun _ => rfl, fun _ other => absurd rfl other⟩
    simp [isFused, span, top]
  | cons f fs =>
    have up : d.tree.parent (handle b) = .ok (some f.value.1) := holds.hole.parent_ok
    by_cases empty : b.value.2.span.isEmpty = true
    · refine ⟨false, by simp [isFused, span, up, empty], by simp, ?_⟩
      intro _ _ nonempty
      rw [empty] at nonempty
      cases nonempty
    · have next : advance b.value.2.span.stop 1 = .ok (b.value.2.span.stop + 1) :=
        if_pos (by omega)
      have window : Span.make (b.value.2.span.start - 1) (b.value.2.span.stop + 1) =
          .ok ⟨b.value.2.span.start - 1, b.value.2.span.stop + 1, by omega⟩ :=
          Span.make_ok (by omega)
      have filled : b.value.2.span.start < b.value.2.span.stop := by
        simp only [Span.isEmpty, beq_iff_eq] at empty
        omega
      simp only [isFused, span, ok_bind, up, empty, Bool.false_eq_true, if_false, next, window,
        pure_eq_ok]
      refine ⟨_, rfl, by simp, ?_⟩
      intro apart _ _
      rw [Bool.or_eq_false_iff] at apart
      have at_window (position : Nat) (after : b.value.2.span.start - 1 ≤ position)
          (before : position < b.value.2.span.stop + 1) :
          charAt (d.text.slice .current
            ⟨b.value.2.span.start - 1, b.value.2.span.stop + 1, by omega⟩) position =
          d.text.current[position]? :=
        charAt_slice (by simp only; omega) after before
      rw [at_window _ (by omega) (by omega), at_window _ (by omega) (by omega),
        at_window _ (by omega) (by omega), at_window _ (by omega) (by omega)] at apart
      constructor
      · intro x y positive hx hy
        refine fused_eq_false apart.1 x y ?_ hy
        rw [if_neg (by omega), hx]
      · intro x y positive hx hy
        exact fused_eq_false apart.2 x y hx hy

theorem rereadNode_spec (holds : Holds d.tree (plug fs b))
    (inside : b.value.2.span.stop ≤ d.text.currentLength)
    (fits : d.text.currentLength + 1 < positionLimit) (plain : ';' ∉ d.text.current) :
    (∃ f, d.rereadNode parenthesised (handle b) = .ok (some f) ∧ Rereads d fs b.value.2.span f) ∨
      (d.rereadNode parenthesised (handle b) = .ok none ∧
        (fs = [] → ∀ f, ¬Reads b.value.2.span.start
          ((d.text.current.drop b.value.2.span.start).take b.value.2.span.length) f)) := by
  obtain ⟨result, checked, at_root, apart⟩ := isFused_spec holds inside fits
  have span : d.tree.span (handle b) = .ok b.value.2.span := holds.hole.span_eq
  have order := b.value.2.span.start_le_stop
  let chars := (d.text.current.drop b.value.2.span.start).take b.value.2.span.length
  have short : b.value.2.span.start + chars.length < positionLimit := by
    simp only [chars, List.length_take, List.length_drop, length_current, Span.length]
    omega
  have plain' : ';' ∉ chars := fun mem => plain (List.mem_of_mem_drop (List.mem_of_mem_take mem))
  have read : d.readNode parenthesised (handle b) .current =
      parenthesised.readWhole (Placed.run b.value.2.span.start chars) := by
    simp only [readNode, span, mapError_ok, ok_bind]
    rw [slice_current _ (by omega)]
  cases result with
  | true =>
    refine .inr ⟨by simp [rereadNode, checked], ?_⟩
    intro top
    exact absurd (at_root top) (by simp)
  | false =>
    rcases readWhole_run short with ⟨f, parses, ok⟩ | ⟨r, rejected⟩
    · have reads := (parses_iff_reads plain').mp parses
      refine .inl ⟨f, by simp [rereadNode, checked, read, ok], reads, ?_⟩
      intro inner
      refine apart rfl inner ?_
      cases empty : b.value.2.span.isEmpty with
      | false => rfl
      | true =>
        simp only [Span.isEmpty, beq_iff_eq] at empty
        have none : chars = [] := by simp [chars, Span.length, empty]
        exact absurd none reads.nonempty
    · refine .inr ⟨by simp [rereadNode, checked, read, rejected], ?_⟩
      intro _ f reads
      rw [readWhole_of_reads reads short plain'] at rejected
      cases rejected

/-! ## Putting a form in its place -/

/-- A form takes the place of a node, and nothing around it changes. -/
theorem putForm_current (holds : Holds d.tree (plug fs b)) (f : Form) :
    ∃ tree ids fs' c, d.putForm (handle b) f .current =
        .ok (handle c, { d with tree := tree, ids := ids }) ∧
      Holds tree (plug fs' c) ∧ tags fs' = tags fs ∧ Branch.form c = f := by
  have span : d.tree.span (handle b) = .ok b.value.2.span := holds.hole.span_eq
  obtain ⟨c, planted, handle_c⟩ := plantUnder_spec f none d.tree.nodes d.ids holds.sound
  obtain ⟨t', done, holds'⟩ := holds.substitute planted
  refine ⟨t', (plantUnder none f (d.tree.nodes, d.ids)).2.2, _, _, ?_, holds', by simp,
    by simp [planted.form]⟩
  simp only [putForm, span, ok_bind, plant, handle_c, done, pure_eq_ok, handle_under]

/-- Read in the committed view, a form is given the span of the node it takes the place of. -/
theorem putForm_committed (holds : Holds d.tree (plug fs b)) (f : Form) :
    ∃ tree ids fs' c, d.putForm (handle b) f .committed =
        .ok (handle c, { d with tree := tree, ids := ids }) ∧
      Holds tree (plug fs' c) ∧ tags fs' = tags fs ∧
      Branch.form c = .node ⟨f.kind, b.value.2.span⟩ f.children := by
  have span : d.tree.span (handle b) = .ok b.value.2.span := holds.hole.span_eq
  obtain ⟨c, planted, handle_c⟩ := plantUnder_spec f none d.tree.nodes d.ids holds.sound
  obtain ⟨t', done, holds'⟩ := holds.substitute planted
  obtain ⟨⟨h, n⟩, cs⟩ := c
  rw [handle_node] at handle_c done
  obtain ⟨t'', set, holds''⟩ := holds'.setSpan b.value.2.span
  refine ⟨t'', (plantUnder none f (d.tree.nodes, d.ids)).2.2, _, _, ?_, holds'', by simp, ?_⟩
  · simp only [putForm, span, ok_bind, plant, handle_c, done, handle_node, set, pure_eq_ok]
  · rw [← planted.form]
    simp [Branch.form, Form.kind, Node.tag]

/-! ## Narrowing and committing -/

theorem span_root (holds : Holds d.tree b) : d.tree.span d.root = .ok b.value.2.span := by
  rw [root, ← holds.root]
  exact holds.linked.span_eq

/-- A root whose text reads as a form is narrowed to that form. -/
theorem narrowRoot_spec {f : Form} (holds : Holds d.tree b)
    (inside : b.value.2.span.stop ≤ d.text.currentLength)
    (fits : d.text.currentLength < positionLimit) (plain : ';' ∉ d.text.current)
    (reads : Reads b.value.2.span.start
      ((d.text.current.drop b.value.2.span.start).take b.value.2.span.length) f) :
    ∃ tree b', d.narrowRoot parenthesised = .ok { d with tree := tree } ∧ Holds tree b' ∧
      Branch.form b' = .node ⟨(Branch.form b).kind, f.span⟩ (Branch.form b).children := by
  have span : d.tree.span d.root = .ok b.value.2.span := span_root holds
  have order := b.value.2.span.start_le_stop
  obtain ⟨tokens, lexes, derives⟩ := reads
  obtain ⟨own, tokens_eq, head, last⟩ := derives.ends
  rw [List.append_nil] at tokens_eq
  subst tokens_eq
  obtain ⟨first, is_first, start⟩ := head f rfl
  obtain ⟨final, is_final, stop⟩ := last f rfl
  have split : Lexer.split (d.text.slice .current b.value.2.span) = .ok tokens := by
    rw [slice_current _ (by omega)]
    refine Lexer.split_of_lexes lexes ?_ ?_
    · simp only [List.length_take, List.length_drop, length_current, Span.length]
      omega
    · exact fun mem => plain (List.mem_of_mem_drop (List.mem_of_mem_take mem))
  have narrowed : Span.make first.span.start final.span.stop = .ok f.span := by
    rw [start, stop]
    exact Span.make_ok f.span.start_le_stop
  obtain ⟨⟨h, n⟩, cs⟩ := b
  have top : Holds d.tree (plug [] (.node (h, n) cs)) := holds
  obtain ⟨t', set, holds'⟩ := top.setSpan f.span
  have root_eq : d.root = h := holds.root.symm
  rw [root_eq] at span
  refine ⟨t', _, ?_, holds', by simp [Branch.form, Form.kind, Node.tag]⟩
  simp only [narrowRoot, span, ok_bind, parenthesised, split, is_first, is_final, narrowed, root_eq,
    set, pure_eq_ok]

theorem commitNode_root (holds : Holds d.tree b) (span : Span) :
    d.commitNode parenthesised (handle b) span =
      .ok { d with text := d.text.commitAll, widened := false } := by
  have top : d.tree.parent (handle b) = .ok none := holds.linked.parent_ok
  simp [commitNode, top]

theorem commitNode_inner {f : Frame (Handle × Node)} (holds : Holds d.tree (plug (f :: fs) b))
    (span : Span) (pending : (d.widened && !(d.text.commit span).isChanged) = false) :
    d.commitNode parenthesised (handle b) span = .ok { d with text := d.text.commit span } := by
  have up : d.tree.parent (handle b) = .ok (some f.value.1) := holds.hole.parent_ok
  simp [commitNode, up, isSettled, pending]

/-- A widened root is narrowed as soon as nothing is pending. -/
theorem commitNode_narrow {f : Frame (Handle × Node)} (holds : Holds d.tree (plug (f :: fs) b))
    (span : Span) (settled : (d.widened && !(d.text.commit span).isChanged) = true) :
    d.commitNode parenthesised (handle b) span = (do
      let d ← narrowRoot parenthesised { d with text := d.text.commit span }
      pure { d with widened := false }) := by
  have up : d.tree.parent (handle b) = .ok (some f.value.1) := holds.hole.parent_ok
  simp [commitNode, up, isSettled, settled]

/-! ## Climbing -/

theorem rereadFrom_climbs {steps : Nat} {g : Frame (Handle × Node)}
    (holds : Holds d.tree (plug (g :: fs) b))
    (none : d.rereadNode parenthesised (handle b) = .ok none) :
    rereadFrom parenthesised (steps + 1) d (handle b) =
      rereadFrom parenthesised steps d (handle (g.fill b)) := by
  have span : d.tree.span (handle b) = .ok b.value.2.span := holds.hole.span_eq
  have up : d.tree.parent (handle b) = .ok (some g.value.1) := holds.hole.parent_ok
  simp only [rereadFrom, span, ok_bind, none, up]
  rfl

/-- Climbing from a node, either some node around it is read again, or none reads, not even the
root, and nothing changes. -/
theorem rereadFrom_spec {steps : Nat} (holds : Holds d.tree (plug fs b))
    (enough : fs.length < steps) (nested : (Branch.form (plug fs b)).Nested)
    (inside : (plug fs b).value.2.span.stop ≤ d.text.currentLength)
    (fits : d.text.currentLength + 1 < positionLimit) (plain : ';' ∉ d.text.current) :
    (∃ inner outer f, fs = inner ++ outer ∧ Rereads d outer (plug inner b).value.2.span f ∧
      rereadFrom parenthesised steps d (handle b) = (do
        let (new, d') ← d.putForm (handle (plug inner b)) f .current
        let d' ← d'.commitNode parenthesised new (plug inner b).value.2.span
        pure (.reparsed d'.root new, d'))) ∨
    (rereadFrom parenthesised steps d (handle b) = .ok (.pending d.root, d) ∧
      ∀ f, ¬Reads (plug fs b).value.2.span.start
        ((d.text.current.drop (plug fs b).value.2.span.start).take (plug fs b).value.2.span.length)
        f) := by
  induction fs generalizing b steps with
  | nil =>
    cases steps with
    | zero => omega
    | succ steps =>
      have span : d.tree.span (handle b) = .ok b.value.2.span := holds.hole.span_eq
      have top : d.tree.parent (handle b) = .ok none := holds.hole.parent_ok
      have whole : Holds d.tree (plug [] b) := holds
      rcases rereadNode_spec whole inside fits plain with ⟨f, found, rereads⟩ | ⟨none, fails⟩
      · refine .inl ⟨[], [], f, rfl, rereads, ?_⟩
        simp only [rereadFrom, span, ok_bind, found, plug_nil]
      · refine .inr ⟨?_, fails rfl⟩
        have root_eq : d.root = handle b := holds.root.symm
        simp only [rereadFrom, span, ok_bind, none, top, root_eq, pure_eq_ok]
  | cons g fs ih =>
    cases steps with
    | zero => omega
    | succ steps =>
      have span : d.tree.span (handle b) = .ok b.value.2.span := holds.hole.span_eq
      have within := hole_inside nested
      rcases rereadNode_spec holds (by omega) fits plain with ⟨f, found, rereads⟩ | ⟨none, -⟩
      · refine .inl ⟨[], g :: fs, f, rfl, rereads, ?_⟩
        simp only [rereadFrom, span, ok_bind, found, plug_nil]
      · rw [rereadFrom_climbs holds none]
        rcases ih (b := g.fill b) holds (by simpa using enough) nested inside with
          ⟨inner, outer, f, rfl, rereads, ran⟩ | pending
        · exact .inl ⟨g :: inner, outer, f, rfl, rereads, ran⟩
        · exact .inr pending

end Document

end FormEdit
