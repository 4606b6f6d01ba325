import FormEdit.Proofs.Grammar.Pieces
import FormEdit.Proofs.Weave.Renewal
import FormEdit.Proofs.Weave.Room

/-!
# Nested forms and their weaves

Forms that are read from a text are nested, comments or not, since their tokens stand one behind the
other: `Parses.nested`. And every nested form is that of a weave (`exists_weave`). Its cells say
nothing of the text; they take up the room between the nodes, which is all that making room asks
for.
-/

namespace FormEdit

namespace Reader

open Lexer

variable {ts rest : List (Token Mark)} {fs : List Form}

/-- Nested forms stand one behind the other from a position on, and some tokens behind them. -/
structure Sequential (low : Nat) (fs : List Form) (rest : List (Token Mark)) : Prop where
  nested : ∀ f ∈ fs, f.Nested
  start : ∀ f ∈ fs, low ≤ (Form.span f).start
  stop : ∀ f ∈ fs, ∀ t ∈ rest, (Form.span f).stop ≤ t.span.start
  order : fs.Pairwise fun f g => (Form.span f).stop ≤ (Form.span g).start

/-- A form ahead of others, which start no earlier than it stops. -/
theorem Sequential.cons {f : Form} {low : Nat} (nested : f.Nested)
    (start : low ≤ (Form.span f).start) (stop : ∀ t ∈ rest, (Form.span f).stop ≤ t.span.start)
    (more : Sequential (Form.span f).stop fs rest) :
    Sequential low (f :: fs) rest := by
  have edge := (Form.span f).start_le_stop
  refine ⟨List.forall_mem_cons.mpr ⟨nested, more.nested⟩,
    List.forall_mem_cons.mpr ⟨start, fun g mem => ?_⟩, List.forall_mem_cons.mpr ⟨stop, more.stop⟩,
    .cons more.start more.order⟩
  have := more.start g mem
  omega

/-- Sequential forms are nested in whatever starts ahead of them and ends behind them. -/
theorem Sequential.enclosed {low : Nat} {tag : Tag} (inner : Sequential low fs rest)
    (start : tag.span.start ≤ low) (stop : ∀ f ∈ fs, (Form.span f).stop ≤ tag.span.stop) :
    Form.Nested (.node tag fs) :=
  .node (fun f mem => ⟨Nat.le_trans start (inner.start f mem), stop f mem⟩) inner.order inner.nested

/-- Forms that are read one behind the other stand so, each with its children inside of it. -/
theorem Derives.sequential (derives : Derives ts fs rest) :
    ∀ low, Ordered low ts → Sequential low fs rest := by
  induction derives with
  | nil => exact fun _ _ => ⟨by simp, by simp, by simp, .nil⟩
  | @atom token ts rest fs is_atom more ih =>
    intro low ordered
    have later := ordered.tail
    have behind_it := ih token.span.stop later
    obtain ⟨own, rfl, -⟩ := more.own
    have leaf : Form.Nested (.leaf ⟨.atom token.content, token.span⟩) :=
      .node (by simp) .nil (by simp)
    exact .cons leaf (ordered.after token (by simp))
      (fun t mem => later.after t (by simp [mem])) behind_it
  | @quote token ts mid rest f fs span is_quote quoted start stop more quoted_ih ih =>
    intro low ordered
    have inner := quoted_ih token.span.stop ordered.tail
    have inner_stop := inner.stop f (by simp)
    obtain ⟨own, rfl, -⟩ := quoted.own
    have behind_it := ih f.span.stop (ordered.tail.behind inner_stop)
    obtain ⟨own', rfl, -⟩ := more.own
    have quote : Form.Nested (.node ⟨.quote, span⟩ [f]) := by
      refine inner.enclosed (Nat.le_trans (Nat.le_of_eq start) token.span.start_le_stop)
        fun g mem => ?_
      obtain rfl := List.mem_singleton.mp mem
      exact Nat.le_of_eq stop.symm
    have stop_eq : (Form.span (.node ⟨.quote, span⟩ [f])).stop = f.span.stop := stop
    refine .cons quote ?_ (fun t mem => ?_) (stop_eq ▸ behind_it)
    · change low ≤ span.start
      exact start ▸ ordered.after token (by simp)
    · exact stop_eq ▸ inner_stop t (by simp [mem])
  | @list opening closing ts mid rest gs fs span opens items closes start stop more items_ih ih =>
    intro low ordered
    have inner := items_ih opening.span.stop ordered.tail
    obtain ⟨own, rfl, -⟩ := items.own
    have from_closing : Ordered opening.span.stop (closing :: mid) :=
      ordered.tail.behind fun t mem => ordered.tail.after t (by simp [mem])
    have closing_later := from_closing.tail.after
    have behind_it := ih closing.span.stop from_closing.tail
    obtain ⟨own', rfl, -⟩ := more.own
    have list : Form.Nested (.node ⟨.list, span⟩ gs) := by
      refine inner.enclosed (Nat.le_trans (Nat.le_of_eq start) opening.span.start_le_stop)
        fun g mem => ?_
      have before_closing := inner.stop g mem closing (by simp)
      have edge := closing.span.start_le_stop
      simp only [stop]
      omega
    have stop_eq : (Form.span (.node ⟨.list, span⟩ gs)).stop = closing.span.stop := stop
    refine .cons list ?_ (fun t mem => ?_) (stop_eq ▸ behind_it)
    · change low ≤ span.start
      exact start ▸ ordered.after opening (by simp)
    · exact stop_eq ▸ closing_later t (by simp [mem])

end Reader

namespace Language

/-- What a text reads as is nested. -/
theorem Parses.nested {position : Nat} {chars : List Char} {f : Form}
    (parses : Parses position chars f) :
    f.Nested := by
  obtain ⟨tokens, tokens_eq, derives⟩ := parses
  have ordered := Lexer.ordered_of_tokensAt tokens_eq
  exact (derives.sequential position ordered).nested f (by simp)

end Language

namespace Weave

open Buffer

/-- Room for characters, whatever they are. -/
def spaces (count : Nat) : List Weave := (keptCells (List.replicate count ' ')).map cell

theorem width_spaces (count : Nat) : width (spaces count) = count := by
  rw [spaces, width_map_cell, currentCount_keptCells, List.length_replicate]

theorem formsAt_spaces (position count : Nat) : formsAt position (spaces count) = [] :=
  formsAt_map_cell position _

/-- Forms that stand one behind the other are those of weaves between two positions. -/
theorem exists_weaves {fs : List Form} {position stop : Nat} (enough : position ≤ stop)
    (each : ∀ f ∈ fs, position ≤ (Form.span f).start ∧ (Form.span f).stop ≤ stop ∧
      ∃ kind parts, formsOf (Form.span f).start (.node kind parts) = [f])
    (order : fs.Pairwise fun f g => (Form.span f).stop ≤ (Form.span g).start) :
    ∃ ws, formsAt position ws = fs ∧ position + width ws = stop := by
  induction fs generalizing position with
  | nil =>
    refine ⟨spaces (stop - position), formsAt_spaces _ _, ?_⟩
    rw [width_spaces]
    omega
  | cons f fs ih =>
    obtain ⟨start, inside, kind, parts, forms⟩ := each f (by simp)
    obtain ⟨first, later⟩ := List.pairwise_cons.mp order
    have stop_eq : (Form.span f).stop = (Form.span f).start + width parts := by
      rw [formsOf_node, List.cons.injEq] at forms
      rw [← forms.1]
      rfl
    obtain ⟨ws, ws_forms, ws_width⟩ := @ih (Form.span f).stop inside
      (fun g mem => ⟨first g mem, (each g (by simp [mem])).2⟩) later
    have gap : position + ((Form.span f).start - position) = (Form.span f).start := by omega
    refine ⟨spaces ((Form.span f).start - position) ++ .node kind parts :: ws, ?_, ?_⟩
    · rw [formsAt_append, formsAt_spaces, width_spaces, gap, List.nil_append, formsAt_cons, forms,
        room_node, ← stop_eq, ws_forms]
      rfl
    · rw [width_append, width_spaces, width_cons, room_node]
      omega

/-- Every nested form is that of a weave. -/
theorem exists_weave {f : Form} (nested : f.Nested) :
    ∃ kind parts, formsOf (Form.span f).start (.node kind parts) = [f] := by
  induction nested with
  | @node tag parts inside order each ih =>
    obtain ⟨ws, forms, width_eq⟩ := @exists_weaves parts tag.span.start tag.span.stop
      tag.span.start_le_stop (fun c mem => ⟨(inside c mem).1, (inside c mem).2, ih c mem⟩) order
    refine ⟨tag.kind, ws, ?_⟩
    have span_eq : Span.sized tag.span.start (width ws) = tag.span := by
      ext
      · rfl
      · exact width_eq
    change formsOf tag.span.start (.node tag.kind ws) = _
    rw [formsOf_node, forms, span_eq]

end Weave

end FormEdit
