import FormEdit.Proofs.Buffer.Committed
import FormEdit.Proofs.Weave.Nesting

/-!
# Where forms stand among their characters

Several characters may share a position, as deleted ones do in the committed view. A token ends at
its last character or right behind it, whichever leaves the next character its place, so no token
ends more than one position behind the last character (`scan_upto`). Together with the order of the
tokens this settles where forms stand: inside of each other, one behind the other, and between the
first character and the last.
-/

namespace FormEdit

namespace Lexer

variable {run next : Run} {p : Placed} {ahead : List Placed}
  {tokens done complete : List (Token Mark)}
  {bound last stop : Nat}

/-- The run under way has read nothing behind a position. -/
def Run.Upto (bound : Nat) : Run → Prop
  | .atom _ last _ => last ≤ bound
  | _ => True

theorem stopAfter_le (stopped : stopAfter last ahead = .ok stop) : stop ≤ last + 1 := by
  have behind (advanced : advance last 1 = .ok stop) : stop ≤ last + 1 := by
    unfold advance at advanced
    split at advanced
    · cases advanced
      exact Nat.le_refl _
    · cases advanced
  cases ahead with
  | nil => exact behind stopped
  | cons q ahead =>
    simp only [stopAfter] at stopped
    split at stopped
    · cases stopped
      exact Nat.le_succ last
    · exact behind stopped

/-- The span of a token whose last character has been read. -/
theorem span_upto {first : Nat} {span : Span} (low : last ≤ bound)
    (stopped : stopAfter last ahead = .ok stop) (made : Span.make first stop = .ok span) :
    span.stop ≤ bound + 1 := by
  have edge := stopAfter_le stopped
  obtain ⟨-, rfl⟩ := Span.make_eq_ok made
  omega

theorem close_upto (upto : run.Upto bound) (closed : run.close ahead = .ok done) :
    ∀ t ∈ done, t.span.stop ≤ bound + 1 := by
  cases run with
  | atom first last content =>
    obtain ⟨stop, stopped, closed⟩ := bind_eq_ok.mp closed
    obtain ⟨span, made, closed⟩ := bind_eq_ok.mp closed
    cases closed
    intro t mem
    obtain rfl := List.mem_singleton.mp mem
    exact span_upto upto stopped made
  | _ =>
    cases closed
    simp

theorem single_upto {m : Mark} (low : p.position ≤ bound) (made : single m p ahead = .ok complete) :
    ∀ t ∈ complete, t.span.stop ≤ bound + 1 := by
  obtain ⟨stop, stopped, made⟩ := bind_eq_ok.mp made
  obtain ⟨span, span_eq, made⟩ := bind_eq_ok.mp made
  cases made
  intro t mem
  obtain rfl := List.mem_singleton.mp mem
  exact span_upto low stopped span_eq

theorem begin_upto (low : p.position ≤ bound) (begun : begin p ahead = .ok (next, complete)) :
    next.Upto bound ∧ ∀ t ∈ complete, t.span.stop ≤ bound + 1 := by
  rcases begin_cases begun with ⟨m, -, rfl, made⟩ | ⟨opened, rfl⟩
  · exact ⟨trivial, single_upto low made⟩
  · refine ⟨?_, by simp⟩
    rcases opens_cases opened with ⟨-, rfl⟩ | ⟨-, -, rfl⟩ | ⟨-, -, rfl⟩
    · trivial
    · trivial
    · exact low

/-- No token ends more than one position behind the last character. -/
theorem scan_upto (upto : run.Upto bound) (low : ∀ p ∈ ahead, p.position ≤ bound)
    (scanned : scan run ahead = .ok tokens) : ∀ t ∈ tokens, t.span.stop ≤ bound + 1 := by
  apply scan_preserves (·.position ≤ bound) (Run.Upto bound) (·.span.stop ≤ bound + 1) _ _ _
    upto low scanned
  · intro run p low_p upto _
    cases run with
    | atom first last content => exact low_p
    | _ => trivial
  · exact fun _ _ _ upto closed => close_upto upto closed
  · exact fun _ _ _ _ low_p begun => begin_upto low_p begun

/-- Every position is one before the last character's or the same. -/
theorem Sorted.le_last {place : Nat} (sorted : Sorted place ahead)
    (is_last : ahead.getLast? = some p) :
    ∀ q ∈ ahead, q.position ≤ p.position := by
  obtain ⟨front, rfl⟩ := List.getLast?_eq_some_iff.mp is_last
  intro q mem
  rcases List.mem_append.mp mem with mem | mem
  · exact (List.pairwise_append.mp sorted.order).2.2 q mem p (by simp)
  · obtain rfl := List.mem_singleton.mp mem
    exact Nat.le_refl _

end Lexer

namespace Language

open Lexer Reader

variable {chars : List Placed} {place : Nat} {f : Form}

/-- What characters in order read as is nested, and everything in it stands between them. -/
theorem readWhole_confined (sorted : Sorted place chars) {bound : Nat}
    (low : ∀ p ∈ chars, p.position ≤ bound) (read : parenthesised.readWhole chars = .ok f) :
    f.Nested ∧ ∀ tag ∈ f.preorder, place ≤ tag.span.start ∧ tag.span.stop ≤ bound + 1 := by
  obtain ⟨tokens, split_eq, derives⟩ := derives_of_readWhole read
  have idle : Run.idle.Ahead place := trivial
  have nothing : Run.idle.Upto bound := trivial
  rcases scan_ordered idle sorted with ⟨found, found_eq, ordered⟩ | ⟨r, rejected⟩
  · cases found_eq.symm.trans split_eq
    have stops := scan_upto nothing low split_eq
    refine ⟨(derives.sequential place ordered).nested f (by simp), fun tag mem => ?_⟩
    -- A node begins where one of the tokens begins, and ends where one of them ends.
    obtain ⟨⟨first, mem_first, start⟩, final, mem_final, stop⟩ := derives.edges f (by simp) tag mem
    exact ⟨start ▸ ordered.after first mem_first, stop ▸ stops final mem_final⟩
  · cases rejected.symm.trans split_eq

end Language

namespace Buffer

open Lexer

/-- Both views place the characters of a span in order. -/
theorem sorted_slice {b : Buffer} {span : Span} (view : View) (inside : span.stop ≤ b.currentLength)
    (fits : b.currentLength + 1 < positionLimit) : Sorted span.start (b.slice view span) := by
  cases view with
  | committed => exact sorted_slice_committed inside fits
  | current =>
    have order := span.start_le_stop
    have length := List.length_take_le span.length (b.current.drop span.start)
    rw [slice_current b (by omega)]
    refine sorted_run ?_
    rw [Span.length] at length ⊢
    omega

end Buffer

namespace Language

open Lexer

/-- Let characters stand at positions that do not decrease and leave room for one more, whether or
not they share positions. They are read without a fault, and what they read as is nested: every node
lies inside of its parent, siblings stand one behind the other, and everything stands between the
first character and the end of the last one. Both views of a buffer place the characters of a span
so. -/
theorem readings_are_confined :
    (∀ chars : List Placed, chars.Pairwise (fun p q => p.position ≤ q.position) →
      (∀ p ∈ chars, p.position + 1 < positionLimit) →
      (∀ fault, parenthesised.readWhole chars ≠ .error (.fault fault)) ∧
      ∀ f, parenthesised.readWhole chars = .ok f → f.Nested ∧
        ∃ first last, chars.head? = some first ∧ chars.getLast? = some last ∧
          ∀ tag ∈ f.preorder, first.position ≤ tag.span.start ∧ tag.span.stop ≤ last.position + 1) ∧
    ∀ (b : Buffer) (view : View) (span : Span), span.stop ≤ b.currentLength →
      b.currentLength + 1 < positionLimit →
      (b.slice view span).Pairwise (fun p q => p.position ≤ q.position) ∧
        ∀ p ∈ b.slice view span, p.position + 1 < positionLimit := by
  refine ⟨fun chars order fits => ?_, fun b view span inside fits => ?_⟩
  · have sorted : Sorted 0 chars := ⟨fun p _ => Nat.zero_le _, order, fits⟩
    refine ⟨?_, ?_⟩
    · intro fault failed
      rcases readWhole_sorted sorted with ⟨tokens, f, -, -, ok⟩ | ⟨r, rejected⟩
      · cases ok.symm.trans failed
      · cases rejected.symm.trans failed
    · intro f read
      cases chars with
      | nil => cases read
      | cons first rest =>
        obtain ⟨last, is_last⟩ : ∃ last, (first :: rest).getLast? = some last :=
          Option.isSome_iff_exists.mp (by simp)
        have from_first : Sorted first.position (first :: rest) := by
          refine ⟨fun p mem => ?_, order, fits⟩
          rcases List.mem_cons.mp mem with rfl | mem
          · exact Nat.le_refl _
          · exact (List.pairwise_cons.mp order).1 p mem
        obtain ⟨nested, within⟩ := readWhole_confined from_first (sorted.le_last is_last) read
        exact ⟨nested, first, last, rfl, is_last, within⟩
  · have sorted := Buffer.sorted_slice view inside fits
    exact ⟨sorted.order, sorted.fits⟩

/-- The list `(ab'c)`, of which `(a` and the quote are deleted and where a blank was typed behind
`b`. -/
def shaved : Buffer :=
  ⟨[⟨'(', .deleted⟩, ⟨'a', .deleted⟩, ⟨'b', .kept⟩, ⟨' ', .inserted⟩, ⟨'\x27', .deleted⟩,
    ⟨'c', .kept⟩, ⟨')', .kept⟩]⟩

/-- What the committed view of `shaved` reads as: the first parenthesis and the quote take up no
room. -/
def shavedForm : Form :=
  .node ⟨.list, Span.sized 0 4⟩ [.leaf ⟨.atom "ab", Span.sized 0 1⟩,
    .node ⟨.quote, Span.sized 2 1⟩ [.leaf ⟨.atom "c", Span.sized 2 1⟩]]

theorem shaved_is_confined :
    parenthesised.readWhole (shaved.slice .committed (Span.sized 0 4)) = .ok shavedForm ∧
      shavedForm.Nested ∧ ∀ tag ∈ shavedForm.preorder, 0 ≤ tag.span.start ∧ tag.span.stop ≤ 4 := by
  have read : parenthesised.readWhole (shaved.slice .committed (Span.sized 0 4)) =
      .ok shavedForm := by
    decide +kernel
  obtain ⟨order, fits⟩ :=
    readings_are_confined.2 shaved .committed (Span.sized 0 4) (by decide) (by decide)
  obtain ⟨nested, first, last, is_first, is_last, within⟩ :=
    (readings_are_confined.1 _ order fits).2 shavedForm read
  have starts : (shaved.slice .committed (Span.sized 0 4)).head? = some ⟨0, '('⟩ := by decide
  have stops : (shaved.slice .committed (Span.sized 0 4)).getLast? = some ⟨3, ')'⟩ := by decide
  obtain rfl := Option.some.inj (starts.symm.trans is_first)
  obtain rfl := Option.some.inj (stops.symm.trans is_last)
  exact ⟨read, nested, within⟩

end Language

end FormEdit
