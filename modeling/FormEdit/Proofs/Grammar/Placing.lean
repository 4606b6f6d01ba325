import FormEdit.Proofs.Grammar.Holes

/-!
# What the positions of characters matter for

Characters that stand in order have tokens of the same kinds and contents wherever they are placed,
gaps and shared positions included (`scan_placed`), and so they read as a form of the same shape:
only its spans depend on the positions (`readWhole_placed`).
-/

namespace FormEdit

/-- What a token is, apart from where it stands. -/
def Token.lexeme {κ : Type} (t : Token κ) : κ × String := (t.kind, t.content)

namespace Lexer

variable {run run' next : Run} {p : Placed} {ahead : List Placed} {place position : Nat}
  {tokens : List (Token Mark)}

/-- A run without its positions. -/
def Run.unplaced : Run → Run
  | .atom _ _ content => .atom 0 0 content
  | run => run

theorem takes_unplaced (same : run.unplaced = run'.unplaced) (c : Char) :
    run.takes c = run'.takes c := by
  cases run <;> cases run' <;> first | rfl | cases same

theorem take_unplaced (same : run.unplaced = run'.unplaced) :
    (run.take p).unplaced = (run'.take ⟨position, p.char⟩).unplaced := by
  cases run <;> cases run' <;> first | rfl | cases same
  rfl

theorem done_unplaced (same : run.unplaced = run'.unplaced) :
    run.done.map Token.lexeme = run'.done.map Token.lexeme := by
  cases run <;> cases run' <;> first | rfl | cases same
  rfl

theorem close_lexeme (closed : run.close ahead = .ok tokens) :
    tokens.map Token.lexeme = run.done.map Token.lexeme := by
  cases run with
  | atom first last content =>
    obtain ⟨stop, -, closed⟩ := bind_eq_ok.mp closed
    obtain ⟨span, -, closed⟩ := bind_eq_ok.mp closed
    cases closed
    rfl
  | _ =>
    cases closed
    rfl

theorem single_lexeme {m : Mark} (made : single m p ahead = .ok tokens) :
    tokens.map Token.lexeme = [(m, p.char.toString)] := by
  obtain ⟨stop, -, made⟩ := bind_eq_ok.mp made
  obtain ⟨span, -, made⟩ := bind_eq_ok.mp made
  cases made
  rfl

theorem opens_unplaced {c : Char} (opened : opens position c = some next) (position' : Nat) :
    ∃ next', opens position' c = some next' ∧ next'.unplaced = next.unplaced := by
  unfold opens at opened ⊢
  split_ifs at opened ⊢ <;> cases opened <;> exact ⟨_, rfl, rfl⟩

/-- Characters that stand in order have the tokens that they have at consecutive positions. -/
theorem scan_placed (same : run.unplaced = run'.unplaced) (is_ahead : run.Ahead place)
    (sorted : Sorted place ahead)
    (tokens_eq : tokensFrom run' position (ahead.map Placed.char) = some tokens) :
    ∃ tokens', scan run ahead = .ok tokens' ∧
      tokens'.map Token.lexeme = tokens.map Token.lexeme := by
  induction ahead generalizing run run' place position tokens with
  | nil =>
    obtain ⟨done, stop, closed, -, -⟩ := close_sorted is_ahead sorted
    cases tokens_eq
    refine ⟨done, by rw [scan, closed]; rfl, ?_⟩
    exact (close_lexeme closed).trans (done_unplaced same)
  | cons p ahead ih =>
    have fits := sorted.fits p (by simp)
    have low := sorted.after p (by simp)
    obtain ⟨order, order'⟩ := List.pairwise_cons.mp sorted.order
    have behind : Sorted p.position ahead :=
      ⟨order, order', fun q listed => sorted.fits q (by simp [listed])⟩
    obtain ⟨complete, next, more, stepped, more_eq, rfl⟩ := tokensFrom_cons.mp tokens_eq
    rcases step_cases stepped with
      ⟨takes, rfl, rfl⟩ | ⟨takes, m, mark, rfl, rfl⟩ | ⟨takes, mark, opened, rfl⟩
    · rw [← takes_unplaced same] at takes
      obtain ⟨is_ahead', -⟩ := take_ahead is_ahead low fits
      obtain ⟨tokens', scanned, lexemes⟩ := ih (take_unplaced same) is_ahead' behind more_eq
      refine ⟨tokens', ?_, lexemes⟩
      rw [scan, if_pos takes, scanned]
    · rw [← takes_unplaced same] at takes
      obtain ⟨done, stop, closed, -, -⟩ := close_sorted is_ahead sorted
      obtain ⟨token, stop', single_eq, sorted', -⟩ := single_sorted m behind fits
      have idle : Run.idle.Ahead stop' := trivial
      obtain ⟨tokens', scanned, lexemes⟩ := ih rfl idle sorted' more_eq
      refine ⟨done ++ [token] ++ tokens', ?_, ?_⟩
      · simp only [scan, takes, Bool.false_eq_true, if_false, closed, mapError_ok, ok_bind,
          begin_mark ahead fits mark, single_eq, pure_eq_ok, scanned]
      · rw [List.map_append, List.map_append, List.map_append, List.map_append, lexemes,
          close_lexeme closed, done_unplaced same, single_lexeme single_eq]
        rfl
    · rw [← takes_unplaced same] at takes
      obtain ⟨done, stop, closed, -, -⟩ := close_sorted is_ahead sorted
      obtain ⟨next', opened', same'⟩ := opens_unplaced opened p.position
      obtain ⟨is_ahead', -⟩ := opens_ahead opened' fits
      obtain ⟨tokens', scanned, lexemes⟩ := ih same' is_ahead' behind more_eq
      refine ⟨done ++ [] ++ tokens', ?_, ?_⟩
      · simp only [scan, takes, Bool.false_eq_true, if_false, closed, mapError_ok, ok_bind,
          begin_run ahead fits mark opened', pure_eq_ok, scanned]
      · rw [List.append_nil, List.map_append, List.map_append, lexemes, close_lexeme closed,
          done_unplaced same]

end Lexer

namespace Reader

open Lexer

variable {ts ts' rest : List (Token Mark)} {fs : List Form}

/-- Tokens that differ only in where they stand are those of forms that differ only in their
spans. -/
theorem Derives.placed (derives : Derives ts fs rest)
    (ordered : ts'.Pairwise fun a b => a.span.stop ≤ b.span.start)
    (lexemes : ts'.map Token.lexeme = ts.map Token.lexeme) :
    ∃ fs' rest', Derives ts' fs' rest' ∧ fs'.map Form.shape = fs.map Form.shape ∧
      rest'.map Token.lexeme = rest.map Token.lexeme := by
  induction derives generalizing ts' with
  | nil => exact ⟨[], ts', .nil, rfl, lexemes⟩
  | @atom token ts rest fs is_atom more ih =>
    obtain ⟨token', us, rfl, same, lexemes⟩ := List.map_eq_cons_iff.mp lexemes
    obtain ⟨kind_eq, content_eq⟩ := Prod.mk.injEq .. ▸ same
    obtain ⟨fs', rest', derives', shapes, rests⟩ := ih (List.pairwise_cons.mp ordered).2 lexemes
    refine ⟨_ :: fs', rest', .atom (kind_eq.trans is_atom) derives', ?_, rests⟩
    rw [List.map_cons, List.map_cons, shapes, content_eq]
    rfl
  | @quote token ts mid rest f fs span is_quote quoted start stop more quoted_ih ih =>
    obtain ⟨token', us, rfl, same, lexemes⟩ := List.map_eq_cons_iff.mp lexemes
    obtain ⟨kind_eq, -⟩ := Prod.mk.injEq .. ▸ same
    obtain ⟨after, ordered⟩ := List.pairwise_cons.mp ordered
    obtain ⟨fs₁, mid', quoted', shapes₁, mids⟩ := quoted_ih ordered lexemes
    obtain ⟨f', rfl, shape_eq⟩ := List.map_eq_singleton_iff.mp shapes₁
    obtain ⟨own, rfl, -⟩ := quoted'.own
    obtain ⟨fs', rest', more', shapes, rests⟩ := ih (List.pairwise_append.mp ordered).2.1 mids
    -- The quoted form ends where one of the tokens behind the quote does.
    obtain ⟨-, last, mem, last_stop⟩ :=
      quoted'.edges f' (by simp) f'.value (Rose.value_mem_preorder f')
    have order : token'.span.start ≤ f'.span.stop := by
      have behind := after last mem
      have quote_order := token'.span.start_le_stop
      have last_order := last.span.start_le_stop
      rw [Form.span, ← last_stop]
      omega
    refine ⟨.node ⟨.quote, ⟨token'.span.start, f'.span.stop, order⟩⟩ [f'] :: fs', rest',
      .quote (kind_eq.trans is_quote) quoted' rfl rfl more', ?_, rests⟩
    rw [List.map_cons, List.map_cons, shapes]
    simp only [Form.shape, Rose.map_node, List.map_cons, List.map_nil] at shape_eq ⊢
    rw [shape_eq]
  | @list opening closing ts mid rest gs fs span opens items closes start stop more items_ih ih =>
    obtain ⟨opening', us, rfl, same, lexemes⟩ := List.map_eq_cons_iff.mp lexemes
    obtain ⟨kind_eq, -⟩ := Prod.mk.injEq .. ▸ same
    obtain ⟨after, ordered⟩ := List.pairwise_cons.mp ordered
    obtain ⟨gs', behind, items', shapes₁, behinds⟩ := items_ih ordered lexemes
    obtain ⟨closing', mid', rfl, same', mids⟩ := List.map_eq_cons_iff.mp behinds
    obtain ⟨kind_eq', -⟩ := Prod.mk.injEq .. ▸ same'
    obtain ⟨own, rfl, -⟩ := items'.own
    have from_closing := (List.pairwise_append.mp ordered).2.1
    obtain ⟨fs', rest', more', shapes, rests⟩ := ih (List.pairwise_cons.mp from_closing).2 mids
    have order : opening'.span.start ≤ closing'.span.stop := by
      have behind := after closing' (by simp)
      have opening_order := opening'.span.start_le_stop
      have closing_order := closing'.span.start_le_stop
      omega
    refine ⟨.node ⟨.list, ⟨opening'.span.start, closing'.span.stop, order⟩⟩ gs' :: fs', rest',
      .list (kind_eq.trans opens) items' (kind_eq'.trans closes) rfl rfl more', ?_, rests⟩
    have inner : gs'.map (Rose.map Tag.kind) = gs.map (Rose.map Tag.kind) := shapes₁
    rw [List.map_cons, List.map_cons, shapes]
    simp only [Form.shape, Rose.map_node, inner]

end Reader

namespace Language

open Lexer

/-- Characters that stand in order read as a form of the shape that they have at consecutive
positions. -/
theorem readWhole_placed {chars : List Placed} {place position : Nat} {f : Form}
    (sorted : Sorted place chars) (parses : Parses position (chars.map Placed.char) f) :
    ∃ g, parenthesised.readWhole chars = .ok g ∧ g.shape = f.shape := by
  obtain ⟨tokens, tokens_eq, derives⟩ := parses
  have idle : Run.idle.Ahead place := trivial
  obtain ⟨tokens', scanned, lexemes⟩ := scan_placed rfl idle sorted tokens_eq
  have ordered : Ordered place tokens' := by
    rcases scan_ordered idle sorted with ⟨found, scanned', ordered⟩ | ⟨r, rejected⟩
    · rw [scanned] at scanned'
      cases scanned'
      exact ordered
    · rw [scanned] at rejected
      cases rejected
  obtain ⟨fs, rest, derives', shapes, rests⟩ := derives.placed ordered.order lexemes
  obtain ⟨g, rfl, shape_eq⟩ := List.map_eq_singleton_iff.mp shapes
  obtain rfl := List.map_eq_nil_iff.mp rests
  exact ⟨g, readWhole_of_derives scanned derives', shape_eq⟩

end Language

end FormEdit
