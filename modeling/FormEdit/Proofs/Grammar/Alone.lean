import FormEdit.Proofs.Grammar.Pieces

/-!
# Forms on their own

Wherever a form stands inside of others, the characters under it read as this form again, from the
position on where it starts: `Parses.alone`. The scan can begin anew at the edge of a token and stop
at another, so what lies between is split into the tokens that the whole text was split into there.

Positions are checked only where a token or a blank begins, so a text that is read can go on past
the limit of positions in a comment. None of its tokens reach there (`tokens_of_scan`), so neither
do its forms: `readWhole_alone`.
-/

namespace FormEdit

namespace Lexer

variable {run next : Run} {position last stop : Nat} {c : Char} {chars : List Char}
  {tokens complete : List (Token Mark)} {rest : List Placed}

/-! ## Tokens of texts of any length -/

theorem fits_of_stopAfter (stopped : stopAfter last (Placed.run (last + 1) chars) = .ok stop) :
    last + 1 < positionLimit := by
  cases chars with
  | nil => exact advance_eq_ok stopped
  | cons c chars =>
    have apart : last + 1 ≠ last := Nat.succ_ne_self last
    rw [Placed.run, stopAfter, if_neg apart] at stopped
    exact advance_eq_ok stopped

/-- A run that is closed comes to its token, and this ends below the limit. -/
theorem close_eq_ok (ready : run.Ready position)
    (closed : run.close (Placed.run position chars) = .ok tokens) :
    tokens = run.done ∧ ∀ t ∈ tokens, t.span.stop < positionLimit := by
  cases run with
  | atom first last content =>
    have fits : position < positionLimit := by
      obtain ⟨stop, stopped, -⟩ := bind_eq_ok.mp closed
      obtain ⟨-, rfl⟩ := ready
      exact fits_of_stopAfter stopped
    rw [close_run chars ready fits] at closed
    cases closed
    refine ⟨rfl, fun t mem => ?_⟩
    rw [(done_edges ready mem).2.1]
    exact fits
  | _ =>
    cases closed
    exact ⟨rfl, nofun⟩

theorem stop_of_start (started : start position c = some (complete, next)) :
    ∀ t ∈ complete, t.span.stop = position + 1 := by
  unfold start at started
  split at started
  next m mark =>
    cases started
    intro t mem
    rw [List.mem_singleton.mp mem]
    rfl
  next mark =>
    obtain ⟨run, -, same⟩ := Option.map_eq_some_iff.mp started
    cases same
    exact nofun

/-- What a character begins ends below the limit. -/
theorem begin_eq_ok
    (begun : begin ⟨position, c⟩ (Placed.run (position + 1) chars) = .ok (next, complete)) :
    start position c = some (complete, next) ∧ ∀ t ∈ complete, t.span.stop < positionLimit := by
  have fits : position + 1 < positionLimit := by
    obtain ⟨after, advanced, -⟩ := bind_eq_ok.mp begun
    exact advance_eq_ok (mapError_eq_ok.mp advanced)
  rcases begin_start (c := c) chars fits with
    ⟨⟨complete', next'⟩, started, found⟩ | ⟨-, r, rejected⟩
  · rw [begun] at found
    cases found
    refine ⟨started, fun t mem => ?_⟩
    rw [stop_of_start started t mem]
    exact fits
  · rw [begun] at rejected
    cases rejected

/-- A scan that ends in tokens has found those of the text, and they end below the limit. -/
theorem tokens_of_scan (ready : run.Ready position)
    (scanned : scan run (Placed.run position chars) = .ok tokens) :
    tokensFrom run position chars = some tokens ∧ ∀ t ∈ tokens, t.span.stop < positionLimit := by
  induction chars generalizing run position tokens with
  | nil =>
    have closed : run.close (Placed.run position []) = .ok tokens := mapError_eq_ok.mp scanned
    obtain ⟨rfl, bounds⟩ := close_eq_ok ready closed
    exact ⟨rfl, bounds⟩
  | cons c chars ih =>
    by_cases takes : run.takes c = true
    · simp only [Placed.run, scan, takes, if_true] at scanned
      obtain ⟨tokens_eq, bounds⟩ := ih ready.take scanned
      exact ⟨tokensFrom_cons.mpr ⟨[], _, tokens, if_pos takes, tokens_eq, rfl⟩, bounds⟩
    · simp only [Placed.run, scan, takes, Bool.false_eq_true, if_false] at scanned
      obtain ⟨done, closed, scanned⟩ := bind_eq_ok.mp scanned
      obtain ⟨⟨next, complete⟩, begun, scanned⟩ := bind_eq_ok.mp scanned
      obtain ⟨more, more_eq, whole⟩ := bind_eq_ok.mp scanned
      cases whole
      have closed : run.close (Placed.run position (c :: chars)) = .ok done :=
        mapError_eq_ok.mp closed
      obtain ⟨rfl, bounds_done⟩ := close_eq_ok ready closed
      obtain ⟨started, bounds_complete⟩ := begin_eq_ok begun
      have stepped : step run position c = some (run.done ++ complete, next) := by
        rw [step, if_neg takes, started]
        rfl
      obtain ⟨tokens_eq, bounds⟩ := ih (ready_of_step ready stepped) more_eq
      refine ⟨tokensFrom_cons.mpr ⟨_, next, more, stepped, tokens_eq, rfl⟩, fun t mem => ?_⟩
      simp only [List.mem_append] at mem
      rcases mem with (mem | mem) | mem
      · exact bounds_done t mem
      · exact bounds_complete t mem
      · exact bounds t mem

end Lexer

namespace Language

open Rose Lexer Reader

variable {position : Nat} {chars ahead piece behind : List Char}
  {frames : List (Frame Tag)} {f : Form}

/-- The characters under a form inside of others read as this form. -/
theorem Parses.alone (parses : Parses position (ahead ++ (piece ++ behind)) (plug frames f))
    (span_f : f.span = Span.sized (position + ahead.length) piece.length) :
    Parses f.span.start piece f := by
  obtain ⟨tokens, tokens_eq, derives⟩ := parses
  obtain ⟨before, own, after, split, own_derives, -⟩ := derives.hole
  rw [List.append_assoc] at split
  subst split
  -- The edges of the form are those of its first and last token, so a scan is free there.
  obtain ⟨⟨first, mem_first, start⟩, final, mem_final, stop⟩ :=
    own_derives.edges f (by simp) f.value f.value_mem_preorder
  obtain ⟨⟨i, i_eq, cut_i⟩, -⟩ := cut_of_tokens tokens_eq (t := first) (by simp [mem_first])
  obtain ⟨-, j, j_eq, cut_j⟩ := cut_of_tokens tokens_eq (t := final) (by simp [mem_final])
  have start_f : f.span.start = position + ahead.length := congrArg Span.start span_f
  have stop_f : f.span.stop = position + ahead.length + piece.length := congrArg Span.stop span_f
  have start : first.span.start = f.span.start := start
  have stop : final.span.stop = f.span.stop := stop
  obtain rfl : i = ahead.length := by omega
  obtain rfl : j = (ahead ++ piece).length := by
    rw [List.length_append]
    omega
  obtain ⟨in_before, in_own, in_after⟩ :=
    own_derives.bounds (between_of_tokensAt tokens_eq) (ordered_of_tokensAt tokens_eq).order
  rw [start_f] at in_before in_own ⊢
  rw [stop_f] at in_own in_after
  obtain ⟨-, own_eq, -⟩ := tokens_of_parts tokens_eq cut_i.ends (cut_i.piece cut_j) in_before in_own
    in_after (by
      simp only [List.length_append]
      omega)
  exact ⟨own, own_eq, own_derives⟩

/-- What a text of any length reads as is derived for it, and ends below the limit of positions
everywhere. -/
theorem parses_of_readWhole (read : parenthesised.readWhole (Placed.run position chars) = .ok f) :
    Parses position chars f ∧ ∀ tag ∈ f.preorder, tag.span.stop < positionLimit := by
  obtain ⟨tokens, scanned, derives⟩ := derives_of_readWhole read
  have idle : Run.idle.Ready position := trivial
  obtain ⟨tokens_eq, bounds⟩ := tokens_of_scan idle scanned
  refine ⟨⟨tokens, tokens_eq, derives⟩, fun tag mem => ?_⟩
  obtain ⟨-, t, mem_t, stop⟩ := derives.edges f (by simp) tag mem
  rw [← stop]
  exact bounds t mem_t

/-- A form that was read as part of a text is read again from the characters under it. -/
theorem readWhole_alone
    (read : parenthesised.readWhole (Placed.run position (ahead ++ (piece ++ behind))) =
      .ok (plug frames f))
    (span_f : f.span = Span.sized (position + ahead.length) piece.length) :
    parenthesised.readWhole (Placed.run f.span.start piece) = .ok f := by
  obtain ⟨parses, bounds⟩ := parses_of_readWhole read
  have inner : f.value ∈ (plug frames f).preorder :=
    (preorder_plug frames f).mem_iff.mpr (List.mem_append_left _ f.value_mem_preorder)
  refine (readWhole_eq_ok ?_).mpr (parses.alone span_f)
  have stop_f : f.span.stop = f.span.start + piece.length := by
    rw [span_f]
    rfl
  rw [← stop_f]
  exact bounds f.value inner

end Language

end FormEdit
