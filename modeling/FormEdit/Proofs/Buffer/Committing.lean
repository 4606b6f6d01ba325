import FormEdit.Proofs.Buffer.Slicing

/-!
# What a commit settles

Committing a span settles what lies between its first and its last current character and nothing
else (`exists_settled`). Settled characters are text without changes (`settle_eq_ofText`), so there
is nothing left in the span that a second commit could settle.
-/

namespace FormEdit

namespace Buffer

variable {b : Buffer} {span : Span} {before mid behind cells : List Cell}

theorem cells_ofText (text : List Char) :
    (ofText (String.ofList text)).cells = text.map (⟨·, .kept⟩) := by
  rw [ofText, String.toList_ofList]

/-- Settled cells are the text that they show, without changes. -/
theorem settle_eq_ofText (cells : List Cell) :
    settle cells = (ofText (String.ofList (shown cells))).cells := by
  rw [cells_ofText, settle, shown, List.map_map]
  rfl

theorem settle_settle (cells : List Cell) : settle (settle cells) = settle cells := by
  rw [settle_eq_ofText (settle cells), shown_settle, settle_eq_ofText]

theorem settle_current (cells : List Cell) : ∀ c ∈ settle cells, c.isCurrent = true :=
  fun c mem => isCurrent_of_kept (kept_settle c mem)

theorem commit_of_isEmpty (empty : span.isEmpty = true) : b.commit span = b := by
  rw [commit, if_pos empty]

theorem Commits.shown_mid (commits : b.Commits span before mid behind) :
    shown mid = pieceOf b.current span := by
  have start := commits.count
  have stop := commits.count_mid
  have order := span.start_le_stop
  rw [current_eq, commits.cells, shown_append, shown_append]
  refine (pieceOf_append ?_ ?_).symm
  · rw [length_shown, start]
  · rw [List.length_append, length_shown, length_shown, start, stop, Span.length]
    omega

/-- Another commit of the same span finds nothing to settle. -/
theorem Commits.again (commits : b.Commits span before mid behind) :
    (b.commit span).commit span = b.commit span := by
  have order := span.start_le_stop
  have stop : currentCount (before ++ settle mid) = span.stop := by
    rw [currentCount_append, currentCount_settle, commits.count, commits.count_mid, Span.length]
    omega
  have some : settle mid ≠ [] := by
    have positive := currentCount_pos_of_startsCurrent commits.starts commits.some
    rintro none
    rw [← currentCount_settle, none, currentCount_nil] at positive
    exact Nat.lt_irrefl 0 positive
  have starts : StartsCurrent (settle mid) :=
    fun c head => settle_current mid c (List.mem_of_mem_head? head)
  have ends : EndsCurrent (settle mid) :=
    fun c last => settle_current mid c (List.mem_of_getLast? last)
  have again := @commit_append _ _ behind _ commits.count stop some starts ends
  rw [settle_settle, List.append_assoc] at again
  rw [commits.committed, again]

theorem commit_commit (inside : span.stop ≤ b.currentLength) :
    (b.commit span).commit span = b.commit span := by
  by_cases nonempty : span.start < span.stop
  · obtain ⟨before, mid, behind, commits⟩ := exists_commits b span nonempty inside
    exact commits.again
  · have order := span.start_le_stop
    have empty : span.isEmpty = true := by
      rw [Span.isEmpty, beq_iff_eq]
      omega
    rw [commit_of_isEmpty empty, commit_of_isEmpty empty]

/-- What is stored from the first to the last current character of a span becomes text without
changes, and what is stored ahead of it and behind it stays, with the deleted characters at the ends
of the span. -/
theorem exists_settled (nonempty : span.start < span.stop) (inside : span.stop ≤ b.currentLength) :
    ∃ before mid behind, b.cells = before ++ mid ++ behind ∧ currentCount before = span.start ∧
      shown mid = pieceOf b.current span ∧ StartsCurrent mid ∧ EndsCurrent mid ∧
      (b.commit span).cells = before ++ (ofText (String.ofList (pieceOf b.current span))).cells ++
        behind := by
  obtain ⟨before, mid, behind, commits⟩ := exists_commits b span nonempty inside
  refine ⟨before, mid, behind, ?_, commits.count, commits.shown_mid, commits.starts, commits.ends,
    ?_⟩
  · rw [commits.cells, List.append_assoc]
  · rw [commits.committed, settle_eq_ofText, commits.shown_mid, List.append_assoc]

/-- Committing a span of the text leaves the current text as it is. In storage, the stretch from the
first to the last current character of the span gives way to these characters without any changes,
and all other cells stay. An empty span commits nothing, a second commit finds nothing left to do,
and committing everything leaves the current text without changes. The log of the buffer is
committed along with it. -/
theorem commit_settles_what_lies_inside (b : Buffer) {span : Span}
    (inside : span.stop ≤ b.currentLength) :
    (b.commit span).current = b.current ∧
    (span.start < span.stop → ∃ before mid behind, b.cells = before ++ mid ++ behind ∧
      currentCount before = span.start ∧ shown mid = pieceOf b.current span ∧
      StartsCurrent mid ∧ EndsCurrent mid ∧
      (b.commit span).cells =
        before ++ (ofText (String.ofList (pieceOf b.current span))).cells ++ behind) ∧
    (span.isEmpty = true → b.commit span = b) ∧
    (b.commit span).commit span = b.commit span ∧
    b.commitAll = ofText (String.ofList b.current) ∧
    (b.cells.length ≤ positionLimit →
      b.log.commit span = (b.commit span).log ∧ b.log.commitAll = b.commitAll.log) := by
  refine ⟨commit_current b span, fun nonempty => exists_settled nonempty inside, commit_of_isEmpty,
    commit_commit inside, ?_, fun fits => ⟨Log.commit_log b span fits, Log.commitAll_log b⟩⟩
  rw [commitAll, settle_eq_ofText, current_eq]

/-- Of the three deleted characters, the one between current characters leaves storage. -/
theorem frayed_keeps_its_ends :
    3 ≤ frayed.currentLength ∧ 0 < 3 ∧ frayed.cells.length ≤ positionLimit ∧
    (∃ before mid behind, frayed.cells = before ++ mid ++ behind ∧ shown mid = "abc".toList ∧
      (frayed.commit ⟨0, 3, by decide⟩).cells = before ++ (ofText "abc").cells ++ behind) ∧
    (frayed.commit ⟨0, 3, by decide⟩).current = "abc".toList ∧
    (frayed.log.commit ⟨0, 3, by decide⟩).marked = "Dp_a_b_cDz".toList ∧
    frayed.commitAll = ofText "abc" := by
  have inside : (⟨0, 3, by decide⟩ : Span).stop ≤ frayed.currentLength := by decide
  have short : frayed.cells.length ≤ positionLimit := by decide
  obtain ⟨current, settled, -, -, all, logs⟩ := commit_settles_what_lies_inside frayed inside
  obtain ⟨before, mid, behind, cells_eq, -, piece, -, -, committed⟩ := settled (by decide)
  refine ⟨inside, by decide, short, ⟨before, mid, behind, cells_eq, piece.trans (by decide), ?_⟩,
    current.trans (by decide), ?_, all.trans (by decide)⟩
  · exact committed
  · rw [(logs short).1]
    decide

end Buffer

end FormEdit
