import FormEdit.Proofs.Grammar.Splitting

/-!
# What tokens cover

The tokens of a text stand one behind the other and cover all of it but its blanks and comments.
Which characters are comments is said without the scanner, by `EndsInComment`: a comment begins with
a semicolon that no character of an atom stands right ahead of, and ends with the line. A text has
no tokens only if it has a bad character outside of comments, and the first of these is the one that
is reported.
-/

namespace FormEdit

theorem Placed.number_run {position : Nat} {text : List Char}
    (fits : position + text.length < positionLimit) :
    Placed.number position text = .ok (Placed.run position text) := by
  induction text generalizing position with
  | nil => rfl
  | cons c text ih =>
    rw [List.length_cons] at fits
    have here : position < positionLimit := by omega
    rw [Placed.number, if_pos here, ih (by omega)]
    rfl

namespace Lexer

open Mode

/-- The tokens of a text from a position on: what they cover of it is all but its blanks and
comments. -/
structure Tiles (offset : Nat) (text : List Char) (tokens : List (Token Mark)) : Prop where
  nonempty : ∀ t ∈ tokens, t.span.start < t.span.stop
  within : ∀ t ∈ tokens, offset ≤ t.span.start ∧ t.span.stop ≤ offset + text.length
  apart : tokens.Pairwise fun s t => s.span.stop ≤ t.span.start
  content : ∀ t ∈ tokens, t.content =
    String.ofList ((text.drop (t.span.start - offset)).take t.span.length)
  covered : ∀ before c after, text = before ++ c :: after →
    ((∃ t ∈ tokens, t.span.start ≤ offset + before.length ∧ offset + before.length < t.span.stop) ↔
      Text.isBlank c = false ∧ ¬EndsInComment (before ++ [c]))
  /-- An atom goes on as far as it can to both sides. -/
  atoms : ∀ t ∈ tokens, t.kind = .atom → ∃ before own after, text = before ++ (own ++ after) ∧
    t.span = Span.sized (offset + before.length) own.length ∧
    own.head? ≠ some ';' ∧ (∀ c ∈ own, inAtom c = true) ∧
    (∀ c, before.getLast? = some c → inAtom c = false) ∧ NotInAtom after
  marks : ∀ before c after m, text = before ++ c :: after → markOf c = some m →
    ¬EndsInComment (before ++ [c]) → ⟨m, c.toString, Span.sized (offset + before.length) 1⟩ ∈ tokens
  marked : ∀ t ∈ tokens, t.kind ≠ .atom → ∃ before c after, text = before ++ c :: after ∧
    markOf c = some t.kind ∧ t.content = c.toString ∧ t.span = Span.sized (offset + before.length) 1

/-- A bad character that is in no comment stands behind the first characters of a text. -/
def StrayBehind (text before : List Char) : Prop :=
  ∃ c after, text = before ++ c :: after ∧ isBad c = true ∧ ¬EndsInComment (before ++ [c])

variable {offset : Nat} {text before after : List Char} {c : Char} {p q : Placed}
  {ahead own behind front tail more chars rest : List Placed} {found tokens : List (Token Mark)}
      {t : Token Mark}

/-! ## A character and its piece -/

theorem cons_part (part : q :: more = front ++ p :: tail) :
    ∃ more', front ++ [p] = q :: more' ∧ more = more' ++ tail := by
  cases front with
  | nil =>
    obtain ⟨rfl, rfl⟩ := List.cons.inj part
    exact ⟨[], rfl, rfl⟩
  | cons r front =>
    obtain ⟨rfl, rfl⟩ := List.cons.inj part
    exact ⟨front ++ [p], rfl, by simp⟩

theorem single_part (part : [q] = front ++ p :: tail) : q = p ∧ front = [] := by
  cases front with
  | nil => exact ⟨(List.cons.inj part).1, rfl⟩
  | cons r front => simp at part

/-- What the scan is inside of at a character of a piece, and what tokens the piece has. -/
theorem Amid.char_cases (amid : Amid ahead own behind found tokens)
    (part : own = front ++ p :: tail) :
    (free.after ((ahead ++ (front ++ [p])).map Placed.char) = .comment ∧ found = []) ∨
    (free.after ((ahead ++ (front ++ [p])).map Placed.char) = .free ∧ Text.isBlank p.char = true ∧
      found = []) ∨
    (free.after ((ahead ++ (front ++ [p])).map Placed.char) = .free ∧ ∃ m, markOf p.char = some m ∧
      found = [Token.over m p []]) ∨
    (free.after ((ahead ++ (front ++ [p])).map Placed.char) = .atom ∧ inAtom p.char = true ∧
      ∃ q more, own = q :: more ∧ found = [Token.over .atom q more]) := by
  obtain ⟨piece, fresh, -⟩ := amid
  cases piece with
  | blank is_blank =>
    obtain ⟨rfl, rfl⟩ := single_part part
    rw [List.nil_append, fresh.after, after_other (inAtom_of_blank is_blank)]
    exact .inr (.inl ⟨rfl, is_blank, rfl⟩)
  | comment opens one_line ends =>
    obtain ⟨line, front_eq, rfl⟩ := cons_part part
    rw [front_eq, fresh.after]
    exact .inl ⟨after_comment opens fun q mem => one_line q (List.mem_append_left _ mem), rfl⟩
  | mark is_mark =>
    obtain ⟨rfl, rfl⟩ := single_part part
    rw [List.nil_append, fresh.after, after_other (inAtom_of_mark is_mark)]
    exact .inr (.inr (.inl ⟨rfl, _, is_mark, rfl⟩))
  | atom plain all ends =>
    obtain ⟨more', front_eq, rfl⟩ := cons_part part
    rw [front_eq, fresh.after]
    refine .inr (.inr (.inr ⟨after_atom plain fun q mem => all q ?_, all p ?_, _, _, rfl, rfl⟩))
    · rw [← List.cons_append]
      exact List.mem_append_left _ mem
    · rw [part]
      simp

/-- A token covers the characters that it is made of. -/
theorem over_covers (kind : Mark) (rising : Rising (q :: more)) (mem : p ∈ q :: more) :
    (Token.over kind q more).span.start ≤ p.position ∧
      p.position < (Token.over kind q more).span.stop := by
  rw [stop_over kind rising.le_last]
  constructor
  · rcases List.mem_cons.mp mem with rfl | mem
    · exact Nat.le_refl _
    · exact Nat.le_of_lt ((List.pairwise_cons.mp rising.order).1 p mem)
  · apply Nat.lt_succ_of_le
    rcases List.eq_nil_or_concat more with rfl | ⟨front, last, rfl⟩
    · obtain rfl := List.mem_singleton.mp mem
      exact Nat.le_refl _
    · rw [List.concat_eq_append, ← List.cons_append] at mem rising
      rw [List.concat_eq_append, List.getLast?_concat, Option.getD_some]
      rcases List.mem_append.mp mem with mem | mem
      · have order := (List.pairwise_append.mp rising.order).2.2
        exact Nat.le_of_lt (order p mem last (List.mem_singleton.mpr rfl))
      · obtain rfl := List.mem_singleton.mp mem
        exact Nat.le_refl _

/-- A character that is split off is in a comment or a blank, or it is a token or in an atom. -/
theorem Splits.char_cases (splits : Splits chars tokens rest) (rising : Rising chars)
    (same : chars = ahead ++ p :: behind) (inside : rest.length ≤ behind.length) :
    free.after ((ahead ++ [p]).map Placed.char) = .comment ∨ Text.isBlank p.char = true ∨
    (∃ m, markOf p.char = some m ∧ Token.over m p [] ∈ tokens) ∨
    inAtom p.char = true ∧ ∃ t ∈ tokens, t.span.start ≤ p.position ∧ p.position < t.span.stop := by
  obtain ⟨ahead, front, tail, behind, found, rfl, rfl, amid⟩ := splits.piece_at same inside
  have at_char := amid.char_cases rfl
  rw [← List.append_assoc] at at_char
  rcases at_char with ⟨comment, -⟩ | ⟨-, blank, -⟩ | ⟨-, m, mark, rfl⟩ | ⟨-, atom, q, more, own_eq,
    rfl⟩
  · exact .inl comment
  · exact .inr (.inl blank)
  · exact .inr (.inr (.inl ⟨m, mark, amid.listed List.mem_cons_self⟩))
  · have whole : Rising (ahead ++ ((front ++ p :: tail) ++ behind)) := by simpa [same] using rising
    refine .inr (.inr (.inr ⟨atom, _, amid.listed List.mem_cons_self, over_covers .atom ?_ ?_⟩))
    · rw [← own_eq]
      exact whole.right.left
    · rw [← own_eq]
      simp

/-! ## The text of a token -/

/-- Where a character of a text stands among the characters at consecutive positions. -/
theorem run_around (offset : Nat) (before : List Char) (c : Char) (after : List Char) :
    Placed.run offset (before ++ c :: after) = Placed.run offset before ++
      ⟨offset + before.length, c⟩ :: Placed.run (offset + before.length + 1) after :=
  Placed.run_append offset before (c :: after)

theorem last_run (p : Placed) (text : List Char) :
    ((Placed.run (p.position + 1) text).getLast?.getD p).position = p.position + text.length := by
  induction text generalizing p with
  | nil => rfl
  | cons c text ih =>
    have later :
        ((Placed.run (p.position + 1 + 1) text).getLast?.getD ⟨p.position + 1, c⟩).position =
      p.position + 1 + text.length := ih ⟨p.position + 1, c⟩
    rw [Placed.run, List.getLast?_cons, Option.getD_some, List.length_cons]
    omega

/-- A token over characters at consecutive positions. -/
theorem over_run {position : Nat} (kind : Mark) (same : p :: more = Placed.run position text) :
    Token.over kind p more = ⟨kind, String.ofList text, Span.sized position text.length⟩ := by
  cases text with
  | nil => cases same
  | cons c text =>
    obtain ⟨rfl, rfl⟩ := List.cons.inj same
    have last : ((Placed.run (position + 1) text).getLast?.getD ⟨position, c⟩).position =
      position + text.length := last_run ⟨position, c⟩ text
    have length : position + text.length + 1 - position = (c :: text).length := by
      rw [List.length_cons]
      omega
    rw [Token.over, Placed.text, List.map_cons, map_char_run, last, length]

theorem over_single (m : Mark) (p : Placed) :
    Token.over m p [] = ⟨m, p.char.toString, Span.sized p.position 1⟩ := by
  have alone : [p] = Placed.run p.position [p.char] := rfl
  rw [over_run m alone, ← String.singleton_eq_ofList]
  rfl

/-- The text that a token stands for, between what is ahead of it and what is behind. -/
structure StandsFor (t : Token Mark) (offset : Nat) (before own after : List Char) : Prop where
  nonempty : own ≠ []
  content : t.content = String.ofList own
  span : t.span = Span.sized (offset + before.length) own.length
  outside : ∀ front c tail, own = front ++ c :: tail →
    Text.isBlank c = false ∧ ¬EndsInComment (before ++ (front ++ [c]))
  kinds : (∃ c, own = [c] ∧ markOf c = some t.kind) ∨
    (t.kind = .atom ∧ own.head? ≠ some ';' ∧ (∀ c ∈ own, inAtom c = true) ∧
      (∀ c, before.getLast? = some c → inAtom c = false) ∧ NotInAtom after)

theorem token_outside {position : Nat} {own : List Char}
    (amid : Amid ahead (Placed.run position own) behind found tokens) (mem : t ∈ found)
    (front : List Char) (c : Char) (tail : List Char) (part : own = front ++ c :: tail) :
    Text.isBlank c = false ∧ ¬EndsInComment (ahead.map Placed.char ++ (front ++ [c])) := by
  have placed : Placed.run position own = Placed.run position front ++
      ⟨position + front.length, c⟩ :: Placed.run (position + front.length + 1) tail := by
    rw [part, run_around]
  have at_char := amid.char_cases placed
  rw [List.map_append, List.map_append, map_char_run, List.map_singleton] at at_char
  rw [endsInComment_iff]
  rcases at_char with ⟨-, rfl⟩ | ⟨-, -, rfl⟩ | ⟨mode, m, mark, -⟩ | ⟨mode, atom, -⟩
  · cases mem
  · cases mem
  · refine ⟨isBlank_of_mark mark, ?_⟩
    rw [mode]
    exact Mode.noConfusion
  · refine ⟨isBlank_of_inAtom atom, ?_⟩
    rw [mode]
    exact Mode.noConfusion

theorem exists_text (splits : Splits (Placed.run offset text) tokens rest) (mem : t ∈ tokens) :
    ∃ before own after, text = before ++ (own ++ after) ∧ StandsFor t offset before own after := by
  obtain ⟨ahead, placed, behind, found, same, mem, amid⟩ := splits.piece_of_token mem
  obtain ⟨before, later, rfl, rfl, later_eq⟩ := Placed.run_eq_append same
  obtain ⟨own, after, rfl, rfl, rfl⟩ := Placed.run_eq_append later_eq.symm
  have outside := token_outside amid mem
  rw [map_char_run] at outside
  refine ⟨before, own, after, rfl, ?_⟩
  obtain ⟨piece, fresh, -⟩ := amid
  generalize own_eq : Placed.run (offset + before.length) own = placed at piece fresh
  have own_chars := congrArg (List.map Placed.char) own_eq
  rw [map_char_run] at own_chars
  cases piece with
  | blank is_blank => cases mem
  | comment opens one_line ends => cases mem
  | @mark p m _ is_mark =>
    obtain rfl := List.mem_singleton.mp mem
    have filled := over_run m own_eq.symm
    exact ⟨by simp [own_chars], congrArg Token.content filled, congrArg Token.span filled, outside,
      .inl ⟨p.char, own_chars, is_mark⟩⟩
  | @atom p more _ plain all ends =>
    obtain rfl := List.mem_singleton.mp mem
    have filled := over_run .atom own_eq.symm
    refine ⟨by simp [own_chars], congrArg Token.content filled, congrArg Token.span filled, outside,
      .inr ⟨rfl, ?_, ?_, ?_, ?_⟩⟩
    · rw [own_chars, List.map_cons, List.head?_cons]
      exact fun same => plain (Option.some.inj same)
    · rw [own_chars]
      simpa using all
    · intro c last
      rw [← map_char_run offset before, List.getLast?_map] at last
      obtain ⟨q, is_last, rfl⟩ := Option.map_eq_some_iff.mp last
      exact fresh.apart (all p List.mem_cons_self) is_last
    · intro c head
      rw [← map_char_run (offset + before.length + own.length) after, List.head?_map] at head
      obtain ⟨q, is_head, rfl⟩ := Option.map_eq_some_iff.mp head
      exact ends q is_head

/-! ## The tokens of a text -/

/-- A character of a text that is split is in a comment or a blank, or it is a token or in an
atom. -/
theorem Splits.text_cases (splits : Splits (Placed.run offset text) tokens rest)
    (fits : offset + text.length < positionLimit) (same : text = before ++ c :: after)
    (inside : rest.length ≤ after.length) :
    EndsInComment (before ++ [c]) ∨ Text.isBlank c = true ∨
    (∃ m, markOf c = some m ∧ ⟨m, c.toString, Span.sized (offset + before.length) 1⟩ ∈ tokens) ∨
    inAtom c = true ∧ ∃ t ∈ tokens, t.span.start ≤ offset + before.length ∧
      offset + before.length < t.span.stop := by
  have rising := rising_run fits
  have at_char := splits.char_cases rising (by rw [same, run_around]) (by rwa [Placed.length_run])
  rw [List.map_append, map_char_run, List.map_singleton, ← endsInComment_iff] at at_char
  simpa only [over_single] using at_char

/-- A character that a token covers is no blank and in no comment. -/
theorem StandsFor.covers {first own last : List Char} (stands : StandsFor t offset first own last)
    (same : first ++ (own ++ last) = before ++ c :: after)
    (start : t.span.start ≤ offset + before.length) (stop : offset + before.length < t.span.stop) :
    Text.isBlank c = false ∧ ¬EndsInComment (before ++ [c]) := by
  rw [stands.span] at start stop
  simp only [Span.sized] at start stop
  rcases append_cases same with ⟨tail, rfl, -⟩ | ⟨front, rfl, own_eq⟩
  · -- The character would be ahead of the token.
    rw [List.length_append, List.length_cons] at start
    omega
  · rcases append_cases own_eq with ⟨tail, own_eq, -⟩ | ⟨front, rfl, -⟩
    · rw [List.append_assoc]
      exact stands.outside front c tail own_eq
    · -- The character would be behind the token.
      rw [List.length_append, List.length_append] at stop
      omega

theorem tiles_of_splits (fits : offset + text.length < positionLimit)
    (splits : Splits (Placed.run offset text) tokens []) (ordered : Ordered offset tokens) :
    Tiles offset text tokens where
  nonempty t mem := by
    obtain ⟨before, own, after, rfl, stands⟩ := exists_text splits mem
    have filled := List.length_pos_iff.mpr stands.nonempty
    rw [stands.span]
    exact Nat.lt_add_of_pos_right filled
  within t mem := by
    obtain ⟨before, own, after, rfl, stands⟩ := exists_text splits mem
    rw [stands.span, List.length_append, List.length_append]
    simp only [Span.sized]
    omega
  apart := ordered.order
  content t mem := by
    obtain ⟨before, own, after, rfl, stands⟩ := exists_text splits mem
    have length : (Span.sized (offset + before.length) own.length).length = own.length :=
      Nat.add_sub_cancel_left ..
    have place : (Span.sized (offset + before.length) own.length).start - offset = before.length :=
      Nat.add_sub_cancel_left ..
    rw [stands.content, stands.span, length, place, List.drop_left, List.take_left]
  covered before c after same := by
    constructor
    · rintro ⟨t, mem, start, stop⟩
      obtain ⟨first, own, last, rfl, stands⟩ := exists_text splits mem
      exact stands.covers same start stop
    · rintro ⟨solid, outside⟩
      rcases splits.text_cases fits same (Nat.zero_le _) with
        comment | blank | ⟨m, -, mem⟩ | ⟨-, covered⟩
      · exact absurd comment outside
      · rw [solid] at blank
        cases blank
      · exact ⟨_, mem, Nat.le_refl _, Nat.lt_succ_self _⟩
      · exact covered
  atoms t mem kind := by
    obtain ⟨before, own, after, rfl, stands⟩ := exists_text splits mem
    rcases stands.kinds with ⟨c, -, mark⟩ | ⟨-, maximal⟩
    · rw [kind] at mark
      exact absurd mark (markOf_ne_atom c)
    · exact ⟨before, own, after, rfl, stands.span, maximal⟩
  marks before c after m same mark outside := by
    rcases splits.text_cases fits same (Nat.zero_le _) with
      comment | blank | ⟨m', mark', mem⟩ | ⟨atom, -⟩
    · exact absurd comment outside
    · rw [isBlank_of_mark mark] at blank
      cases blank
    · rw [mark] at mark'
      cases mark'
      exact mem
    · rw [inAtom_of_mark mark] at atom
      cases atom
  marked t mem kind := by
    obtain ⟨before, own, after, rfl, stands⟩ := exists_text splits mem
    rcases stands.kinds with ⟨c, rfl, mark⟩ | ⟨atom, -⟩
    · exact ⟨before, c, after, rfl, mark, stands.content.trans String.singleton_eq_ofList.symm,
        stands.span⟩
    · exact absurd atom kind

/-- A bad character that is passed is in a comment. -/
theorem Splits.not_stray (splits : Splits (Placed.run offset text) tokens rest)
    (fits : offset + text.length < positionLimit)
    (inside : before.length + rest.length < text.length) :
    ¬StrayBehind text before := by
  rintro ⟨c, after, rfl, bad, outside⟩
  obtain ⟨mark, solid, other⟩ := isBad_iff.mp bad
  rw [List.length_append, List.length_cons] at inside
  rcases splits.text_cases fits rfl (by omega) with comment | blank | ⟨m, mark', -⟩ | ⟨atom, -⟩
  · exact outside comment
  · rw [solid] at blank
    cases blank
  · rw [mark] at mark'
    cases mark'
  · rw [other] at atom
    cases atom

/-- A bad character that is come to is in no comment. -/
theorem Splits.exists_stray {behind : List Placed}
    (splits : Splits (Placed.run offset text) tokens (p :: behind)) (bad : isBad p.char = true) :
    ∃ before, StrayBehind text before ∧ p.position = offset + before.length ∧
      before.length + (p :: behind).length = text.length := by
  obtain ⟨ahead, same, fresh⟩ := splits.exists_own
  obtain ⟨before, later, rfl, rfl, later_eq⟩ := Placed.run_eq_append same
  cases later with
  | nil => cases later_eq
  | cons c after =>
    obtain ⟨rfl, rfl⟩ := List.cons.inj later_eq
    refine ⟨before, ⟨c, after, rfl, bad, ?_⟩, rfl, by simp [Placed.length_run]⟩
    have mode := fresh.after []
    rw [List.map_append, map_char_run, after_other (isBad_iff.mp bad).2.2, List.map_singleton]
      at mode
    rw [endsInComment_iff, mode]
    exact Mode.noConfusion

theorem split_text (fits : offset + text.length < positionLimit) :
    (∃ tokens, split (Placed.run offset text) = .ok tokens ∧ (∀ before, ¬StrayBehind text before) ∧
      Tiles offset text tokens) ∨
    ∃ before, split (Placed.run offset text) =
        reject (.badToken "control character") (Span.sized (offset + before.length) 1) ∧
      StrayBehind text before ∧ ∀ earlier, StrayBehind text earlier →
      before.length ≤ earlier.length := by
  rcases split_rising (rising_run fits) with
    ⟨tokens, splits, found⟩ | ⟨tokens, p, behind, splits, bad, found⟩
  · have idle : Run.idle.Ahead offset := trivial
    rcases scan_ordered idle (sorted_run fits) with ⟨tokens', found', ordered⟩ | ⟨r, failed⟩
    · cases found.symm.trans found'
      refine .inl ⟨tokens, found, ?_, tiles_of_splits fits splits ordered⟩
      intro before stray
      have inside : before.length < text.length := by
        obtain ⟨c, after, rfl, -⟩ := stray
        simp
      exact splits.not_stray fits inside stray
    · cases found.symm.trans failed
  · obtain ⟨before, stray, place, length⟩ := splits.exists_stray bad
    refine .inr ⟨before, by rw [found, place], stray, ?_⟩
    intro earlier stray'
    by_contra sooner
    exact splits.not_stray fits (by omega) stray'

/-- A text is split into the tokens that cover it, or rejected for its first bad character outside
of comments. -/
theorem tokens_tile_the_text (offset : Nat) (text : List Char)
    (fits : offset + text.length < positionLimit) :
    ∃ chars, Placed.number offset text = .ok chars ∧
      ((∃ failure, split chars = .error failure) ↔ ∃ before, StrayBehind text before) ∧
      (∀ failure, split chars = .error failure → ∃ before, StrayBehind text before ∧
        (∀ earlier, StrayBehind text earlier → before.length ≤ earlier.length) ∧
        failure = .rejected ⟨.badToken "control character",
          Span.sized (offset + before.length) 1⟩) ∧
      ∀ tokens, split chars = .ok tokens → Tiles offset text tokens := by
  refine ⟨Placed.run offset text, Placed.number_run fits, ?_⟩
  rcases split_text fits with ⟨tokens, found, clean, tiles⟩ | ⟨before, found, stray, first⟩
  · rw [found]
    refine ⟨⟨?_, ?_⟩, nofun, ?_⟩
    · rintro ⟨_, ⟨⟩⟩
    · rintro ⟨before, stray⟩
      exact absurd stray (clean before)
    · rintro _ ⟨⟩
      exact tiles
  · rw [found]
    refine ⟨⟨?_, ?_⟩, ?_, nofun⟩
    · intro _
      exact ⟨before, stray⟩
    · intro _
      exact ⟨_, rfl⟩
    · rintro _ ⟨⟩
      exact ⟨before, stray, first, rfl⟩

/-- An atom with a semicolon in it, a comment with a control character in it, and a quoted atom. -/
def annotated : List Char := "a;b ;c\x07\n\x27d".toList

theorem annotated_is_tiled : Tiles 7 annotated
    [⟨.atom, "a;b", Span.sized 7 3⟩, ⟨.quote, "\x27", Span.sized 15 1⟩,
      ⟨.atom, "d", Span.sized 16 1⟩] := by
  obtain ⟨chars, numbered, -, -, tiles⟩ := tokens_tile_the_text 7 annotated (by decide)
  have same : Placed.number 7 annotated = .ok (Placed.run 7 annotated) := by decide
  cases same.symm.trans numbered
  exact tiles _ (by decide)

end Lexer

end FormEdit
