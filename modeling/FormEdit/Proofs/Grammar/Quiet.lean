import FormEdit.Proofs.Grammar.Pieces

/-!
# What stands around a form

A text that reads as a form is quiet around it: there are blanks and comments, and no tokens
(`Parses.framed`). What the form's own characters turn into can then be read apart from what stands
around them, as long as the scan comes to them from outside of a comment and they do not run into
what follows: `Parses.trim`. The first fails for a change inside of a comment, and the second in one
case only, that of a semicolon which comes to stand behind an atom (`Quiet.head`).
-/

namespace FormEdit

namespace Lexer

open Mode

theorem Mode.Ends.left {m : Mode} {chars rest : List Char} (ends : m.Ends (chars ++ rest)) :
    m.Ends chars := by
  cases m with
  | atom =>
    intro c head
    obtain ⟨more, rfl⟩ := List.head?_eq_some_iff.mp head
    exact ends c rfl
  | _ => exact ends

variable {run : Run} {position : Nat} {chars rest : List Char} {tokens : List (Token Mark)}

/-- Blanks and comments: nothing in the characters is a token. -/
def Quiet (chars : List Char) : Prop := tokensAt 0 chars = some []

theorem quiet_of_tokensAt (tokens_eq : tokensAt position chars = some []) : Quiet chars :=
  tokensAt_elsewhere 0 tokens_eq

theorem Quiet.tokensAt (quiet : Quiet chars) (position : Nat) :
    Lexer.tokensAt position chars = some [] :=
  tokensAt_elsewhere position quiet

/-- An atom under way comes to a token sooner or later. -/
theorem not_atom_of_quiet (tokens_eq : tokensFrom run position chars = some []) :
    run.mode ≠ .atom := by
  induction chars generalizing run position with
  | nil =>
    cases run with
    | atom first last content => cases tokens_eq
    | _ => exact nofun
  | cons c chars ih =>
    obtain ⟨complete, next, more, stepped, more_eq, nothing⟩ := tokensFrom_cons.mp tokens_eq
    obtain ⟨rfl, rfl⟩ := List.append_eq_nil_iff.mp nothing.symm
    have later := ih more_eq
    cases run with
    | atom first last content =>
      rcases step_cases stepped with ⟨-, -, rfl⟩ | ⟨-, m, -, unfinished, -⟩ | ⟨-, -, -, unfinished⟩
      · exact absurd rfl later
      · cases unfinished
      · cases unfinished
    | _ => exact nofun

theorem Run.done_of_not_atom (other : run.mode ≠ .atom) : run.done = [] := by
  cases run with
  | atom first last content => exact absurd rfl other
  | _ => rfl

/-- The front of quiet characters is quiet, and does not end in an atom. -/
theorem Quiet.left (quiet : Quiet (chars ++ rest)) : Quiet chars ∧ free.after chars ≠ .atom := by
  obtain ⟨⟨complete, last⟩, fed, nothing⟩ := Option.map_eq_some_iff.mp quiet
  obtain ⟨first, next, second, fed_first, fed_second, rfl⟩ := feed_append.mp fed
  obtain ⟨nothing, done⟩ := List.append_eq_nil_iff.mp nothing
  obtain ⟨rfl, rfl⟩ := List.append_eq_nil_iff.mp nothing
  have behind : tokensFrom next (0 + chars.length) rest = some [] := by
    rw [tokensFrom, fed_second, Option.map_some, List.nil_append, done]
  have other := not_atom_of_quiet behind
  constructor
  · rw [Quiet, Lexer.tokensAt, tokensFrom, fed_first, Option.map_some, Run.done_of_not_atom other]
    rfl
  · have mode : next.mode = free.after chars := mode_of_feed fed_first
    rwa [← mode]

theorem Quiet.not_atom (quiet : Quiet chars) : free.after chars ≠ .atom := by
  have whole : Quiet (chars ++ []) := by rwa [List.append_nil]
  exact whole.left.2

/-- Only a semicolon that is no comment keeps quiet characters from ending the atom ahead of
them. -/
theorem Quiet.head (quiet : Quiet chars) (no_comment : chars.head? ≠ some ';') :
    NotInAtom chars := by
  cases chars with
  | nil => exact nofun
  | cons c chars =>
    rintro _ ⟨⟩
    by_contra inside
    have first : Quiet ([c] ++ chars) := quiet
    apply first.left.2
    have plain : c ≠ ';' := by
      rintro rfl
      exact no_comment rfl
    rw [after_cons, after_nil, Mode.next, if_neg plain, if_pos (by simpa using inside)]

/-- Characters that are quiet on their own are so inside of a comment: where it ends, they go on as
they would anyway. -/
theorem Quiet.comment (quiet : Quiet chars) (position : Nat) :
    tokensFrom .comment position chars = some [] := by
  induction chars generalizing position with
  | nil => rfl
  | cons c chars ih =>
    obtain ⟨complete, next, more, stepped, more_eq, nothing⟩ :=
      tokensFrom_cons.mp (quiet.tokensAt position)
    obtain ⟨rfl, rfl⟩ := List.append_eq_nil_iff.mp nothing.symm
    by_cases newline : c = '\n'
    · subst newline
      exact tokensFrom_cons.mpr ⟨[], next, [], stepped, more_eq, rfl⟩
    · have goes_on : step .comment position c = some ([], .comment) := by
        have takes : Run.comment.takes c = true := by simpa [Run.takes] using newline
        rw [step, if_pos takes]
        rfl
      apply tokensFrom_cons.mpr
      refine ⟨[], .comment, [], goes_on, ?_, rfl⟩
      cases next with
      | comment => exact more_eq
      | atom first last content => exact absurd rfl (not_atom_of_quiet more_eq)
      | idle => exact ih (quiet_of_tokensAt more_eq) _
      | blank =>
        rw [tokensFrom_closed _ (show Run.blank.Closes chars from trivial)] at more_eq
        obtain ⟨alone, alone_eq, same⟩ := Option.map_eq_some_iff.mp more_eq
        obtain rfl : alone = [] := by simpa using same
        exact ih (quiet_of_tokensAt alone_eq) _

/-- Quiet characters behind others add nothing, unless the others end with an atom that goes on. -/
theorem tokensAt_of_quiet_behind (quiet : Quiet rest)
    (apart : free.after chars = .atom → NotInAtom rest)
    (tokens_eq : tokensAt position (chars ++ rest) = some tokens) :
    tokensAt position chars = some tokens := by
  by_cases swallowed : free.after chars = .comment
  · obtain ⟨⟨complete, last⟩, fed, rfl⟩ := Option.map_eq_some_iff.mp tokens_eq
    obtain ⟨first, next, second, fed_first, fed_second, rfl⟩ := feed_append.mp fed
    have mode : next.mode = .comment := (mode_of_feed fed_first).trans swallowed
    obtain rfl : next = .comment := by
      cases next with
      | comment => rfl
      | _ => cases mode
    have nothing := quiet.comment (position + chars.length)
    rw [tokensFrom, fed_second, Option.map_some, Option.some.injEq] at nothing
    rw [tokensAt, tokensFrom, fed_first, Option.map_some, List.append_assoc, nothing]
    rfl
  · have ends : (free.after chars).Ends rest := by
      cases mode : free.after chars with
      | free => trivial
      | atom => exact apart mode
      | comment => exact absurd mode swallowed
    obtain ⟨first, second, first_eq, second_eq, rfl⟩ := (tokensAt_join ends).mp tokens_eq
    rw [quiet.tokensAt, Option.some.injEq] at second_eq
    rw [first_eq, ← second_eq, List.append_nil]

end Lexer

namespace Reader

/-- Behind the tokens of a form there are no more that belong to it. -/
theorem Derives.complete {ts more : List (Token Mark)} {f g : Form} (derives : Derives ts [f] [])
    (whole : Derives (ts ++ more) [g] []) : more = [] := by
  have both := (readForm_of_derives (derives.extend more)).symm.trans (readForm_of_derives whole)
  rw [Except.ok.injEq, Prod.mk.injEq] at both
  exact both.2

end Reader

namespace Language

open Lexer Mode Reader

variable {position : Nat} {chars ahead own own' rest : List Char} {f g : Form}

/-- What is read between quiet characters is read on its own. -/
theorem Parses.trim (parses : Parses position (ahead ++ (own ++ rest)) g) (quiet : Quiet ahead)
    (outside : free.after ahead = .free) (quiet' : Quiet rest)
    (apart : free.after own = .atom → NotInAtom rest) : Parses (position + ahead.length) own g := by
  obtain ⟨tokens, tokens_eq, derives⟩ := parses
  have ends : (free.after ahead).Ends (own ++ rest) := by
    rw [outside]
    trivial
  obtain ⟨first, second, first_eq, second_eq, rfl⟩ := (tokensAt_join ends).mp tokens_eq
  rw [quiet.tokensAt, Option.some.injEq] at first_eq
  subst first_eq
  exact ⟨second, tokensAt_of_quiet_behind quiet' apart second_eq, derives⟩

/-- The characters of a form and what stands around them in the text that it is read from. -/
structure Framed (chars : List Char) (f : Form) (ahead own rest : List Char) : Prop where
  text : chars = ahead ++ (own ++ rest)
  span_eq : f.span = Span.sized ahead.length own.length
  quiet : Quiet ahead
  outside : free.after ahead = .free
  parses : Parses ahead.length own f
  ends : (free.after own).Ends rest
  quiet' : Quiet rest

/-- The tokens of a form stand between its edges. -/
theorem between_of_derives {tokens : List (Token Mark)} {high : Nat}
    (derives : Derives tokens [f] []) (between : Between position high tokens)
    (ordered : tokens.Pairwise fun a b => a.span.stop ≤ b.span.start) :
    Between f.span.start f.span.stop tokens := by
  have alone : [] ++ (tokens ++ []) = tokens := List.append_nil tokens
  rw [← alone] at between ordered
  exact (derives.bounds between ordered).2.1

theorem Parses.framed (parses : Parses 0 chars f) :
    ∃ ahead own rest, Framed chars f ahead own rest := by
  obtain ⟨tokens, tokens_eq, derives⟩ := parses
  have ordered := ordered_of_tokensAt tokens_eq
  have inside := between_of_derives derives (between_of_tokensAt tokens_eq) ordered.order
  obtain ⟨_, own_eq, first, last⟩ := derives.ends
  obtain ⟨head, head_eq, start⟩ := first f rfl
  obtain ⟨final, final_eq, stop⟩ := last f rfl
  rw [List.append_nil] at own_eq
  subst own_eq
  -- The text is parted where the first token begins and where the last one ends.
  obtain ⟨⟨count, count_eq, cut⟩, -⟩ := cut_of_tokens tokens_eq (List.mem_of_head? head_eq)
  obtain ⟨-, count', count_eq', cut'⟩ := cut_of_tokens tokens_eq (List.mem_of_getLast? final_eq)
  obtain ⟨ahead, behind, text, rfl, outside⟩ := id cut
  obtain ⟨front, rest, text', rfl, -⟩ := id cut'
  have order := (Form.span f).start_le_stop
  obtain ⟨own, rfl, rfl⟩ := append_parted (text.symm.trans text') (by omega)
  subst text
  have ends : (free.after own).Ends rest := cut.piece cut'
  obtain ⟨t₁, t, eq₁, t_eq, rfl⟩ := (tokensAt_join outside).mp tokens_eq
  obtain ⟨t₂, t₃, eq₂, eq₃, rfl⟩ := (tokensAt_join ends).mp t_eq
  rw [Nat.zero_add] at count_eq count_eq' eq₂ eq₃
  rw [List.length_append] at count_eq'
  -- Outside of these edges there are no tokens.
  have none_ahead : t₁ = [] := by
    refine List.eq_nil_iff_forall_not_mem.mpr fun t mem => ?_
    have low := inside t (by simp [mem])
    have high := between_of_tokensAt eq₁ t mem
    omega
  have none_behind : t₃ = [] := by
    refine List.eq_nil_iff_forall_not_mem.mpr fun t mem => ?_
    have high := inside t (by simp [mem])
    have low := between_of_tokensAt eq₃ t mem
    omega
  subst none_ahead none_behind
  rw [List.append_nil, List.nil_append] at derives
  have quiet : Quiet ahead := quiet_of_tokensAt eq₁
  refine ⟨ahead, own, rest, rfl, ?_, quiet, ?_, ⟨t₂, eq₂, derives⟩, ends, quiet_of_tokensAt eq₃⟩
  · ext
    · rw [← start, count_eq]
      rfl
    · rw [← stop, count_eq']
      rfl
  · cases mode : free.after ahead with
    | free => rfl
    | atom => exact absurd mode quiet.not_atom
    | comment => exact absurd mode outside.not_comment

/-! ## Changed texts -/

namespace Framed

theorem own_ne_nil (framed : Framed chars f ahead own rest) : own ≠ [] := by
  rintro rfl
  obtain ⟨tokens, tokens_eq, derives⟩ := framed.parses
  cases tokens_eq
  cases derives

/-- A form that ends in what can be part of an atom is not followed by more of it. -/
theorem not_inAtom {c : Char} (framed : Framed chars f ahead own rest)
    (last : own.getLast? = some c) (inside : inAtom c = true) : NotInAtom rest := by
  obtain ⟨front, rfl⟩ := List.getLast?_eq_some_iff.mp last
  have ends := framed.ends
  rw [after_append, after_cons, after_nil] at ends
  have newline : c ≠ '\n' := by
    rintro rfl
    cases inside
  cases mode : (free.after front).next c with
  | atom => rwa [mode] at ends
  | comment => exact absurd mode ends.not_comment
  | free =>
    cases before :
      free.after front <;> rw [before] at mode <;> simp only [Mode.next, inside, newline] at mode
    all_goals grind

/-- What ends as the form does runs into what follows no more than the form does. -/
theorem apart (framed : Framed chars f ahead own rest) (last : own'.getLast? = own.getLast?)
    (ended : free.after own' = .atom) : NotInAtom rest := by
  rcases List.eq_nil_or_concat own' with rfl | ⟨front, c, rfl⟩
  · cases ended
  · rw [List.concat_eq_append] at ended last
    rw [List.getLast?_concat] at last
    rw [after_append] at ended
    exact framed.not_inAtom last.symm (inAtom_of_next ended)

/-- The text of the form is changed, and what it becomes does not run into what follows. -/
theorem changed (framed : Framed chars f ahead own rest)
    (apart : free.after own' = .atom → NotInAtom rest)
    (parses : Parses 0 (ahead ++ (own' ++ rest)) g) : Parses ahead.length own' g := by
  have alone := parses.trim framed.quiet framed.outside framed.quiet' apart
  rwa [Nat.zero_add] at alone

/-- A change ahead of the form, outside of comments, is taken in with all that lies in between. -/
theorem changed_ahead {before behind behind' : List Char}
    (framed : Framed chars f (before ++ behind) own rest) (outside : free.after before ≠ .comment)
    (parses : Parses 0 (before ++ ((behind' ++ own) ++ rest)) g) :
    Parses before.length (behind' ++ own) g := by
  obtain ⟨quiet, not_atom⟩ := framed.quiet.left
  have is_free : free.after before = .free := by
    cases mode : free.after before with
    | free => rfl
    | atom => exact absurd mode not_atom
    | comment => exact absurd mode outside
  have last : (behind' ++ own).getLast? = own.getLast? :=
    List.getLast?_append_of_ne_nil _ framed.own_ne_nil
  have alone := parses.trim quiet is_free framed.quiet' (framed.apart last)
  rwa [Nat.zero_add] at alone

/-- The form is read together with quiet characters behind it. -/
theorem reads_on (framed : Framed chars f ahead own rest) {more : List Char}
    (ends : (free.after own).Ends more) (quiet : Quiet more) :
    Parses ahead.length (own ++ more) f := by
  obtain ⟨tokens, tokens_eq, derives⟩ := framed.parses
  refine ⟨tokens ++ [], (tokensAt_join ends).mpr ⟨tokens, [], tokens_eq, quiet.tokensAt _, rfl⟩, ?_⟩
  rwa [List.append_nil]

/-- A character typed behind the form is taken in with all that lies in between. It is part of a
comment or a blank, or else of the atom that the form ends with. -/
theorem typed_behind {between behind : List Char} {c : Char}
    (framed : Framed chars f ahead own (between ++ behind))
    (parses : Parses 0 (ahead ++ (own ++ (between ++ c :: behind))) g) :
    ∃ g, Parses ahead.length (own ++ (between ++ [c])) g := by
  by_cases ends : (free.after own).Ends (between ++ c :: behind)
  · obtain ⟨tokens, tokens_eq, derives⟩ := framed.parses
    obtain ⟨all, all_eq, whole⟩ := parses
    have outside : (free.after ahead).Ends (own ++ (between ++ c :: behind)) := by
      rw [framed.outside]
      trivial
    obtain ⟨t₁, t, eq₁, t_eq, rfl⟩ := (tokensAt_join outside).mp all_eq
    obtain ⟨t₂, t₃, eq₂, eq₃, rfl⟩ := (tokensAt_join ends).mp t_eq
    rw [framed.quiet.tokensAt, Option.some.injEq] at eq₁
    rw [Nat.zero_add, tokens_eq, Option.some.injEq] at eq₂
    subst eq₁ eq₂
    obtain rfl := derives.complete whole
    rw [List.append_cons] at ends eq₃
    exact ⟨f, framed.reads_on ends.left (quiet_of_tokensAt eq₃).left.1⟩
  · cases mode : free.after own with
    | free =>
      rw [mode] at ends
      exact absurd trivial ends
    | comment => exact absurd mode framed.ends.not_comment
    | atom =>
      have not_inAtom := framed.ends
      rw [mode] at ends not_inAtom
      cases between with
      | nil =>
        have typed : Parses 0 (ahead ++ ((own ++ [c]) ++ behind)) g := by rwa [List.append_assoc]
        exact ⟨g, framed.changed (fun _ => not_inAtom) typed⟩
      | cons x between => exact absurd not_inAtom ends

end Framed

end Language

end FormEdit
