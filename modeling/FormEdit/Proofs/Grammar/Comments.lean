import FormEdit.Proofs.Grammar.Scanning

/-!
# Where comments end

A piece of text may hold comments, and one that runs on past the end of the piece swallows what
stands behind it. `Tame` pieces hold no such comment, and they can be put side by side in any order
(`Tame.append`). The text between the edges of two tokens is tame: `cut_of_tokens` says that the
scan is outside of comments at these edges, `Cut.piece` what follows for the text between two of
them.
-/

namespace FormEdit

/-- The token at another place. -/
def Token.moved {κ : Type} (distance : Int) (t : Token κ) : Token κ :=
  { t with span := t.span.moved distance }

namespace Lexer

/-- What a scan is inside of. -/
inductive Mode where
  | free
  | atom
  | comment
  deriving DecidableEq

def Run.mode : Run → Mode
  | .atom _ _ _ => .atom
  | .comment => .comment
  | .idle => .free
  | .blank => .free

namespace Mode

/-- What a character leads into. -/
def next : Mode → Char → Mode
  | .free, c => if c = ';' then .comment else if inAtom c then .atom else .free
  | .atom, c => if inAtom c then .atom else .free
  | .comment, c => if c = '\n' then .free else .comment

def after (m : Mode) (chars : List Char) : Mode := chars.foldl next m

/-- No token or comment goes on into the characters. -/
def Ends : Mode → List Char → Prop
  | .free, _ => True
  | .atom, chars => NotInAtom chars
  | .comment, _ => False

variable {m : Mode} {chars rest : List Char}

@[simp] theorem after_nil (m : Mode) : m.after [] = m := rfl

@[simp] theorem after_cons (m : Mode) (c : Char) (chars : List Char) :
    m.after (c :: chars) = (m.next c).after chars := rfl

theorem after_append (m : Mode) (chars rest : List Char) :
    m.after (chars ++ rest) = (m.after chars).after rest := List.foldl_append

theorem Ends.not_comment (ends : m.Ends chars) : m ≠ .comment := by
  rintro rfl
  exact ends

/-- A line ends whatever it is inside of. -/
theorem next_newline (m : Mode) : m.next '\n' = .free := by
  cases m <;> decide

theorem comment_after (one_line : '\n' ∉ chars) : comment.after chars = .comment := by
  induction chars with
  | nil => rfl
  | cons c chars ih =>
    rw [List.mem_cons, not_or] at one_line
    rw [after_cons, next, if_neg (Ne.symm one_line.1)]
    exact ih one_line.2

theorem atom_after (all : ∀ c ∈ chars, inAtom c = true) : atom.after chars = .atom := by
  induction chars with
  | nil => rfl
  | cons c chars ih =>
    rw [after_cons, next, if_pos (all c List.mem_cons_self)]
    exact ih fun d mem => all d (List.mem_cons_of_mem _ mem)

/-- Behind the end of a line it makes no difference what the line was inside of. -/
theorem after_eq (m m' : Mode) (more_lines : '\n' ∈ chars) : m.after chars = m'.after chars := by
  induction chars generalizing m m' with
  | nil => cases more_lines
  | cons c chars ih =>
    rcases List.mem_cons.mp more_lines with rfl | more_lines
    · rw [after_cons, after_cons, next_newline, next_newline]
    · exact ih _ _ more_lines

/-- What does not go on an atom leads from it where it leads on its own. -/
theorem next_atom {c : Char} (other : inAtom c = false) : atom.next c = free.next c := by
  have not_comment : c ≠ ';' := by
    rintro rfl
    cases other
  simp only [next, other, not_comment, Bool.false_eq_true, if_false]

theorem inAtom_of_next {c : Char} (into : m.next c = .atom) : inAtom c = true := by
  cases m <;> simp only [next] at into <;> grind

/-- What is not part of an atom begins nothing. -/
theorem next_other {c : Char} (other : inAtom c = false) : free.next c = .free := by
  rw [← next_atom other, next, other]
  rfl

theorem inAtom_of_next_free {c : Char} (into : m.next c = .free) : inAtom c = false := by
  cases m with
  | free => simp only [next] at into; grind
  | atom => simp only [next] at into; grind
  | comment =>
    have line : c = '\n' := by simpa [next] using into
    rw [line]
    decide

end Mode

open Mode

/-- The characters end outside of a comment, if they begin so. -/
def Tame (chars : List Char) : Prop := free.after chars ≠ .comment

variable {m : Mode} {run next last : Run} {position : Nat} {c : Char} {chars rest : List Char}
  {tokens : List (Token Mark)}

/-- A comment that ends in a piece ends there too if the piece goes on an atom. -/
theorem Tame.after (tame : Tame chars) (outside : m ≠ .comment) : m.after chars ≠ .comment := by
  cases m with
  | free => exact tame
  | comment => exact absurd rfl outside
  | atom =>
    cases chars with
    | nil => exact outside
    | cons c chars =>
      rw [Tame, after_cons] at tame
      rw [after_cons]
      by_cases comment : c = ';'
      · subst comment
        by_cases more_lines : '\n' ∈ chars
        · rw [after_eq _ (free.next ';') more_lines]
          exact tame
        · exact absurd (comment_after more_lines) tame
      · by_cases inside : inAtom c = true
        · have same : atom.next c = free.next c := by
            simp only [Mode.next, inside, comment, if_true, if_false]
          rwa [same]
        · rw [next_atom (by simpa using inside)]
          exact tame

theorem tame_nil : Tame [] := Mode.noConfusion

theorem Tame.append (first : Tame chars) (second : Tame rest) : Tame (chars ++ rest) := by
  rw [Tame, after_append]
  exact second.after first

/-- What a piece ends in does not depend on what stands before it, if that runs into nothing. -/
theorem ends_between {ahead piece behind : List Char}
    (first : (free.after ahead).Ends (piece ++ behind))
    (second : (free.after (ahead ++ piece)).Ends behind) : (free.after piece).Ends behind := by
  rw [after_append] at second
  cases mode : free.after ahead with
  | free => rwa [mode] at second
  | comment => exact absurd mode first.not_comment
  | atom =>
    rw [mode] at first second
    cases piece with
    | nil => trivial
    | cons c piece =>
      have other : inAtom c = false := first c rfl
      rw [after_cons, next_atom other] at second
      exact second

/-- The characters end inside of a comment: on the line of a semicolon that does not go on an atom.
One that stands right behind a character of an atom is part of it, unless a comment has begun ahead
on the same line. -/
def EndsInComment (chars : List Char) : Prop :=
  ∃ ahead line, chars = ahead ++ ';' :: line ∧ '\n' ∉ line ∧
    ∀ c, ahead.getLast? = some c → inAtom c = false

/-- The comment that characters end in has begun ahead of them, or with a semicolon among them. -/
theorem comment_begins (inside : m.after chars = .comment) : (m = .comment ∧ '\n' ∉ chars) ∨
    ∃ ahead line, chars = ahead ++ ';' :: line ∧ '\n' ∉ line ∧ m.after ahead = .free := by
  induction chars generalizing m with
  | nil => exact .inl ⟨inside, List.not_mem_nil⟩
  | cons c chars ih =>
    rcases ih inside with ⟨begun, one_line⟩ | ⟨ahead, line, rfl, one_line, outside⟩
    · cases m with
      | free =>
        have semicolon : c = ';' := by
          simp only [next] at begun
          grind
        exact .inr ⟨[], chars, by rw [semicolon, List.nil_append], one_line, rfl⟩
      | atom =>
        simp only [next] at begun
        grind
      | comment =>
        have same_line : c ≠ '\n' := by
          rintro rfl
          cases begun
        exact .inl ⟨rfl, by simp [one_line, same_line.symm]⟩
    · exact .inr ⟨c :: ahead, line, rfl, one_line, outside⟩

theorem endsInComment_iff : EndsInComment chars ↔ free.after chars = .comment := by
  constructor
  · rintro ⟨ahead, line, rfl, one_line, apart⟩
    rw [after_append, after_cons]
    cases mode : free.after ahead with
    | free => exact comment_after one_line
    | comment => exact comment_after one_line
    | atom =>
      rcases List.eq_nil_or_concat ahead with rfl | ⟨front, x, rfl⟩
      · cases mode
      · rw [List.concat_eq_append] at mode apart
        rw [after_append] at mode
        have inside : inAtom x = true := inAtom_of_next mode
        rw [apart x (by simp)] at inside
        cases inside
  · intro inside
    rcases comment_begins inside with ⟨begun, -⟩ | ⟨ahead, line, rfl, one_line, outside⟩
    · cases begun
    · refine ⟨ahead, line, rfl, one_line, ?_⟩
      intro c last
      obtain ⟨front, rfl⟩ := List.getLast?_eq_some_iff.mp last
      rw [after_append] at outside
      exact inAtom_of_next_free outside

/-- Only an atom runs on into what can be part of it. -/
theorem ends_of_apart {ahead behind : List Char} (tame : Tame ahead)
    (apart : ∀ x y, ahead.getLast? = some x → behind.head? = some y →
      (inAtom x && inAtom y) = false) : (free.after ahead).Ends behind := by
  cases mode : free.after ahead with
  | free => trivial
  | comment => exact absurd mode tame
  | atom =>
    intro y head
    rcases List.eq_nil_or_concat ahead with rfl | ⟨front, x, rfl⟩
    · cases mode
    · rw [List.concat_eq_append, after_append] at mode
      have inside : inAtom x = true := inAtom_of_next mode
      have parted := apart x y (by simp) head
      rwa [inside, Bool.true_and] at parted

/-! ## The mode of a run -/

theorem mode_of_step (stepped : step run position c = some (tokens, next)) :
    next.mode = run.mode.next c := by
  rcases step_cases stepped with ⟨takes, -, rfl⟩ | ⟨takes, m, mark, -, rfl⟩ | ⟨takes, -, opened, -⟩
  · cases run with
    | idle => cases takes
    | blank =>
      have other : inAtom c = false := inAtom_of_blank takes
      rw [Run.mode, ← next_atom other, Mode.next, other]
      rfl
    | comment => simpa [Run.take, Run.mode, Mode.next, Run.takes] using takes
    | atom first last content =>
      have inside : inAtom c = true := takes
      simp [Run.take, Run.mode, Mode.next, inside]
  · have other := inAtom_of_mark mark
    rw [Run.mode]
    cases run with
    | comment =>
      have line : c = '\n' := by simpa [Run.takes] using takes
      simp [line, Run.mode, Mode.next]
    | idle => rw [Run.mode, ← next_atom other, Mode.next, other]; rfl
    | blank => rw [Run.mode, ← next_atom other, Mode.next, other]; rfl
    | atom first last content => rw [Run.mode, Mode.next, other]; rfl
  · have begun : next.mode = free.next c := by
      rcases opens_cases opened with ⟨rfl, rfl⟩ | ⟨-, blank, rfl⟩ | ⟨plain, inside, rfl⟩
      · rfl
      · have other := inAtom_of_blank blank
        rw [← next_atom other, Mode.next, other]
        rfl
      · simp [Run.mode, Mode.next, plain, inside]
    rw [begun]
    cases run with
    | idle => rfl
    | blank => rfl
    | comment =>
      have line : c = '\n' := by simpa [Run.takes] using takes
      rw [line, next_newline, next_newline]
    | atom first last content => exact (next_atom takes).symm

theorem mode_of_feed (fed : feed run position chars = some (tokens, last)) :
    last.mode = run.mode.after chars := by
  induction chars generalizing run position tokens with
  | nil =>
    cases fed
    rfl
  | cons c chars ih =>
    obtain ⟨complete, next, more, stepped, fed_rest, -⟩ := feed_cons.mp fed
    rw [ih fed_rest, mode_of_step stepped, after_cons]

theorem closes_iff : run.Closes chars ↔ run.mode.Ends chars := by
  cases run <;> rfl

/-! ## The edges of tokens -/

/-- A token can begin or end after the first `count` characters. -/
def Cut (m : Mode) (chars : List Char) (count : Nat) : Prop :=
  ∃ ahead behind, chars = ahead ++ behind ∧ ahead.length = count ∧ (m.after ahead).Ends behind

theorem cut_zero (ends : m.Ends chars) : Cut m chars 0 := ⟨[], chars, rfl, rfl, ends⟩

theorem Cut.cons {count : Nat} (cut : Cut (m.next c) chars count) :
    Cut m (c :: chars) (count + 1) := by
  obtain ⟨ahead, behind, rfl, rfl, ends⟩ := cut
  exact ⟨c :: ahead, behind, rfl, rfl, ends⟩

theorem Cut.ends {ahead behind : List Char} (cut : Cut m (ahead ++ behind) ahead.length) :
    (m.after ahead).Ends behind := by
  obtain ⟨ahead', behind', same, count, ends⟩ := cut
  obtain ⟨rfl, rfl⟩ := List.append_inj same count.symm
  exact ends

theorem Cut.le {count : Nat} (cut : Cut m chars count) : count ≤ chars.length := by
  obtain ⟨ahead, behind, rfl, rfl, -⟩ := cut
  simp

theorem cut_end (tame : Tame chars) : Cut .free chars chars.length := by
  refine ⟨chars, [], by simp, rfl, ?_⟩
  cases mode : free.after chars with
  | free => trivial
  | comment => exact absurd mode tame
  | atom =>
    rintro _ ⟨⟩

/-- The text between two places where tokens can begin or end does not run on past the second. -/
theorem Cut.piece {ahead piece behind : List Char}
    (first : Cut .free (ahead ++ (piece ++ behind)) ahead.length)
    (second : Cut .free (ahead ++ (piece ++ behind)) (ahead ++ piece).length) :
    (free.after piece).Ends behind := by
  rw [← List.append_assoc] at second
  exact ends_between first.ends second.ends

/-- Where the atom under way began. -/
def Run.first : Run → Option Nat
  | .atom first _ _ => some first
  | _ => none

theorem Run.first_take (run : Run) (p : Placed) : (run.take p).first = run.first := by
  cases run <;> rfl

/-- A run ends ahead of a character that it does not take. -/
theorem ends_of_not_takes (takes : run.takes c = false) (same_line : run ≠ .comment ∨ c ≠ '\n')
    (rest : List Char) : run.mode.Ends (c :: rest) := by
  cases run with
  | idle => trivial
  | blank => trivial
  | comment =>
    have line_break : c = '\n' := by simpa [Run.takes] using takes
    exact same_line.elim (fun other => other rfl) fun other => other line_break
  | atom first last content =>
    rintro _ ⟨⟩
    exact takes

/-- The token of a run that has ended. -/
theorem done_edges {t : Token Mark} (ready : run.Ready position) (mem : t ∈ run.done) :
    run.first = some t.span.start ∧ t.span.stop = position ∧ t.kind = .atom ∧ run.mode = .atom := by
  cases run with
  | idle => cases mem
  | blank => cases mem
  | comment => cases mem
  | atom first last content =>
    obtain rfl := List.mem_singleton.mp mem
    exact ⟨rfl, ready.1, rfl, rfl⟩

theorem tokensFrom_eq (run : Run) (position : Nat) (c : Char) (chars : List Char) :
    tokensFrom run position (c :: chars) = (step run position c).bind fun begun =>
      (tokensFrom begun.2 (position + 1) chars).map (begun.1 ++ ·) := by
  rw [tokensFrom, feed]
  cases step run position c with
  | none => rfl
  | some begun => simp [tokensFrom, Function.comp_def]

theorem tokensFrom_cons : tokensFrom run position (c :: chars) = some tokens ↔
    ∃ complete next more, step run position c = some (complete, next) ∧
      tokensFrom next (position + 1) chars = some more ∧ tokens = complete ++ more := by
  simp only [tokensFrom_eq, Option.bind_eq_some_iff, Option.map_eq_some_iff, Prod.exists]
  constructor
  · rintro ⟨complete, next, stepped, more, more_eq, rfl⟩
    exact ⟨complete, next, more, stepped, more_eq, rfl⟩
  · rintro ⟨complete, next, more, stepped, more_eq, rfl⟩
    exact ⟨complete, next, stepped, more, more_eq, rfl⟩

/-- A place where the run under way or a later one can begin or end. -/
def EdgeAt (run : Run) (position : Nat) (chars : List Char) (edge : Nat) : Prop :=
  ∃ count, edge = position + count ∧ Cut run.mode chars count

theorem EdgeAt.cons {edge : Nat} (stepped : step run position c = some (tokens, next))
    (at_edge : EdgeAt next (position + 1) chars edge) : EdgeAt run position (c :: chars) edge := by
  obtain ⟨count, rfl, cut⟩ := at_edge
  rw [mode_of_step stepped] at cut
  exact ⟨count + 1, by omega, cut.cons⟩

theorem edgeAt_here (ends : run.mode.Ends chars) : EdgeAt run position chars position :=
  ⟨0, rfl, cut_zero ends⟩

/-- The edges of the tokens of a text are places where a token can begin or end. Only the token of
the run under way begins ahead of the text. -/
theorem edges_of_tokens {t : Token Mark} (ready : run.Ready position)
    (tokens_eq : tokensFrom run position chars = some tokens) (mem : t ∈ tokens) :
    (run.first = some t.span.start ∨ EdgeAt run position chars t.span.start) ∧
      EdgeAt run position chars t.span.stop := by
  induction chars generalizing run position tokens with
  | nil =>
    cases tokens_eq
    obtain ⟨first, stop, -, mode⟩ := done_edges ready mem
    have ends : run.mode.Ends [] := by
      rw [mode]
      rintro _ ⟨⟩
    exact ⟨.inl first, stop ▸ edgeAt_here ends⟩
  | cons c chars ih =>
    obtain ⟨complete, next, more, stepped, more_eq, rfl⟩ := tokensFrom_cons.mp tokens_eq
    have further (mem : t ∈ more) :
        (next.first = some t.span.start ∨ EdgeAt run position (c :: chars) t.span.start) ∧
          EdgeAt run position (c :: chars) t.span.stop := by
      obtain ⟨start, stop⟩ := ih (ready_of_step ready stepped) more_eq mem
      exact ⟨start.imp_right (EdgeAt.cons stepped), stop.cons stepped⟩
    -- The token of the run under way is the one that ends here.
    have ended (takes : run.takes c = false) (mem : t ∈ run.done) :
        (run.first = some t.span.start ∨ EdgeAt run position (c :: chars) t.span.start) ∧
          EdgeAt run position (c :: chars) t.span.stop := by
      obtain ⟨first, stop, -, mode⟩ := done_edges ready mem
      have same_line : run ≠ .comment := by
        rintro rfl
        cases mode
      exact ⟨.inl first, stop ▸ edgeAt_here (ends_of_not_takes takes (.inl same_line) chars)⟩
    rcases step_cases stepped with
      ⟨-, rfl, rfl⟩ | ⟨takes, m, mark, rfl, rfl⟩ | ⟨takes, -, opened, rfl⟩
    · rw [← run.first_take ⟨position, c⟩]
      exact further mem
    · simp only [List.append_assoc, List.mem_append, List.mem_singleton] at mem
      rcases mem with mem | rfl | mem
      · exact ended takes mem
      · have same_line : c ≠ '\n' := by
          rintro rfl
          cases mark
        have after : EdgeAt .idle (position + 1) chars (position + 1) := edgeAt_here trivial
        exact ⟨.inr (edgeAt_here (ends_of_not_takes takes (.inr same_line) chars)),
          after.cons stepped⟩
      · obtain ⟨start, stop⟩ := further mem
        exact ⟨.inr (start.resolve_left (by simp [Run.first])), stop⟩
    · rcases List.mem_append.mp mem with mem | mem
      · exact ended takes mem
      · obtain ⟨start, stop⟩ := further mem
        refine ⟨.inr ?_, stop⟩
        rcases start with first | start
        · -- The token begins with this character.
          rcases opens_cases opened with ⟨-, rfl⟩ | ⟨-, -, rfl⟩ | ⟨-, inside, rfl⟩
          · cases first
          · cases first
          · have same_line : c ≠ '\n' := by
              rintro rfl
              cases inside
            rw [Run.first, Option.some.injEq] at first
            exact first ▸ edgeAt_here (ends_of_not_takes takes (.inr same_line) chars)
        · exact start

/-- The tokens of a text begin and end outside of comments. -/
theorem cut_of_tokens {t : Token Mark} (tokens_eq : tokensAt position chars = some tokens)
    (mem : t ∈ tokens) :
    (∃ count, t.span.start = position + count ∧ Cut .free chars count) ∧
      ∃ count, t.span.stop = position + count ∧ Cut .free chars count := by
  have idle : Run.idle.Ready position := trivial
  obtain ⟨start, stop⟩ := edges_of_tokens idle tokens_eq mem
  exact ⟨start.resolve_left (by simp [Run.first]), stop⟩

/-! ## Tokens of one character -/

theorem exists_behind {α : Type} {before after xs ys : List α} {t : α} (elsewhere : t ∉ xs)
    (split : before ++ t :: after = xs ++ ys) :
    ∃ before', before = xs ++ before' ∧ before' ++ t :: after = ys := by
  rcases append_cases split.symm with ⟨rest, rfl, -⟩ | ⟨before', before_eq, ys_eq⟩
  · exact absurd (by simp) elsewhere
  · exact ⟨before', before_eq, ys_eq.symm⟩

/-- A character that is a token parts a text. -/
theorem parts_of_tokens {before after : List (Token Mark)} {t : Token Mark}
    (ready : run.Ready position)
    (tokens_eq : tokensFrom run position chars = some (before ++ t :: after))
    (mark : t.kind ≠ .atom) :
    ∃ ahead c behind, chars = ahead ++ c :: behind ∧ markOf c = some t.kind ∧
      t = ⟨t.kind, c.toString, Span.sized (position + ahead.length) 1⟩ ∧
      run.mode.after ahead ≠ .comment ∧ tokensFrom run position ahead = some before ∧
      tokensAt (position + ahead.length + 1) behind = some after := by
  induction chars generalizing run position before with
  | nil =>
    rw [tokensFrom, feed_nil, Option.map_some, List.nil_append, Option.some.injEq] at tokens_eq
    have mem : t ∈ run.done := by simp [tokens_eq]
    exact absurd (done_edges ready mem).2.2.1 mark
  | cons c chars ih =>
    obtain ⟨complete, next, more, stepped, more_eq, split⟩ := tokensFrom_cons.mp tokens_eq
    -- The character is further on, behind tokens that are complete here.
    have further {before' : List (Token Mark)} (before_eq : before = complete ++ before')
        (split : before' ++ t :: after = more) :
        ∃ ahead c' behind, c :: chars = ahead ++ c' :: behind ∧ markOf c' = some t.kind ∧
          t = ⟨t.kind, c'.toString, Span.sized (position + ahead.length) 1⟩ ∧
          run.mode.after ahead ≠ .comment ∧ tokensFrom run position ahead = some before ∧
          tokensAt (position + ahead.length + 1) behind = some after := by
      subst split
      obtain ⟨ahead, c', behind, rfl, is_mark, t_eq, outside, ahead_eq, behind_eq⟩ :=
        ih (ready_of_step ready stepped) more_eq
      have length : position + 1 + ahead.length = position + (c :: ahead).length := by
        rw [List.length_cons]
        omega
      rw [length] at t_eq behind_eq
      rw [mode_of_step stepped] at outside
      exact ⟨c :: ahead, c', behind, rfl, is_mark, t_eq, outside,
        tokensFrom_cons.mpr ⟨complete, next, before', stepped, ahead_eq, before_eq⟩, behind_eq⟩
    have not_done (mem : t ∈ run.done) : False := mark (done_edges ready mem).2.2.1
    rcases step_cases stepped with
      ⟨-, rfl, -⟩ | ⟨takes, m, is_mark, rfl, rfl⟩ | ⟨takes, -, -, rfl⟩
    · exact further rfl split
    · rw [List.append_assoc] at split
      obtain ⟨before', before_eq, split⟩ := exists_behind not_done split
      cases before' with
      | nil =>
        obtain ⟨rfl, rfl⟩ := List.cons.inj split
        have same_line : c ≠ '\n' := by
          rintro rfl
          cases is_mark
        have ends := ends_of_not_takes takes (.inr same_line) chars
        rw [List.append_nil] at before_eq
        subst before_eq
        exact ⟨[], c, chars, rfl, is_mark, rfl, ends.not_comment, rfl, more_eq⟩
      | cons t' before' =>
        obtain ⟨rfl, rest⟩ := List.cons.inj split
        exact further (by rw [before_eq, List.append_assoc]; rfl) rest
    · obtain ⟨before', before_eq, split⟩ := exists_behind not_done split
      exact further before_eq split

theorem tokensAt_mark {m : Mark} (mark : markOf c = some m) : tokensAt position (c :: chars) =
    (tokensAt (position + 1) chars).map (⟨m, c.toString, Span.sized position 1⟩ :: ·) := by
  have takes : Run.idle.takes c = false := rfl
  simp only [tokensAt, tokensFrom, feed, step, takes, start, mark, Option.map_some,
    Option.bind_some, Option.map_map, Run.done_idle, List.nil_append, Bool.false_eq_true, if_false]
  rfl

/-- The tokens of a text around a character that is one of them. -/
theorem tokensAt_around {m : Mark} {ahead behind : List Char} {before after : List (Token Mark)}
    (ahead_eq : tokensAt position ahead = some before) (tame : Tame ahead)
    (mark : markOf c = some m)
    (behind_eq : tokensAt (position + ahead.length + 1) behind = some after) :
    tokensAt position (ahead ++ c :: behind) =
      some (before ++ ⟨m, c.toString, Span.sized (position + ahead.length) 1⟩ :: after) := by
  obtain ⟨⟨complete, last⟩, fed, rfl⟩ := Option.map_eq_some_iff.mp ahead_eq
  have closes : last.Closes (c :: behind) := by
    rw [closes_iff, mode_of_feed fed]
    cases mode : Run.idle.mode.after ahead with
    | free => trivial
    | comment => exact absurd mode tame
    | atom =>
      rintro _ ⟨⟩
      exact inAtom_of_mark mark
  refine tokensAt_append fed closes ?_
  rw [tokensAt_mark mark, behind_eq, Option.map_some]

/-! ## Tokens further on -/

/-- The run at another place. -/
def Run.moved (count : Nat) : Run → Run
  | .atom first last content => .atom (first + count) (last + count) content
  | run => run

theorem sized_moved (start length count : Nat) :
    Span.sized (start + count) length = (Span.sized start length).moved count := by
  ext <;> simp only [Span.sized, Span.moved] <;> omega

theorem done_moved (run : Run) (count : Nat) :
    (run.moved count).done = run.done.map (Token.moved count) := by
  cases run <;> simp [Run.moved, Run.done, Token.moved, sized_moved]

theorem takes_moved (run : Run) (count : Nat) (c : Char) :
    (run.moved count).takes c = run.takes c := by
  cases run <;> rfl

theorem start_moved (count : Nat) : start (position + count) c =
    (start position c).map fun begun => (begun.1.map (Token.moved count), begun.2.moved count) := by
  unfold start
  cases markOf c with
  | some m => simp [Token.moved, sized_moved, Run.moved]
  | none =>
    unfold opens
    split_ifs <;> simp [Run.moved]

theorem step_moved (count : Nat) : step (run.moved count) (position + count) c =
    (step run position c).map fun begun =>
      (begun.1.map (Token.moved count), begun.2.moved count) := by
  rw [step, step, takes_moved, start_moved, done_moved]
  split
  · cases run <;> rfl
  · cases start position c <;> simp

theorem tokensFrom_moved (count : Nat) : tokensFrom (run.moved count) (position + count) chars =
    (tokensFrom run position chars).map (List.map (Token.moved count)) := by
  induction chars generalizing run position with
  | nil => simp [tokensFrom, done_moved]
  | cons c chars ih =>
    rw [tokensFrom_eq, tokensFrom_eq, step_moved, Nat.add_right_comm]
    cases step run position c with
    | none => rfl
    | some begun => simp [ih, Function.comp_def]

/-- The same characters further on have the same tokens further on. -/
theorem tokensAt_moved (count : Nat) (tokens_eq : tokensAt position chars = some tokens) :
    tokensAt (position + count) chars = some (tokens.map (Token.moved count)) := by
  have moved := @tokensFrom_moved .idle position chars count
  rw [← tokensAt, tokens_eq] at moved
  exact moved

end Lexer

end FormEdit
