import FormEdit.Proofs.Grammar.Scanning

/-!
# The tokens of a text without comments

`Lexes` says what the tokens of a text are without saying how they are found: blanks are dropped,
parentheses and quotes are tokens, and every other run of characters that goes on as far as it can
is an atom. On a text without semicolons `split` finds exactly these tokens, and it rejects exactly
the texts that have none: those with a control character that is not blank.
-/

namespace FormEdit

namespace Lexer

/-- The tokens of characters at consecutive positions. -/
inductive Lexes : Nat → List Char → List (Token Mark) → Prop
  | nil {position : Nat} : Lexes position [] []
  | blank {position : Nat} {c : Char} {rest : List Char} {tokens : List (Token Mark)}
      (is_blank : Text.isBlank c = true) (more : Lexes (position + 1) rest tokens) :
      Lexes position (c :: rest) tokens
  | mark {position : Nat} {c : Char} {m : Mark} {rest : List Char} {tokens : List (Token Mark)}
      (is_mark : markOf c = some m) (more : Lexes (position + 1) rest tokens) :
      Lexes position (c :: rest) (⟨m, c.toString, Span.sized position 1⟩ :: tokens)
  | atom {position : Nat} {content rest : List Char} {tokens : List (Token Mark)}
      (nonempty : content ≠ []) (all : ∀ c ∈ content, inAtom c = true) (ends : NotInAtom rest)
      (more : Lexes (position + content.length) rest tokens) :
      Lexes position (content ++ rest)
        (⟨.atom, String.ofList content, Span.sized position content.length⟩ :: tokens)

/-! ## The scanner finds them -/

variable {position : Nat} {chars : List Char} {tokens : List (Token Mark)}

/-- An atom goes on with what can be part of it. -/
theorem feed_atom (position first last : Nat) (sofar : List Char) {content : List Char}
    (all : ∀ c ∈ content, inAtom c = true) :
    ∃ last', feed (.atom first last sofar) position content =
      some ([], .atom first last' (content.reverse ++ sofar)) := by
  induction content generalizing position last sofar with
  | nil => exact ⟨last, rfl⟩
  | cons c content ih =>
    obtain ⟨last', fed⟩ := ih (position + 1) position (c :: sofar)
      fun d listed => all d (by simp [listed])
    refine ⟨last', feed_cons.mpr ⟨[], _, [], if_pos (all c (by simp)), fed.trans ?_, rfl⟩⟩
    simp

theorem step_atom {c : Char} (atom : inAtom c = true) (plain : c ≠ ';') :
    step .idle position c = some ([], .atom position position [c]) := by
  simp [step, Run.takes, start, markOf_of_inAtom atom, opens, plain, isBlank_of_inAtom atom, atom,
    Run.done]

theorem step_mark {c : Char} {m : Mark} (mark : markOf c = some m) :
    step .idle position c = some ([⟨m, c.toString, Span.sized position 1⟩], .idle) := by
  simp [step, Run.takes, start, mark, Run.done]

theorem tokensAt_of_lexes (lexes : Lexes position chars tokens) (plain : ';' ∉ chars) :
    tokensAt position chars = some tokens := by
  induction lexes with
  | nil => rfl
  | @blank position c rest tokens is_blank more ih =>
    simp only [List.mem_cons, not_or] at plain
    have fed : feed .idle position [c] = some ([], .blank) :=
      feed_cons.mpr ⟨[], .blank, [], step_blank is_blank, rfl, rfl⟩
    exact tokensAt_append fed trivial (ih plain.2)
  | @mark position c m rest tokens is_mark more ih =>
    simp only [List.mem_cons, not_or] at plain
    have fed : feed .idle position [c] = some ([⟨m, c.toString, Span.sized position 1⟩], .idle) :=
      feed_cons.mpr ⟨_, .idle, [], step_mark is_mark, rfl, rfl⟩
    exact tokensAt_append fed trivial (ih plain.2)
  | @atom position content rest tokens nonempty all ends more ih =>
    cases content with
    | nil => exact absurd rfl nonempty
    | cons c content =>
      simp only [List.cons_append, List.mem_cons, List.mem_append, not_or] at plain
      obtain ⟨last, fed⟩ := feed_atom (position + 1) position position [c]
        fun d listed => all d (List.mem_cons_of_mem c listed)
      have fed : feed .idle position (c :: content) =
          some ([], .atom position last (content.reverse ++ [c])) :=
        feed_cons.mpr ⟨[], _, [], step_atom (all c (by simp)) (Ne.symm plain.1), fed, rfl⟩
      have whole := tokensAt_append fed ends (ih plain.2.2)
      simpa [Run.done] using whole

theorem split_of_lexes (lexes : Lexes position chars tokens)
    (fits : position + chars.length < positionLimit) (plain : ';' ∉ chars) :
    split (Placed.run position chars) = .ok tokens :=
  split_of_tokensAt (tokensAt_of_lexes lexes plain) fits

/-! ## Nothing else is found -/

theorem exists_lexes (position : Nat) {chars : List Char} (clean : ∀ c ∈ chars, isBad c = false) :
    ∃ tokens, Lexes position chars tokens := by
  induction length : chars.length using Nat.strongRecOn generalizing position chars with
  | _ n ih =>
    cases chars with
    | nil => exact ⟨[], .nil⟩
    | cons c rest =>
      have shorter : rest.length < n := by
        rw [← length]
        simp
      rcases classify c with blank | ⟨m, mark⟩ | atom | bad
      · obtain ⟨tokens, more⟩ :=
          ih _ shorter (position + 1) (fun d hd => clean d (by simp [hd])) rfl
        exact ⟨tokens, .blank blank more⟩
      · obtain ⟨tokens, more⟩ :=
          ih _ shorter (position + 1) (fun d hd => clean d (by simp [hd])) rfl
        exact ⟨_, .mark mark more⟩
      · -- The atom is the longest run of characters that can be part of it.
        let content := (c :: rest).takeWhile inAtom
        let later := (c :: rest).dropWhile inAtom
        have whole : content ++ later = c :: rest := List.takeWhile_append_dropWhile
        have nonempty : content ≠ [] := by simp [content, atom]
        have fewer : later.length < n := by
          have lengths := congrArg List.length whole
          have positive := List.length_pos_iff.mpr nonempty
          rw [List.length_append, length] at lengths
          omega
        obtain ⟨tokens, more⟩ := ih _ fewer (position + content.length)
          (fun d hd => clean d (by rw [← whole]; simp [hd])) rfl
        have ends : NotInAtom later := by
          intro d hd
          have := List.head?_dropWhile_not inAtom (c :: rest)
          rw [show (c :: rest).dropWhile inAtom = later from rfl, hd] at this
          simpa using this
        have lexes :=
          Lexes.atom nonempty (fun d hd => (List.all_eq_true.mp List.all_takeWhile) d hd) ends more
        rw [whole] at lexes
        exact ⟨_, lexes⟩
      · rw [clean c (by simp)] at bad
        cases bad

theorem clean_of_step {run next : Run} {c : Char}
    (stepped : step run position c = some (tokens, next)) (open_run : run ≠ .comment)
    (plain : c ≠ ';') : isBad c = false ∧ next ≠ .comment := by
  rcases step_cases stepped with ⟨takes, -, rfl⟩ | ⟨-, m, mark, -, rfl⟩ | ⟨-, -, opened, -⟩
  · cases run with
    | idle => cases takes
    | comment => exact absurd rfl open_run
    | blank => exact ⟨by simp [isBad, show Text.isBlank c = true from takes], by simp [Run.take]⟩
    | atom first last content => exact ⟨isBad_of_inAtom takes, by simp [Run.take]⟩
  · exact ⟨isBad_of_mark mark, by simp⟩
  · rcases opens_cases opened with ⟨comment, -⟩ | ⟨-, blank, rfl⟩ | ⟨-, atom, rfl⟩
    · exact absurd comment plain
    · exact ⟨by simp [isBad, blank], by simp⟩
    · exact ⟨isBad_of_inAtom atom, by simp⟩

/-- What is fed without a comment holds no bad character. -/
theorem clean_of_feed {run last : Run} (fed : feed run position chars = some (tokens, last))
    (open_run : run ≠ .comment) (plain : ';' ∉ chars) : ∀ c ∈ chars, isBad c = false := by
  induction chars generalizing run position tokens with
  | nil => simp
  | cons c rest ih =>
    simp only [List.mem_cons, not_or] at plain
    obtain ⟨complete, next, more, stepped, fed_rest, rfl⟩ := feed_cons.mp fed
    have here := clean_of_step stepped open_run (Ne.symm plain.1)
    intro d listed
    rcases List.mem_cons.mp listed with rfl | listed
    · exact here.1
    · exact ih fed_rest here.2 plain.2 d listed

theorem lexes_of_tokensAt (tokens_eq : tokensAt position chars = some tokens)
    (plain : ';' ∉ chars) :
    Lexes position chars tokens := by
  obtain ⟨⟨complete, last⟩, fed, -⟩ := Option.map_eq_some_iff.mp tokens_eq
  obtain ⟨found, lexes⟩ := exists_lexes position (clean_of_feed fed (by simp) plain)
  rw [tokensAt_of_lexes lexes plain] at tokens_eq
  cases tokens_eq
  exact lexes

end Lexer

end FormEdit
