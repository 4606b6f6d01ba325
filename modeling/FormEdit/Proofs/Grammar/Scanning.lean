import FormEdit.Proofs.Checked
import FormEdit.Proofs.Tree.Room
import FormEdit.Token.Lexer

/-!
# Scanning one character after the other

`scan` looks one character ahead, since characters may share a position. Where positions are
consecutive it need not: `feed` goes through a text one character at a time and keeps the run under
way, so the tokens of two texts side by side are those of the first and those of the second from the
run that the first one leaves (`feed_append`). `scan_run` says that it finds the same tokens.

Whatever the positions are, as long as they do not decrease a scan ends in tokens that stand one
behind the other, or in a rejection: `scan_ordered`.
-/

namespace FormEdit

/-- Characters at consecutive positions. -/
def Placed.run : Nat → List Char → List Placed
  | _, [] => []
  | position, c :: rest => ⟨position, c⟩ :: run (position + 1) rest

theorem map_char_run (position : Nat) (chars : List Char) :
    (Placed.run position chars).map Placed.char = chars := by
  induction chars generalizing position with
  | nil => rfl
  | cons c chars ih => rw [Placed.run, List.map_cons, ih]

theorem Placed.run_append (position : Nat) (before after : List Char) :
    Placed.run position (before ++ after) =
    Placed.run position before ++ Placed.run (position + before.length) after := by
  induction before generalizing position with
  | nil => rfl
  | cons c before ih =>
    rw [List.cons_append, Placed.run, ih, Placed.run, List.cons_append, List.length_cons,
      Nat.add_right_comm, Nat.add_assoc]

theorem Placed.length_run (position : Nat) (text : List Char) :
    (Placed.run position text).length = text.length := by
  rw [← List.length_map (f := Placed.char), map_char_run]

theorem Placed.run_eq_append {position : Nat} {text : List Char} {ahead behind : List Placed}
    (same : Placed.run position text = ahead ++ behind) :
    ∃ before after, text = before ++ after ∧ ahead = Placed.run position before ∧
      behind = Placed.run (position + before.length) after := by
  have text_eq : text = ahead.map Placed.char ++ behind.map Placed.char := by
    rw [← List.map_append, ← same, map_char_run]
  rw [text_eq, run_append] at same
  obtain ⟨ahead_eq, behind_eq⟩ := List.append_inj same (by rw [length_run, List.length_map])
  exact ⟨_, _, text_eq, ahead_eq.symm, behind_eq.symm⟩

/-- Of two places to part a list at, the first parts what is ahead of the second. -/
theorem append_parted {α : Type} {as bs before behind : List α} (same : as ++ bs = before ++ behind)
    (first : as.length ≤ before.length) : ∃ mid, before = as ++ mid ∧ bs = mid ++ behind := by
  rcases List.append_eq_append_iff.mp same with ⟨mid, before_eq, bs_eq⟩ | ⟨mid, as_eq, behind_eq⟩
  · exact ⟨mid, before_eq, bs_eq⟩
  · rw [as_eq, List.length_append] at first
    obtain rfl : mid = [] := List.eq_nil_of_length_eq_zero (by omega)
    exact ⟨[], by simpa using as_eq.symm, by simpa using behind_eq.symm⟩

/-- A member of two lists side by side is a member of one of them. -/
theorem append_cases {α : Type} {as bs before behind : List α} {x : α}
    (split : as ++ bs = before ++ x :: behind) :
    (∃ rest, as = before ++ x :: rest ∧ behind = rest ++ bs) ∨
      ∃ rest, before = as ++ rest ∧ bs = rest ++ x :: behind := by
  rcases List.append_eq_append_iff.mp split with ⟨rest, before_eq, bs_eq⟩ | ⟨rest, as_eq, rest_eq⟩
  · exact .inr ⟨rest, before_eq, bs_eq⟩
  · cases rest with
    | nil => exact .inr ⟨[], by simpa using as_eq.symm, rest_eq.symm⟩
    | cons y rest =>
      cases rest_eq
      exact .inl ⟨rest, as_eq, rfl⟩

namespace Lexer

/-- The token that a character is on its own. -/
def markOf (c : Char) : Option Mark :=
  if c = '(' then some .opening
  else if c = ')' then some .closing
  else if c = '\x27' then some .quote
  else none

/-- A character that no token can hold. -/
def isBad (c : Char) : Bool := Text.isControl c && !Text.isBlank c

theorem markOf_eq_none {c : Char} : markOf c = none ↔ c ≠ '(' ∧ c ≠ ')' ∧ c ≠ '\x27' := by
  unfold markOf
  grind

theorem markOf_eq_some {c : Char} {m : Mark} (mark : markOf c = some m) :
    (c = '(' ∧ m = .opening) ∨ (c = ')' ∧ m = .closing) ∨ (c = '\x27' ∧ m = .quote) := by
  unfold markOf at mark
  grind

theorem markOf_injective {c d : Char} {m : Mark} (mark : markOf c = some m)
    (mark' : markOf d = some m) : c = d := by
  rcases markOf_eq_some mark with ⟨rfl, rfl⟩ | ⟨rfl, rfl⟩ | ⟨rfl, rfl⟩ <;>
    rcases markOf_eq_some mark' with ⟨rfl, kind⟩ | ⟨rfl, kind⟩ | ⟨rfl, kind⟩ <;>
    first | rfl | cases kind

theorem markOf_ne_atom (c : Char) : markOf c ≠ some .atom := by
  intro mark
  rcases markOf_eq_some mark with ⟨-, kind⟩ | ⟨-, kind⟩ | ⟨-, kind⟩ <;> cases kind

theorem isBlank_of_mark {c : Char} {m : Mark} (mark : markOf c = some m) :
    Text.isBlank c = false := by
  rcases markOf_eq_some mark with ⟨rfl, -⟩ | ⟨rfl, -⟩ | ⟨rfl, -⟩ <;> decide

theorem isBad_of_mark {c : Char} {m : Mark} (mark : markOf c = some m) : isBad c = false := by
  rcases markOf_eq_some mark with ⟨rfl, -⟩ | ⟨rfl, -⟩ | ⟨rfl, -⟩ <;> decide

theorem inAtom_of_mark {c : Char} {m : Mark} (mark : markOf c = some m) : inAtom c = false := by
  rcases markOf_eq_some mark with ⟨rfl, -⟩ | ⟨rfl, -⟩ | ⟨rfl, -⟩ <;> decide

theorem inAtom_of_blank {c : Char} (blank : Text.isBlank c = true) : inAtom c = false := by
  simp [inAtom, blank]

theorem markOf_of_blank {c : Char} (blank : Text.isBlank c = true) : markOf c = none := by
  cases mark : markOf c with
  | none => rfl
  | some m => rw [isBlank_of_mark mark] at blank; cases blank

theorem markOf_of_inAtom {c : Char} (atom : inAtom c = true) : markOf c = none := by
  cases mark : markOf c with
  | none => rfl
  | some m => rw [inAtom_of_mark mark] at atom; cases atom

theorem isBlank_of_inAtom {c : Char} (atom : inAtom c = true) : Text.isBlank c = false := by
  cases blank : Text.isBlank c with
  | false => rfl
  | true => rw [inAtom_of_blank blank] at atom; cases atom

theorem isBad_of_inAtom {c : Char} (atom : inAtom c = true) : isBad c = false := by
  simp only [inAtom, Bool.and_eq_true, Bool.not_eq_true'] at atom
  simp [isBad, atom.2]

/-- Every character is blank, a token, part of an atom or bad. -/
theorem classify (c : Char) :
    Text.isBlank c = true ∨ (∃ m, markOf c = some m) ∨ inAtom c = true ∨ isBad c = true := by
  by_cases blank : Text.isBlank c = true
  · exact .inl blank
  · by_cases opening : c = '('
    · exact .inr (.inl ⟨.opening, by simp [markOf, opening]⟩)
    by_cases closing : c = ')'
    · exact .inr (.inl ⟨.closing, by simp [markOf, closing]⟩)
    by_cases quote : c = '\x27'
    · exact .inr (.inl ⟨.quote, by simp [markOf, quote]⟩)
    by_cases control : Text.isControl c = true
    · exact .inr (.inr (.inr (by simp [isBad, control, blank])))
    · exact .inr (.inr (.inl (by simp [inAtom, opening, closing, quote, blank, control])))

/-! ## What a character begins -/

theorem advance_ok {position : Nat} (fits : position + 1 < positionLimit) :
    advance position 1 = .ok (position + 1) := if_pos fits

theorem advance_eq_ok {position stop : Nat} (advanced : advance position 1 = .ok stop) :
    position + 1 < positionLimit := by
  unfold advance at advanced
  split at advanced
  next fits => exact fits
  next => cases advanced

theorem isBad_iff {c : Char} : isBad c = true ↔
    markOf c = none ∧ Text.isBlank c = false ∧ inAtom c = false := by
  constructor
  · intro bad
    have none : markOf c = none := by
      cases mark : markOf c with
      | none => rfl
      | some m => rw [isBad_of_mark mark] at bad; cases bad
    simp only [isBad, Bool.and_eq_true, Bool.not_eq_true'] at bad
    exact ⟨none, bad.2, by simp [inAtom, bad.1]⟩
  · rintro ⟨none, solid, outside⟩
    rcases classify c with blank | ⟨m, mark⟩ | atom | bad
    · rw [blank] at solid; cases solid
    · rw [none] at mark; cases mark
    · rw [atom] at outside; cases outside
    · exact bad

/-- The run that a character begins, tokens apart. Nothing begins with a bad one. -/
def opens (position : Nat) (c : Char) : Option Run :=
  if c = ';' then some .comment
  else if Text.isBlank c then some .blank
  else if inAtom c then some (.atom position position [c])
  else none

theorem opens_cases {position : Nat} {c : Char} {run : Run} (opened : opens position c = some run) :
    (c = ';' ∧ run = .comment) ∨ (c ≠ ';' ∧ Text.isBlank c = true ∧ run = .blank) ∨
      (c ≠ ';' ∧ inAtom c = true ∧ run = .atom position position [c]) := by
  unfold opens at opened
  split at opened
  next comment => exact .inl ⟨comment, by cases opened; rfl⟩
  next plain =>
    split at opened
    next blank => exact .inr (.inl ⟨plain, blank, by cases opened; rfl⟩)
    next =>
      split at opened
      next atom => exact .inr (.inr ⟨plain, atom, by cases opened; rfl⟩)
      next => cases opened

theorem begin_mark {p : Placed} {m : Mark} (rest : List Placed)
    (fits : p.position + 1 < positionLimit) (mark : markOf p.char = some m) :
    begin p rest = (do
      let complete ← (single m p rest).mapError .fault
      pure (.idle, complete)) := by
  obtain ⟨position, c⟩ := p
  rcases markOf_eq_some mark with ⟨rfl, rfl⟩ | ⟨rfl, rfl⟩ | ⟨rfl, rfl⟩
  all_goals simp [begin, advance_ok fits]

theorem begin_run {p : Placed} {run : Run} (rest : List Placed)
    (fits : p.position + 1 < positionLimit) (mark : markOf p.char = none)
    (opened : opens p.position p.char = some run) : begin p rest = .ok (run, []) := by
  obtain ⟨position, c⟩ := p
  obtain ⟨h₁, h₂, h₃⟩ := markOf_eq_none.mp mark
  dsimp only at fits h₁ h₂ h₃ opened
  rcases opens_cases opened with ⟨rfl, rfl⟩ | ⟨plain, blank, rfl⟩ | ⟨plain, atom, rfl⟩
  · simp [begin, advance_ok fits]
  · simp [begin, advance_ok fits, h₁, h₂, h₃, plain, blank]
  · have solid := isBlank_of_inAtom atom
    have control : Text.isControl c = false := by
      simp only [inAtom, Bool.and_eq_true, Bool.not_eq_true'] at atom
      exact atom.2
    simp [begin, advance_ok fits, h₁, h₂, h₃, plain, solid, control]

theorem begin_control {p : Placed} (rest : List Placed) (fits : p.position + 1 < positionLimit)
    (mark : markOf p.char = none) (opened : opens p.position p.char = none) :
    begin p rest = reject (.badToken "control character") (Span.sized p.position 1) := by
  obtain ⟨position, c⟩ := p
  obtain ⟨h₁, h₂, h₃⟩ := markOf_eq_none.mp mark
  simp only [opens] at opened
  split at opened
  next => cases opened
  next plain =>
    split at opened
    next => cases opened
    next solid =>
      split at opened
      next => cases opened
      next outside =>
        have bad : isBad c = true :=
          isBad_iff.mpr ⟨mark, by simpa using solid, by simpa using outside⟩
        simp only [isBad, Bool.and_eq_true] at bad
        simp [begin, advance_ok fits, h₁, h₂, h₃, plain, solid, bad.1,
          Span.make_ok (Nat.le_succ position), reject, Span.sized]

theorem begin_bad {p : Placed} (rest : List Placed) (fits : p.position + 1 < positionLimit)
    (mark : markOf p.char = none) (opened : opens p.position p.char = none) :
    ∃ r, begin p rest = .error (.rejected r) :=
  ⟨_, begin_control rest fits mark opened⟩

/-- What begins is a token of its own or a run. -/
theorem begin_cases {p : Placed} {next : Run} {complete : List (Token Mark)} {rest : List Placed}
    (begun : begin p rest = .ok (next, complete)) :
    (∃ m, markOf p.char = some m ∧ next = .idle ∧ single m p rest = .ok complete) ∨
      opens p.position p.char = some next ∧ complete = [] := by
  have fits : p.position + 1 < positionLimit := by
    obtain ⟨after, advanced, -⟩ := bind_eq_ok.mp begun
    exact advance_eq_ok (mapError_eq_ok.mp advanced)
  cases mark : markOf p.char with
  | some m =>
    rw [begin_mark rest fits mark] at begun
    obtain ⟨found, made, begun⟩ := bind_eq_ok.mp begun
    cases begun
    exact .inl ⟨m, rfl, rfl, mapError_eq_ok.mp made⟩
  | none =>
    cases opened : opens p.position p.char with
    | none =>
      obtain ⟨r, rejected⟩ := begin_bad rest fits mark opened
      rw [rejected] at begun
      cases begun
    | some run =>
      rw [begin_run rest fits mark opened] at begun
      cases begun
      exact .inr ⟨rfl, rfl⟩

/-- What holds of every run under way, if the characters allow it, and so of every token that a run
closes with or a character is: it holds of all that is found. -/
theorem scan_preserves (Fits : Placed → Prop) (Under : Run → Prop) (Found : Token Mark → Prop)
    (takes : ∀ run p, Fits p → Under run → run.takes p.char = true → Under (run.take p))
    (closes : ∀ run rest done, Under run → run.close rest = .ok done → ∀ t ∈ done, Found t)
    (begins : ∀ p rest next complete, Fits p → begin p rest = .ok (next, complete) →
      Under next ∧ ∀ t ∈ complete, Found t)
    {run : Run} {chars : List Placed} {tokens : List (Token Mark)} (under : Under run)
    (fits : ∀ p ∈ chars, Fits p) (scanned : scan run chars = .ok tokens) :
    ∀ t ∈ tokens, Found t := by
  induction chars generalizing run tokens with
  | nil => exact closes run [] tokens under (mapError_eq_ok.mp scanned)
  | cons p chars ih =>
    obtain ⟨fits_p, fits⟩ := List.forall_mem_cons.mp fits
    rw [scan] at scanned
    split at scanned
    next goes_on => exact ih (takes run p fits_p under goes_on) fits scanned
    next =>
      obtain ⟨done, closed, scanned⟩ := bind_eq_ok.mp scanned
      obtain ⟨⟨next, complete⟩, begun, scanned⟩ := bind_eq_ok.mp scanned
      obtain ⟨more, more_eq, scanned⟩ := bind_eq_ok.mp scanned
      cases scanned
      obtain ⟨under', in_complete⟩ := begins p chars next complete fits_p begun
      have in_done := closes run (p :: chars) done under (mapError_eq_ok.mp closed)
      have in_more := ih under' fits more_eq
      intro t mem
      simp only [List.mem_append] at mem
      rcases mem with (mem | mem) | mem
      · exact in_done t mem
      · exact in_complete t mem
      · exact in_more t mem

/-! ## Characters at consecutive positions -/

theorem stopAfter_run {position : Nat} (rest : List Char) (fits : position + 1 < positionLimit) :
    stopAfter position (Placed.run (position + 1) rest) = .ok (position + 1) := by
  cases rest with
  | nil => exact advance_ok fits
  | cons c rest =>
    simp only [Placed.run, stopAfter]
    rw [if_neg (by omega)]
    exact advance_ok fits

/-- The token that a run under way comes to if it ends here. -/
def Run.done : Run → List (Token Mark)
  | .atom first _ content =>
    [⟨.atom, String.ofList content.reverse, Span.sized first content.length⟩]
  | _ => []

@[simp] theorem Run.done_idle : Run.idle.done = [] := rfl

@[simp] theorem Run.done_blank : Run.blank.done = [] := rfl

/-- What a character begins: the tokens complete with it and the run under way. -/
def start (position : Nat) (c : Char) : Option (List (Token Mark) × Run) :=
  match markOf c with
  | some m => some ([⟨m, c.toString, Span.sized position 1⟩], .idle)
  | none => (opens position c).map fun run => ([], run)

/-- What a character comes to behind a run. -/
def step (run : Run) (position : Nat) (c : Char) : Option (List (Token Mark) × Run) :=
  if run.takes c then some ([], run.take ⟨position, c⟩)
  else (start position c).map fun begun => (run.done ++ begun.1, begun.2)

/-- The tokens complete at the end of the characters, and the run under way there. -/
def feed : Run → Nat → List Char → Option (List (Token Mark) × Run)
  | run, _, [] => some ([], run)
  | run, position, c :: rest =>
    (step run position c).bind fun begun =>
      (feed begun.2 (position + 1) rest).map fun more => (begun.1 ++ more.1, more.2)

/-- The tokens of characters behind a run, that of the run included. -/
def tokensFrom (run : Run) (position : Nat) (chars : List Char) : Option (List (Token Mark)) :=
  (feed run position chars).map fun fed => fed.1 ++ fed.2.done

/-- The tokens of characters at consecutive positions. -/
def tokensAt (position : Nat) (chars : List Char) : Option (List (Token Mark)) :=
  tokensFrom .idle position chars

variable {run next last : Run} {position : Nat} {c : Char} {chars rest : List Char}
  {tokens later : List (Token Mark)}

/-- What a character can come to: the run goes on with it, or it is a token, or it begins a run. -/
theorem step_cases (stepped : step run position c = some (tokens, next)) :
    (run.takes c = true ∧ tokens = [] ∧ next = run.take ⟨position, c⟩) ∨
    (run.takes c = false ∧ ∃ m, markOf c = some m ∧
      tokens = run.done ++ [⟨m, c.toString, Span.sized position 1⟩] ∧ next = .idle) ∨
    (run.takes c = false ∧ markOf c = none ∧ opens position c = some next ∧ tokens = run.done) := by
  unfold step at stepped
  split at stepped
  next takes =>
    cases stepped
    exact .inl ⟨takes, rfl, rfl⟩
  next apart =>
    obtain ⟨⟨begun, begun_run⟩, started, same⟩ := Option.map_eq_some_iff.mp stepped
    cases same
    unfold start at started
    split at started
    next m mark =>
      cases started
      exact .inr (.inl ⟨by simpa using apart, m, mark, rfl, rfl⟩)
    next mark =>
      obtain ⟨opened_run, opened, same⟩ := Option.map_eq_some_iff.mp started
      cases same
      exact .inr (.inr ⟨by simpa using apart, mark, opened, by simp⟩)

@[simp] theorem feed_nil (run : Run) (position : Nat) : feed run position [] = some ([], run) := rfl

theorem feed_cons : feed run position (c :: rest) = some (tokens, last) ↔
    ∃ complete next more, step run position c = some (complete, next) ∧
      feed next (position + 1) rest = some (more, last) ∧ tokens = complete ++ more := by
  simp only [feed, Option.bind_eq_some_iff, Option.map_eq_some_iff, Prod.mk.injEq, Prod.exists]
  constructor
  · rintro ⟨complete, next, stepped, more, final, fed, rfl, rfl⟩
    exact ⟨complete, next, more, stepped, fed, rfl⟩
  · rintro ⟨complete, next, more, stepped, fed, rfl⟩
    exact ⟨complete, next, stepped, more, last, fed, rfl, rfl⟩

/-- The tokens of two texts side by side. -/
theorem feed_append : feed run position (chars ++ rest) = some (tokens, last) ↔
    ∃ first next second, feed run position chars = some (first, next) ∧
      feed next (position + chars.length) rest = some (second, last) ∧
      tokens = first ++ second := by
  induction chars generalizing run position tokens with
  | nil => simp
  | cons c chars ih =>
    have place : position + 1 + chars.length = position + (c :: chars).length := by
      simp only [List.length_cons]
      omega
    simp only [List.cons_append, feed_cons, ih, place]
    constructor
    · rintro ⟨complete, mid, more, stepped, ⟨first, next, second, fed, fed', rfl⟩, rfl⟩
      exact ⟨complete ++ first, next, second, ⟨complete, mid, first, stepped, fed, rfl⟩,
        fed', by simp⟩
    · rintro ⟨first, next, second, ⟨complete, mid, more, stepped, fed, rfl⟩, fed', rfl⟩
      exact ⟨complete, mid, more ++ second, stepped, ⟨more, next, second, fed, fed', rfl⟩, by simp⟩

/-- The first of the characters, if there is one, is not part of an atom. -/
def NotInAtom (chars : List Char) : Prop := ∀ c, chars.head? = some c → inAtom c = false

/-- What the run under way can be closed ahead of: it goes on with none of the characters that a
text begins with, blanks apart. -/
def Run.Closes : Run → List Char → Prop
  | .comment, _ => False
  | .atom _ _ _, chars => NotInAtom chars
  | _, _ => True

theorem step_blank (blank : Text.isBlank c = true) : step .idle position c = some ([], .blank) := by
  have plain : c ≠ ';' := by
    rintro rfl
    exact absurd blank (by decide)
  simp [step, Run.takes, start, markOf_of_blank blank, opens, plain, blank]

/-- A run that is closed leaves nothing but its token. -/
theorem tokensFrom_closed (position : Nat) (closes : run.Closes chars) :
    tokensFrom run position chars = (tokensFrom .idle position chars).map (run.done ++ ·) := by
  cases chars with
  | nil => simp [tokensFrom]
  | cons c rest =>
    by_cases takes : run.takes c = true
    · cases run with
      | idle => cases takes
      | comment => cases closes
      | atom first last content =>
        rw [Run.takes, closes c rfl] at takes
        cases takes
      | blank =>
        have same : step .blank position c = step .idle position c := by
          rw [step_blank takes, step, if_pos takes]
          rfl
        simp [tokensFrom, feed, same, Function.comp_def]
    · have idle : Run.idle.takes c = false := rfl
      simp only [tokensFrom, feed, step, takes, idle, Bool.false_eq_true, if_false, Run.done_idle,
        List.nil_append]
      cases start position c with
      | none => rfl
      | some begun =>
        simp only [Option.map_some, Option.bind_some]
        cases feed begun.2 (position + 1) rest with
        | none => rfl
        | some more => simp

/-- The tokens of two texts side by side, if the first one ends where its last run does. -/
theorem tokensAt_append (fed : feed .idle position chars = some (tokens, last))
    (closes : last.Closes rest) (behind_eq : tokensAt (position + chars.length) rest = some later) :
    tokensAt position (chars ++ rest) = some (tokens ++ last.done ++ later) := by
  have behind := tokensFrom_closed (position + chars.length) closes
  rw [← tokensAt, behind_eq, Option.map_some] at behind
  obtain ⟨⟨more, final⟩, fed', same⟩ := Option.map_eq_some_iff.mp behind
  have whole := feed_append.mpr ⟨tokens, last, more, fed, fed', rfl⟩
  rw [tokensAt, tokensFrom, whole, Option.map_some, List.append_assoc, List.append_assoc]
  exact congrArg (fun ts => some (tokens ++ ts)) same

/-- The run ends right before a position. -/
def Run.Ready : Run → Nat → Prop
  | .atom first last content, position => first + content.length = position ∧ last + 1 = position
  | _, _ => True

theorem Run.Ready.take (ready : run.Ready position) :
    (run.take ⟨position, c⟩).Ready (position + 1) := by
  cases run with
  | atom first last content => exact ⟨congrArg (· + 1) ready.1, rfl⟩
  | _ => trivial

theorem ready_of_step (ready : run.Ready position)
    (stepped : step run position c = some (tokens, next)) : next.Ready (position + 1) := by
  rcases step_cases stepped with ⟨-, -, rfl⟩ | ⟨-, m, -, -, rfl⟩ | ⟨-, -, opened, -⟩
  · exact ready.take
  · trivial
  · rcases opens_cases opened with ⟨-, rfl⟩ | ⟨-, -, rfl⟩ | ⟨-, -, rfl⟩
    · trivial
    · trivial
    · exact ⟨rfl, rfl⟩

theorem close_run (rest : List Char) (ready : run.Ready position)
    (fits : position < positionLimit) :
    run.close (Placed.run position rest) = .ok run.done := by
  cases run with
  | atom first last content =>
    obtain ⟨filled, rfl⟩ := ready
    simp only [Run.close, stopAfter_run rest fits, ok_bind, pure_eq_ok, Run.done,
      Span.make_ok (show first ≤ last + 1 by omega), Except.ok.injEq, List.cons.injEq,
      Token.mk.injEq, true_and, and_true]
    ext
    · rfl
    · exact filled.symm
  | _ => rfl

theorem single_run (m : Mark) (rest : List Char) (fits : position + 1 < positionLimit) :
    single m ⟨position, c⟩ (Placed.run (position + 1) rest) =
      .ok [⟨m, c.toString, Span.sized position 1⟩] := by
  simp only [single, stopAfter_run rest fits, ok_bind, Span.make_ok (Nat.le_succ position),
    pure_eq_ok]
  rfl

/-- What a character begins, as the scanner finds it. -/
theorem begin_start (rest : List Char) (fits : position + 1 < positionLimit) :
    (∃ begun, start position c = some begun ∧
      begin ⟨position, c⟩ (Placed.run (position + 1) rest) = .ok (begun.2, begun.1)) ∨
    start position c = none ∧
      ∃ r, begin ⟨position, c⟩ (Placed.run (position + 1) rest) = .error (.rejected r) := by
  unfold start
  cases mark : markOf c with
  | some m =>
    refine .inl ⟨_, rfl, ?_⟩
    rw [begin_mark (p := ⟨position, c⟩) _ fits mark, single_run m rest fits]
    rfl
  | none =>
    cases opened : opens position c with
    | some run => exact .inl ⟨_, rfl, begin_run (p := ⟨position, c⟩) _ fits mark opened⟩
    | none => exact .inr ⟨rfl, begin_bad (p := ⟨position, c⟩) _ fits mark opened⟩

/-- The scanner finds the tokens that are fed to it, and rejects what cannot be fed. -/
theorem scan_run (ready : run.Ready position) (fits : position + chars.length < positionLimit) :
    (∃ tokens last, feed run position chars = some (tokens, last) ∧
      scan run (Placed.run position chars) = .ok (tokens ++ last.done)) ∨
    feed run position chars = none ∧
      ∃ r, scan run (Placed.run position chars) = .error (.rejected r) := by
  induction chars generalizing run position with
  | nil =>
    refine .inl ⟨[], run, rfl, ?_⟩
    have closed : run.close [] = .ok run.done := close_run [] ready fits
    rw [Placed.run, scan, closed]
    rfl
  | cons c rest ih =>
    simp only [List.length_cons] at fits
    by_cases takes : run.takes c = true
    · have stepped : step run position c = some ([], run.take ⟨position, c⟩) := if_pos takes
      simp only [Placed.run, scan, takes, if_true, feed, stepped, Option.bind_some, List.nil_append]
      rcases ih ready.take (by omega) with ⟨tokens, last, fed, scanned⟩ | ⟨fed, rejected⟩
      · exact .inl ⟨tokens, last, by rw [fed]; rfl, scanned⟩
      · exact .inr ⟨by rw [fed]; rfl, rejected⟩
    · have stepped : step run position c =
          (start position c).map fun begun => (run.done ++ begun.1, begun.2) := if_neg takes
      have closed : run.close (⟨position, c⟩ :: Placed.run (position + 1) rest) = .ok run.done :=
        close_run (c :: rest) ready (by omega)
      simp only [Placed.run, scan, takes, Bool.false_eq_true, if_false, closed, mapError_ok,
        ok_bind, feed, stepped]
      rcases begin_start (c := c) rest (show position + 1 < positionLimit by omega) with
        ⟨⟨complete, next⟩, started, begun⟩ | ⟨started, r, begun⟩
      · have ready' : next.Ready (position + 1) :=
          ready_of_step ready (by rw [stepped, started]; rfl)
        simp only [started, begun, ok_bind, Option.map_some, Option.bind_some]
        rcases ih ready' (by omega) with ⟨tokens, last, fed, scanned⟩ | ⟨fed, r, rejected⟩
        · exact .inl ⟨run.done ++ complete ++ tokens, last, by rw [fed]; rfl, by
            rw [scanned]
            simp⟩
        · exact .inr ⟨by rw [fed]; rfl, r, by rw [rejected]; rfl⟩
      · simp only [started, begun, Option.map_none, Option.bind_none]
        exact .inr ⟨trivial, r, rfl⟩

/-- A text is split into its tokens, or rejected if it has none. -/
theorem split_run (fits : position + chars.length < positionLimit) :
    (∃ tokens, tokensAt position chars = some tokens ∧
      split (Placed.run position chars) = .ok tokens) ∨
    tokensAt position chars = none ∧ ∃ r,
    split (Placed.run position chars) = .error (.rejected r) := by
  have idle : Run.idle.Ready position := trivial
  rcases scan_run idle fits with ⟨tokens, last, fed, scanned⟩ | ⟨fed, rejected⟩
  · exact .inl ⟨_, by rw [tokensAt, tokensFrom, fed]; rfl, scanned⟩
  · exact .inr ⟨by rw [tokensAt, tokensFrom, fed]; rfl, rejected⟩

theorem split_of_tokensAt (tokens_eq : tokensAt position chars = some tokens)
    (fits : position + chars.length < positionLimit) :
    split (Placed.run position chars) = .ok tokens := by
  rcases split_run fits with ⟨found, found_eq, split_eq⟩ | ⟨none, -⟩
  · rw [tokens_eq] at found_eq
    cases found_eq
    exact split_eq
  · rw [tokens_eq] at none
    cases none

/-! ## Characters at any positions -/

/-- Tokens that stand one behind the other from a position on. -/
structure Ordered (position : Nat) (tokens : List (Token Mark)) : Prop where
  after : ∀ token ∈ tokens, position ≤ token.span.start
  order : tokens.Pairwise fun a b => a.span.stop ≤ b.span.start

theorem ordered_nil (position : Nat) : Ordered position [] := ⟨by simp, List.Pairwise.nil⟩

theorem Ordered.cons (token : Token Mark) (ordered : Ordered token.span.stop tokens) :
    Ordered token.span.start (token :: tokens) := by
  refine ⟨?_, List.pairwise_cons.mpr ⟨ordered.after, ordered.order⟩⟩
  intro t listed
  rcases List.mem_cons.mp listed with rfl | listed
  · exact Nat.le_refl _
  · exact Nat.le_trans token.span.start_le_stop (ordered.after t listed)

theorem Ordered.weaken {position' : Nat} (ordered : Ordered position tokens)
    (earlier : position' ≤ position) : Ordered position' tokens :=
  ⟨fun token listed => Nat.le_trans earlier (ordered.after token listed), ordered.order⟩

theorem Ordered.tail {token : Token Mark} (ordered : Ordered position (token :: tokens)) :
    Ordered token.span.stop tokens := by
  obtain ⟨later, order⟩ := List.pairwise_cons.mp ordered.order
  exact ⟨later, order⟩

/-- Tokens that others stand ahead of are in order from any position that none of them starts
before. -/
theorem Ordered.behind {ahead : List (Token Mark)} {edge : Nat}
    (ordered : Ordered position (ahead ++ tokens)) (after : ∀ t ∈ tokens, edge ≤ t.span.start) :
    Ordered edge tokens :=
  ⟨after, (List.pairwise_append.mp ordered.order).2.1⟩

/-- Characters whose positions do not decrease, from a position on. -/
structure Sorted (position : Nat) (chars : List Placed) : Prop where
  after : ∀ p ∈ chars, position ≤ p.position
  order : chars.Pairwise fun p q => p.position ≤ q.position
  fits : ∀ p ∈ chars, p.position + 1 < positionLimit

/-- The run can end ahead of characters from a position on. -/
def Run.Ahead : Run → Nat → Prop
  | .atom first last _, position => first ≤ last ∧ last ≤ position ∧ last + 1 < positionLimit
  | _, _ => True

/-- Where the tokens of a run begin. -/
def Run.origin : Run → Nat → Nat
  | .atom first _ _, _ => first
  | _, position => position

theorem stopAfter_sorted {place : Nat} {ahead : List Placed} (sorted : Sorted place ahead)
    (fits : place + 1 < positionLimit) :
    ∃ stop, stopAfter place ahead = .ok stop ∧ place ≤ stop ∧ Sorted stop ahead := by
  cases ahead with
  | nil => exact ⟨place + 1, advance_ok fits, by omega, by simp, List.Pairwise.nil, by simp⟩
  | cons p ahead =>
    by_cases same : p.position = place
    · exact ⟨place, if_pos same, Nat.le_refl _, sorted⟩
    · have low := sorted.after p (by simp)
      refine ⟨place + 1, (if_neg same).trans (advance_ok fits), by omega, ?_, sorted.order,
        sorted.fits⟩
      intro q listed
      rcases List.mem_cons.mp listed with rfl | listed
      · omega
      · have := (List.pairwise_cons.mp sorted.order).1 q listed
        omega

theorem Sorted.weaken {ahead : List Placed} {place place' : Nat} (sorted : Sorted place ahead)
    (earlier : place' ≤ place) : Sorted place' ahead :=
  ⟨fun p listed => Nat.le_trans earlier (sorted.after p listed), sorted.order, sorted.fits⟩

/-- A run that ends, and the tokens that may stand behind it. -/
theorem close_sorted {ahead : List Placed} {place : Nat} (is_ahead : run.Ahead place)
    (sorted : Sorted place ahead) :
    ∃ done stop, run.close ahead = .ok done ∧ Sorted stop ahead ∧
      ∀ tokens, Ordered stop tokens → Ordered (run.origin place) (done ++ tokens) := by
  cases run with
  | atom first last content =>
    obtain ⟨order, low, fits⟩ := is_ahead
    obtain ⟨stop, stop_eq, late, sorted'⟩ := stopAfter_sorted (sorted.weaken low) fits
    let token : Token Mark := ⟨.atom, String.ofList content.reverse,
      ⟨first, stop, Nat.le_trans order late⟩⟩
    refine ⟨[token], stop, ?_, sorted', fun tokens ordered => ?_⟩
    · simp only [Run.close, stop_eq, ok_bind, Span.make_ok (Nat.le_trans order late)]
      rfl
    · exact Ordered.cons token ordered
  | _ => exact ⟨[], place, rfl, sorted, fun tokens ordered => ordered⟩

theorem single_sorted {ahead : List Placed} {p : Placed} (m : Mark)
    (sorted : Sorted p.position ahead) (fits : p.position + 1 < positionLimit) :
    ∃ token stop, single m p ahead = .ok [token] ∧ Sorted stop ahead ∧
      ∀ tokens, Ordered stop tokens → Ordered p.position (token :: tokens) := by
  obtain ⟨stop, stop_eq, late, sorted'⟩ := stopAfter_sorted sorted fits
  let token : Token Mark := ⟨m, p.char.toString, ⟨p.position, stop, late⟩⟩
  refine ⟨token, stop, ?_, sorted', fun tokens ordered => ?_⟩
  · simp only [single, stop_eq, ok_bind, Span.make_ok late]
    rfl
  · exact Ordered.cons token ordered

theorem opens_ahead {place : Nat} (opened : opens place c = some run)
    (fits : place + 1 < positionLimit) : run.Ahead place ∧ run.origin place = place := by
  rcases opens_cases opened with ⟨-, rfl⟩ | ⟨-, -, rfl⟩ | ⟨-, -, rfl⟩
  · exact ⟨trivial, rfl⟩
  · exact ⟨trivial, rfl⟩
  · exact ⟨⟨Nat.le_refl _, Nat.le_refl _, fits⟩, rfl⟩

/-- What a character begins, and the tokens that may stand behind it. -/
theorem begin_sorted {ahead : List Placed} {p : Placed} (sorted : Sorted p.position ahead)
    (fits : p.position + 1 < positionLimit) :
    (∃ next complete stop, begin p ahead = .ok (next, complete) ∧ next.Ahead stop ∧
      Sorted stop ahead ∧ ∀ tokens, Ordered (next.origin stop) tokens →
        Ordered p.position (complete ++ tokens)) ∨
    ∃ r, begin p ahead = .error (.rejected r) := by
  cases mark : markOf p.char with
  | some m =>
    obtain ⟨token, stop, single_eq, sorted', ordered⟩ := single_sorted m sorted fits
    refine .inl ⟨.idle, [token], stop, ?_, trivial, sorted', ordered⟩
    rw [begin_mark ahead fits mark, single_eq]
    rfl
  | none =>
    cases opened : opens p.position p.char with
    | none => exact .inr (begin_bad ahead fits mark opened)
    | some run =>
      obtain ⟨is_ahead, origin⟩ := opens_ahead opened fits
      refine .inl ⟨run, [], p.position, begin_run ahead fits mark opened, is_ahead, sorted, ?_⟩
      intro tokens ordered
      rwa [origin] at ordered

theorem take_ahead {place : Nat} {p : Placed} (is_ahead : run.Ahead place)
    (low : place ≤ p.position) (fits : p.position + 1 < positionLimit) :
    (run.take p).Ahead p.position ∧ run.origin place ≤ (run.take p).origin p.position := by
  cases run with
  | atom first last content =>
    obtain ⟨order, before, -⟩ := is_ahead
    exact ⟨⟨by omega, Nat.le_refl _, fits⟩, Nat.le_refl _⟩
  | _ => exact ⟨trivial, low⟩

/-- Scanning ends in tokens that stand one behind the other, or in a rejection. -/
theorem scan_ordered {ahead : List Placed} {place : Nat} (is_ahead : run.Ahead place)
    (sorted : Sorted place ahead) :
    (∃ tokens, scan run ahead = .ok tokens ∧ Ordered (run.origin place) tokens) ∨
      ∃ r, scan run ahead = .error (.rejected r) := by
  induction ahead generalizing run place with
  | nil =>
    obtain ⟨done, stop, closed, -, ordered⟩ := close_sorted is_ahead sorted
    refine .inl ⟨done, by rw [scan, closed]; rfl, ?_⟩
    simpa using ordered [] (ordered_nil stop)
  | cons p ahead ih =>
    have fits := sorted.fits p (by simp)
    have low := sorted.after p (by simp)
    obtain ⟨order, order'⟩ := List.pairwise_cons.mp sorted.order
    have behind : Sorted p.position ahead :=
      ⟨order, order', fun q listed => sorted.fits q (by simp [listed])⟩
    by_cases takes : run.takes p.char = true
    · obtain ⟨is_ahead', origin⟩ := take_ahead is_ahead low fits
      simp only [scan, takes, if_true]
      rcases ih is_ahead' behind with ⟨tokens, scanned, ordered⟩ | rejected
      · exact .inl ⟨tokens, scanned, ordered.weaken origin⟩
      · exact .inr rejected
    · obtain ⟨done, stop, closed, sorted', close_ordered⟩ := close_sorted is_ahead sorted
      simp only [scan, takes, Bool.false_eq_true, if_false, closed, mapError_ok, ok_bind]
      rcases begin_sorted behind fits with
        ⟨next, complete, stop', begun, is_ahead', sorted'', begin_ordered⟩ | ⟨r, rejected⟩
      · simp only [begun, ok_bind]
        rcases ih is_ahead' sorted'' with ⟨tokens, scanned, ordered⟩ | ⟨r, rejected⟩
        · refine .inl ⟨done ++ complete ++ tokens, by rw [scanned]; rfl, ?_⟩
          rw [List.append_assoc]
          exact close_ordered _ ((begin_ordered tokens ordered).weaken (sorted'.after p (by simp)))
        · exact .inr ⟨r, by rw [rejected]; rfl⟩
      · exact .inr ⟨r, by rw [rejected]; rfl⟩

theorem sorted_run (fits : position + chars.length < positionLimit) :
    Sorted position (Placed.run position chars) := by
  induction chars generalizing position with
  | nil => exact ⟨by simp [Placed.run], List.Pairwise.nil, by simp [Placed.run]⟩
  | cons c chars ih =>
    simp only [List.length_cons] at fits
    obtain ⟨after, order, below⟩ := ih (show position + 1 + chars.length < positionLimit by omega)
    refine ⟨?_, List.pairwise_cons.mpr ⟨?_, order⟩, ?_⟩
    · intro p listed
      rcases List.mem_cons.mp listed with rfl | listed
      · exact Nat.le_refl _
      · exact Nat.le_of_succ_le (after p listed)
    · exact fun p listed => Nat.le_of_succ_le (after p listed)
    · intro p listed
      rcases List.mem_cons.mp listed with rfl | listed
      · change position + 1 < positionLimit
        omega
      · exact below p listed

/-- The token of a run that ends ahead of tokens stands ahead of them. -/
theorem Ordered.behind_run (ready : run.Ready position) (ordered : Ordered position tokens) :
    Ordered (run.origin position) (run.done ++ tokens) := by
  cases run with
  | atom first last content =>
    obtain ⟨rfl, -⟩ := ready
    exact Ordered.cons ⟨.atom, String.ofList content.reverse,
      Span.sized first content.length⟩ ordered
  | _ => exact ordered

theorem ordered_of_feed (ready : run.Ready position)
    (fed : feed run position chars = some (tokens, last)) :
    Ordered (run.origin position) (tokens ++ last.done) := by
  induction chars generalizing run position tokens with
  | nil =>
    cases fed
    simpa using (ordered_nil position).behind_run ready
  | cons c chars ih =>
    obtain ⟨complete, next, more, stepped, fed_rest, rfl⟩ := feed_cons.mp fed
    have later := ih (ready_of_step ready stepped) fed_rest
    rw [List.append_assoc]
    rcases step_cases stepped with ⟨-, rfl, rfl⟩ | ⟨-, m, -, rfl, rfl⟩ | ⟨-, -, opened, rfl⟩
    · refine later.weaken ?_
      cases run with
      | atom first last content => exact Nat.le_refl _
      | _ => exact Nat.le_succ position
    · rw [List.append_assoc]
      exact (Ordered.cons ⟨m, c.toString, Span.sized position 1⟩ later).behind_run ready
    · refine Ordered.behind_run ready (later.weaken ?_)
      rcases opens_cases opened with ⟨-, rfl⟩ | ⟨-, -, rfl⟩ | ⟨-, -, rfl⟩
      · exact Nat.le_succ position
      · exact Nat.le_succ position
      · exact Nat.le_refl position

/-- The tokens of a text stand one behind the other, however long it is. -/
theorem ordered_of_tokensAt (tokens_eq : tokensAt position chars = some tokens) :
    Ordered position tokens := by
  have idle : Run.idle.Ready position := trivial
  obtain ⟨⟨complete, last⟩, fed, rfl⟩ := Option.map_eq_some_iff.mp tokens_eq
  exact ordered_of_feed idle fed

end Lexer

end FormEdit
