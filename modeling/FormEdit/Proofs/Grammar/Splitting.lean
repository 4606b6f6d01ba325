import FormEdit.Proofs.Grammar.Comments

/-!
# Texts as blanks, comments and tokens

`Splits` takes characters apart without saying how they are scanned: into blanks, comments,
parentheses and quotes, and atoms that go on as far as they can. `scan_of_splits` says that these
are the tokens which are found if the positions rise, and `exists_splits` that nothing but a bad
character ends a split early, so `split_eq_ok` is an equivalence. Each piece is found as if it stood
alone: `Amid` is a piece in its place, and `Splits.piece_at` and `Splits.piece_of_token` lead to it
from a character and from a token.
-/

namespace FormEdit

/-- A token over characters, of which there is at least one: it begins at the first and ends behind
the last. -/
def Token.over (kind : Mark) (p : Placed) (more : List Placed) : Token Mark :=
  ⟨kind, Placed.text (p :: more),
    Span.sized p.position ((more.getLast?.getD p).position + 1 - p.position)⟩

namespace Lexer

/-- Characters at positions that rise and leave room for the end of a token. -/
structure Rising (chars : List Placed) : Prop where
  order : chars.Pairwise fun p q => p.position < q.position
  fits : ∀ p ∈ chars, p.position + 1 < positionLimit

/-- One blank, comment or token, and the characters behind it. -/
inductive Piece : List Placed → List (Token Mark) → List Placed → Prop
  | blank {p : Placed} {behind : List Placed} (is_blank : Text.isBlank p.char = true) :
      Piece [p] [] behind
  | comment {p : Placed} {line behind : List Placed} (opens : p.char = ';')
      (one_line : ∀ q ∈ line, q.char ≠ '\n') (ends : ∀ q, behind.head? = some q → q.char = '\n') :
      Piece (p :: line) [] behind
  | mark {p : Placed} {m : Mark} {behind : List Placed} (is_mark : markOf p.char = some m) :
      Piece [p] [Token.over m p []] behind
  | atom {p : Placed} {more behind : List Placed} (plain : p.char ≠ ';')
      (all : ∀ q ∈ p :: more, inAtom q.char = true)
      (ends : ∀ q, behind.head? = some q → inAtom q.char = false) :
      Piece (p :: more) [Token.over .atom p more] behind

/-- Pieces one behind the other, with their tokens, and what stands behind them. -/
inductive Splits : List Placed → List (Token Mark) → List Placed → Prop
  | nil {rest : List Placed} : Splits rest [] rest
  | cons {own chars rest : List Placed} {tokens more : List (Token Mark)}
      (piece : Piece own tokens chars)
      (splits : Splits chars more rest) : Splits (own ++ chars) (tokens ++ more) rest

variable {run : Run} {p : Placed} {chars own rest more : List Placed}
  {tokens done : List (Token Mark)}

theorem Rising.right {ahead : List Placed} (rising : Rising (ahead ++ chars)) : Rising chars :=
  ⟨(List.pairwise_append.mp rising.order).2.1,
    fun p mem => rising.fits p (List.mem_append_right _ mem)⟩

theorem Rising.left {behind : List Placed} (rising : Rising (chars ++ behind)) : Rising chars :=
  ⟨(List.pairwise_append.mp rising.order).1,
    fun p mem => rising.fits p (List.mem_append_left _ mem)⟩

theorem rising_run {position : Nat} {text : List Char}
    (fits : position + text.length < positionLimit) :
    Rising (Placed.run position text) := by
  refine ⟨?_, (sorted_run fits).fits⟩
  induction text generalizing position with
  | nil => exact List.Pairwise.nil
  | cons c text ih =>
    rw [List.length_cons] at fits
    have room : position + 1 + text.length < positionLimit := by omega
    exact List.pairwise_cons.mpr ⟨(sorted_run room).after, ih room⟩

/-! ## The scan finds the pieces -/

theorem stopAfter_rising (rising : Rising (p :: chars)) :
    stopAfter p.position chars = .ok (p.position + 1) := by
  have fits := rising.fits p List.mem_cons_self
  cases chars with
  | nil => exact advance_ok fits
  | cons q chars =>
    have behind := (List.pairwise_cons.mp rising.order).1 q List.mem_cons_self
    rw [stopAfter, if_neg (Nat.ne_of_gt behind)]
    exact advance_ok fits

/-- A run that ends leaves its token, and the scan begins anew. -/
theorem scan_closed (closed : run.close chars = .ok done)
    (apart : ∀ q, chars.head? = some q → run.takes q.char = false) :
    scan run chars = (scan .idle chars).map (done ++ ·) := by
  cases chars with
  | nil =>
    rw [scan, closed]
    simp [scan, Run.close, Except.map]
  | cons q chars =>
    have idle : Run.idle.close (q :: chars) = .ok [] := rfl
    simp only [scan, apart q rfl, show Run.idle.takes q.char = false from rfl, Bool.false_eq_true,
      if_false, closed, idle, mapError_ok, ok_bind, List.nil_append]
    cases begin q chars with
    | error failure => rfl
    | ok begun =>
      simp only [ok_bind]
      cases scan begun.1 chars with
      | error failure => rfl
      | ok later => simp [Except.map]

theorem map_nothing (result : Except Failure (List (Token Mark))) :
    result.map ([] ++ ·) = result := by
  cases result <;> rfl

theorem scan_idle (p : Placed) (chars : List Placed) :
    scan .idle (p :: chars) = begin p chars >>= fun begun =>
      (scan begun.1 chars).map (begun.2 ++ ·) := by
  simp only [scan, Run.takes, Bool.false_eq_true, if_false, Run.close, pure_eq_ok, mapError_ok,
    ok_bind, List.nil_append]
  apply congrArg
  funext begun
  cases scan begun.1 chars <;> rfl

/-- A character that begins a run leads into it. -/
theorem scan_opened (rising : Rising (p :: chars)) (mark : markOf p.char = none)
    (opened : opens p.position p.char = some run) : scan .idle (p :: chars) = scan run chars := by
  rw [scan_idle, begin_run chars (rising.fits p List.mem_cons_self) mark opened, ok_bind]
  exact map_nothing _

theorem opens_blank {position : Nat} {c : Char} (blank : Text.isBlank c = true) :
    opens position c = some .blank := by
  have plain : c ≠ ';' := by
    rintro rfl
    exact absurd blank (by decide)
  rw [opens, if_neg plain, if_pos blank]

theorem scan_blank (rising : Rising chars) : scan .blank chars = scan .idle chars := by
  cases chars with
  | nil => rfl
  | cons q chars =>
    by_cases blank : Text.isBlank q.char = true
    · have takes : Run.blank.takes q.char = true := blank
      rw [scan_opened rising (markOf_of_blank blank) (opens_blank blank), scan, if_pos takes]
      rfl
    · have nothing : Run.blank.close (q :: chars) = .ok [] := rfl
      rw [scan_closed nothing, map_nothing]
      rintro _ ⟨⟩
      simpa [Run.takes] using blank

theorem scan_comment {line : List Placed} (one_line : ∀ q ∈ line, q.char ≠ '\n') :
    scan .comment (line ++ chars) = scan .comment chars := by
  induction line with
  | nil => rfl
  | cons q line ih =>
    have takes : Run.comment.takes q.char = true := by
      simpa [Run.takes] using one_line q List.mem_cons_self
    rw [List.cons_append, scan, if_pos takes]
    exact ih fun q mem => one_line q (List.mem_cons_of_mem _ mem)

theorem scan_atom {first : Nat} {content : List Char} (all : ∀ q ∈ more, inAtom q.char = true) :
    scan (.atom first p.position content) (more ++ chars) = scan
      (.atom first (more.getLast?.getD p).position ((more.map Placed.char).reverse ++ content))
        chars := by
  induction more generalizing p content with
  | nil => rfl
  | cons q more ih =>
    have takes : (Run.atom first p.position content).takes q.char = true := all q List.mem_cons_self
    rw [List.cons_append, scan, if_pos takes, Run.take,
      ih fun q mem => all q (List.mem_cons_of_mem _ mem)]
    simp [List.getLast?_cons]

theorem stop_over (kind : Mark) (order : p.position ≤ (more.getLast?.getD p).position) :
    (Token.over kind p more).span.stop = (more.getLast?.getD p).position + 1 := by
  change p.position + ((more.getLast?.getD p).position + 1 - p.position) = _
  omega

/-- The last of the characters of a piece is at the first one or behind it. -/
theorem Rising.le_last (rising : Rising (p :: more)) :
    p.position ≤ (more.getLast?.getD p).position := by
  cases last : more.getLast? with
  | none => exact Nat.le_refl _
  | some q =>
    exact Nat.le_of_lt ((List.pairwise_cons.mp rising.order).1 q (List.mem_of_getLast? last))

/-- The last of the characters, and what stands behind them. -/
theorem Rising.last (rising : Rising (p :: more ++ chars)) :
    Rising (more.getLast?.getD p :: chars) := by
  rcases List.eq_nil_or_concat more with rfl | ⟨front, q, rfl⟩
  · exact rising
  · rw [List.concat_eq_append] at rising ⊢
    rw [List.getLast?_concat, Option.getD_some]
    rw [← List.cons_append, List.append_assoc] at rising
    exact rising.right

theorem single_rising (m : Mark) (rising : Rising (p :: chars)) :
    single m p chars = .ok [Token.over m p []] := by
  have stop : (Token.over m p []).span.stop = p.position + 1 := stop_over m (Nat.le_refl _)
  simp only [single, stopAfter_rising rising, ok_bind, Span.make_ok (Nat.le_succ p.position),
    pure_eq_ok, Except.ok.injEq, List.cons.injEq, and_true, Token.over, Token.mk.injEq, true_and]
  constructor
  · exact String.singleton_eq_ofList
  · exact Span.ext rfl stop.symm

theorem close_rising (rising : Rising (p :: more ++ chars)) :
    (Run.atom p.position (more.getLast?.getD p).position
      ((more.map Placed.char).reverse ++ [p.char])).close
      chars = .ok [Token.over .atom p more] := by
  have order := rising.left.le_last
  simp only [Run.close, stopAfter_rising rising.last, ok_bind,
    Span.make_ok (Nat.le_succ_of_le order), pure_eq_ok, Except.ok.injEq, List.cons.injEq, and_true,
    Token.over, Token.mk.injEq, true_and]
  constructor
  · simp [Placed.text]
  · exact Span.ext rfl (stop_over .atom order).symm

/-- The scan finds the tokens of a piece and begins anew behind it. -/
theorem Piece.scan (piece : Piece own tokens chars) (rising : Rising (own ++ chars)) :
    scan .idle (own ++ chars) = (Lexer.scan .idle chars).map (tokens ++ ·) := by
  cases piece with
  | @blank p _ is_blank =>
    rw [map_nothing, ← scan_blank (Rising.right rising)]
    exact scan_opened rising (markOf_of_blank is_blank) (opens_blank is_blank)
  | @comment p line _ is_comment one_line ends =>
    have nothing : Run.comment.close chars = .ok [] := rfl
    have opened : opens p.position p.char = some .comment := if_pos is_comment
    have mark : markOf p.char = none := by
      rw [is_comment]
      decide
    rw [List.cons_append] at rising ⊢
    rw [scan_opened rising mark opened, scan_comment one_line, scan_closed nothing]
    intro q head
    simp [Run.takes, ends q head]
  | @mark p m _ is_mark =>
    have fits := rising.fits p List.mem_cons_self
    rw [List.singleton_append] at rising ⊢
    rw [scan_idle, begin_mark chars fits is_mark, single_rising m rising]
    rfl
  | @atom p more _ plain all ends =>
    have atom := all p List.mem_cons_self
    have opened : opens p.position p.char = some (.atom p.position p.position [p.char]) := by
      simp [opens, plain, isBlank_of_inAtom atom, atom]
    have closed := close_rising rising
    rw [List.cons_append] at rising ⊢
    rw [scan_opened rising (markOf_of_inAtom atom) opened,
      scan_atom fun q mem => all q (List.mem_cons_of_mem _ mem)]
    exact scan_closed closed ends

theorem scan_of_splits (splits : Splits chars tokens rest) (rising : Rising chars) :
    scan .idle chars = (scan .idle rest).map (tokens ++ ·) := by
  induction splits with
  | nil => exact (map_nothing _).symm
  | cons piece splits ih =>
    rw [piece.scan rising, ih rising.right]
    cases scan .idle _ <;> simp [Except.map]

/-! ## Every text is split -/

theorem Piece.exists_first (p : Placed) (chars : List Placed) (good : isBad p.char = false) :
    ∃ own tokens behind, Piece (p :: own) tokens behind ∧ chars = own ++ behind := by
  have ends_here (goes_on : Placed → Bool) :
      ∀ q, (chars.dropWhile goes_on).head? = some q → goes_on q = false := by
    intro q head
    have stopped := List.head?_dropWhile_not goes_on chars
    rw [head] at stopped
    simpa using stopped
  have all_go_on (goes_on : Placed → Bool) : ∀ q ∈ chars.takeWhile goes_on, goes_on q = true :=
    List.all_eq_true.mp List.all_takeWhile
  by_cases is_comment : p.char = ';'
  · refine ⟨chars.takeWhile (·.char != '\n'), [], chars.dropWhile (·.char != '\n'),
      .comment is_comment ?_ ?_, List.takeWhile_append_dropWhile.symm⟩
    · intro q mem
      simpa using all_go_on _ q mem
    · intro q head
      simpa using ends_here _ q head
  · rcases classify p.char with blank | ⟨m, mark⟩ | atom | bad
    · exact ⟨[], [], chars, .blank blank, rfl⟩
    · exact ⟨[], _, chars, .mark mark, rfl⟩
    · refine ⟨chars.takeWhile (inAtom ·.char), _, chars.dropWhile (inAtom ·.char),
        .atom is_comment ?_ (ends_here _), List.takeWhile_append_dropWhile.symm⟩
      intro q mem
      rcases List.mem_cons.mp mem with rfl | mem
      · exact atom
      · exact all_go_on _ q mem
    · rw [good] at bad
      cases bad

/-- Characters are split up to their end or up to a bad one. -/
theorem exists_splits (chars : List Placed) : ∃ tokens rest, Splits chars tokens rest ∧
    ∀ p, rest.head? = some p → isBad p.char = true := by
  induction length : chars.length using Nat.strongRecOn generalizing chars with
  | _ n ih =>
    cases chars with
    | nil => exact ⟨[], [], .nil, nofun⟩
    | cons p chars =>
      cases bad : isBad p.char with
      | true =>
        refine ⟨[], p :: chars, .nil, ?_⟩
        rintro _ ⟨⟩
        exact bad
      | false =>
        obtain ⟨own, tokens, behind, piece, rfl⟩ := Piece.exists_first p chars bad
        simp only [List.length_cons, List.length_append] at length
        obtain ⟨more, rest, splits, ends⟩ := ih behind.length (by omega) behind rfl
        exact ⟨tokens ++ more, rest, .cons piece splits, ends⟩

/-! ## Pieces in their places -/

open Mode

/-- The atom or comment under way, if there is one, ends ahead of the character. -/
def Mode.StopsAt : Mode → Char → Prop
  | .free, _ => True
  | .atom, c => inAtom c = false
  | .comment, c => c = '\n'

theorem next_of_stopsAt {m : Mode} {c : Char} (stops : m.StopsAt c) : m.next c = free.next c := by
  cases m with
  | free => rfl
  | atom => exact next_atom stops
  | comment => rw [show c = '\n' from stops, next_newline, next_newline]

/-- What stands behind begins as if it stood alone. -/
def Fresh (ahead behind : List Placed) : Prop :=
  ∀ p, behind.head? = some p → (free.after (ahead.map Placed.char)).StopsAt p.char

variable {ahead behind : List Placed} {found : List (Token Mark)}

theorem Fresh.after (fresh : Fresh ahead (p :: behind)) (own : List Placed) :
    free.after ((ahead ++ p :: own).map Placed.char) = free.after ((p :: own).map Placed.char) := by
  rw [List.map_append, after_append, List.map_cons, after_cons, after_cons,
    next_of_stopsAt (fresh p rfl)]

theorem Fresh.append (first : Fresh ahead (own ++ rest)) (second : Fresh own rest) :
    Fresh (ahead ++ own) rest := by
  cases own with
  | nil => rwa [List.append_nil]
  | cons p own =>
    intro q head
    rw [first.after]
    exact second q head

/-- No atom goes on into one that begins anew. -/
theorem Fresh.apart {q : Placed} (fresh : Fresh ahead (p :: behind)) (inside : inAtom p.char = true)
    (last : ahead.getLast? = some q) : inAtom q.char = false := by
  have stops := fresh p rfl
  obtain ⟨front, rfl⟩ := List.getLast?_eq_some_iff.mp last
  rw [List.map_append, after_append, List.map_singleton, after_cons, after_nil] at stops
  cases mode : (free.after (front.map Placed.char)).next q.char with
  | free => exact inAtom_of_next_free mode
  | atom =>
    rw [mode, show Mode.atom.StopsAt p.char = (inAtom p.char = false) from rfl, inside] at stops
    cases stops
  | comment =>
    rw [mode] at stops
    rw [show p.char = '\n' from stops] at inside
    cases inside

theorem after_comment (opens : p.char = ';') (one_line : ∀ q ∈ more, q.char ≠ '\n') :
    free.after ((p :: more).map Placed.char) = .comment := by
  rw [List.map_cons, after_cons, next, if_pos opens]
  apply comment_after
  simpa using one_line

theorem after_atom (plain : p.char ≠ ';') (all : ∀ q ∈ p :: more, inAtom q.char = true) :
    free.after ((p :: more).map Placed.char) = .atom := by
  have begun : free.next p.char = .atom := by
    rw [next, if_neg plain, if_pos (all p List.mem_cons_self)]
  rw [List.map_cons, after_cons, begun]
  apply atom_after
  simpa using fun q mem => all q (List.mem_cons_of_mem _ mem)

theorem after_other (other : inAtom p.char = false) : free.after ([p].map Placed.char) = .free :=
  next_other other

theorem Piece.fresh (piece : Piece own tokens rest) : Fresh own rest := by
  intro q head
  cases piece with
  | blank is_blank =>
    rw [after_other (inAtom_of_blank is_blank)]
    trivial
  | comment opens one_line ends =>
    rw [after_comment opens one_line]
    exact ends q head
  | mark is_mark =>
    rw [after_other (inAtom_of_mark is_mark)]
    trivial
  | atom plain all ends =>
    rw [after_atom plain all]
    exact ends q head

theorem Splits.exists_own (splits : Splits chars tokens rest) :
    ∃ own, chars = own ++ rest ∧ Fresh own rest := by
  induction splits with
  | nil => exact ⟨[], rfl, fun _ _ => trivial⟩
  | @cons first chars rest tokens more piece splits ih =>
    obtain ⟨own, rfl, fresh⟩ := ih
    exact ⟨first ++ own, (List.append_assoc ..).symm, piece.fresh.append fresh⟩

/-- A piece with what stands ahead of it and behind it, and its tokens among others. -/
structure Amid (ahead own behind : List Placed) (found tokens : List (Token Mark)) : Prop where
  piece : Piece own found behind
  fresh : Fresh ahead (own ++ behind)
  listed : found ⊆ tokens

theorem Piece.amid (piece : Piece own found behind) (more : List (Token Mark)) :
    Amid [] own behind found (found ++ more) :=
  ⟨piece, fun _ _ => trivial, List.subset_append_left found more⟩

theorem Amid.further {first : List Placed} {others : List (Token Mark)}
    (amid : Amid ahead own behind found tokens)
    (piece : Piece first others (ahead ++ (own ++ behind))) :
    Amid (first ++ ahead) own behind found (others ++ tokens) :=
  ⟨amid.piece, piece.fresh.append amid.fresh,
    fun _ mem => List.mem_append_right _ (amid.listed mem)⟩

/-- Every character that is split off belongs to a piece. -/
theorem Splits.piece_at (splits : Splits chars tokens rest) (same : chars = ahead ++ p :: behind)
    (inside : rest.length ≤ behind.length) : ∃ ahead' front tail behind' found,
      ahead = ahead' ++ front ∧ behind = tail ++ behind' ∧
        Amid ahead' (front ++ p :: tail) behind' found tokens := by
  induction splits generalizing ahead with
  | nil =>
    rw [same, List.length_append, List.length_cons] at inside
    omega
  | cons piece splits ih =>
    rcases append_cases same with ⟨tail, rfl, rfl⟩ | ⟨ahead', rfl, rfl⟩
    · exact ⟨[], ahead, tail, _, _, rfl, rfl, piece.amid _⟩
    · obtain ⟨ahead'', front, tail, behind', found', rfl, rfl, amid⟩ := ih rfl inside
      refine ⟨_, front, tail, behind', found', (List.append_assoc ..).symm, rfl, amid.further ?_⟩
      simpa using piece

theorem Splits.piece_of_token {t : Token Mark} (splits : Splits chars tokens rest)
    (mem : t ∈ tokens) :
    ∃ ahead own behind found, chars = ahead ++ (own ++ behind) ∧ t ∈ found ∧
      Amid ahead own behind found tokens := by
  induction splits with
  | nil => cases mem
  | @cons first chars rest others tokens piece splits ih =>
    rcases List.mem_append.mp mem with mem | mem
    · exact ⟨[], first, chars, others, rfl, mem, piece.amid tokens⟩
    · obtain ⟨ahead, own, behind, found, rfl, mem, amid⟩ := ih mem
      exact ⟨first ++ ahead, own, behind, found, (List.append_assoc ..).symm, mem,
        amid.further piece⟩

/-! ## What the scanner answers -/

theorem opens_bad {position : Nat} {c : Char} (bad : isBad c = true) : opens position c = none := by
  obtain ⟨-, solid, outside⟩ := isBad_iff.mp bad
  have plain : c ≠ ';' := by
    rintro rfl
    cases outside
  simp [opens, plain, solid, outside]

theorem split_of_splits (rising : Rising chars) (splits : Splits chars tokens []) :
    split chars = .ok tokens := by
  rw [split, scan_of_splits splits rising]
  simp [scan, Run.close, Except.map]

/-- The scanner splits characters at positions that rise, or rejects the bad one that it comes
to. -/
theorem split_rising (rising : Rising chars) :
    (∃ tokens, Splits chars tokens [] ∧ split chars = .ok tokens) ∨
    ∃ tokens p behind, Splits chars tokens (p :: behind) ∧ isBad p.char = true ∧
      split chars = reject (.badToken "control character") (Span.sized p.position 1) := by
  obtain ⟨tokens, rest, splits, ends⟩ := exists_splits chars
  cases rest with
  | nil => exact .inl ⟨tokens, splits, split_of_splits rising splits⟩
  | cons p behind =>
    have bad := ends p rfl
    have scanned := scan_of_splits splits rising
    obtain ⟨own, rfl, -⟩ := splits.exists_own
    have fits := rising.right.fits p List.mem_cons_self
    refine .inr ⟨tokens, p, behind, splits, bad, ?_⟩
    rw [split, scanned, scan_idle, begin_control behind fits (isBad_iff.mp bad).1 (opens_bad bad)]
    rfl

theorem split_eq_ok (rising : Rising chars) :
    split chars = .ok tokens ↔ Splits chars tokens [] := by
  constructor
  · intro found
    rcases split_rising rising with ⟨tokens', splits, found'⟩ | ⟨-, p, -, -, -, rejected⟩
    · cases found'.symm.trans found
      exact splits
    · cases rejected.symm.trans found
  · exact split_of_splits rising

end Lexer

end FormEdit
