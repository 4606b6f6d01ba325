import FormEdit.Language
import FormEdit.Proofs.Grammar.Covering

/-!
# Where two texts can be put together

Characters that were split apart from each other are put side by side. Their tokens stay as they are
if the language does not fuse the two characters that meet, and if it does these end up in one atom.
What decides is how the first characters end, whatever they begin with: a comment that goes on to
their end is the one case in which the two characters do not tell.
-/

namespace FormEdit

namespace Lexer

open Mode

variable {chars own behind rest u v : List Placed} {tokens more : List (Token Mark)} {p q : Placed}

theorem Fresh.of_append (first : Fresh own rest) (whole : Fresh (own ++ rest) v) :
    Fresh rest v := by
  cases rest with
  | nil => exact fun _ _ => trivial
  | cons p rest =>
    intro q head
    rw [← first.after]
    exact whole q head

/-- A piece stays one if what is put behind it begins anew. -/
theorem Piece.extend (piece : Piece own tokens behind) (fresh : behind = [] → Fresh own v) :
    Piece own tokens (behind ++ v) := by
  -- Nothing changes for what has characters behind it already.
  have head {P : Placed → Prop} (stops : ∀ q, behind.head? = some q → P q)
      (stops' : behind = [] → ∀ q, v.head? = some q → P q) :
      ∀ q, (behind ++ v).head? = some q → P q := by
    cases behind with
    | nil => exact stops' rfl
    | cons r behind => exact stops
  cases piece with
  | blank is_blank => exact .blank is_blank
  | comment opens one_line ends =>
    refine .comment opens one_line (head ends fun nothing q is_head => ?_)
    have stops := fresh nothing q is_head
    rw [after_comment opens one_line] at stops
    exact stops
  | mark is_mark => exact .mark is_mark
  | atom plain all ends =>
    refine .atom plain all (head ends fun nothing q is_head => ?_)
    have stops := fresh nothing q is_head
    rw [after_atom plain all] at stops
    exact stops

theorem Splits.extend (splits : Splits chars tokens rest) (fresh : rest = [] → Fresh chars v) :
    Splits (chars ++ v) tokens (rest ++ v) := by
  induction splits with
  | nil => exact .nil
  | @cons own chars rest tokens more piece splits ih =>
    rw [List.append_assoc]
    refine .cons (piece.extend ?_) (ih fun nothing => piece.fresh.of_append (fresh nothing))
    rintro rfl
    obtain ⟨own', nothing, -⟩ := splits.exists_own
    obtain ⟨-, rfl⟩ := List.append_eq_nil_iff.mp nothing.symm
    have whole := fresh rfl
    rwa [List.append_nil] at whole

theorem Splits.append (first : Splits chars tokens behind) (last : Splits behind more rest) :
    Splits chars (tokens ++ more) rest := by
  induction first with
  | nil => exact last
  | cons piece splits ih =>
    rw [List.append_assoc]
    exact .cons piece (ih last)

/-- What is put behind characters that end in no comment begins anew unless it goes on an atom. -/
theorem fresh_of_apart (outside : ¬EndsInComment (u.map Placed.char)) (last : u.getLast? = some p)
    (head : v.head? = some q) (apart : (inAtom p.char && inAtom q.char) = false) : Fresh u v := by
  have ends : (free.after (u.map Placed.char)).Ends (v.map Placed.char) := by
    refine ends_of_apart (fun comment => outside (endsInComment_iff.mpr comment)) ?_
    intro x y last' head'
    rw [List.getLast?_map, last] at last'
    rw [List.head?_map, head] at head'
    cases last'
    cases head'
    exact apart
  intro r head'
  cases mode : free.after (u.map Placed.char) with
  | free => trivial
  | comment =>
    rw [mode] at ends
    cases ends
  | atom =>
    rw [mode] at ends
    exact ends r.char (by rw [List.head?_map, head', Option.map_some])

/-- The characters that meet are fused: one atom has taken in both. -/
theorem exists_joined (splits : Splits (u ++ v) tokens []) (rising : Rising (u ++ v))
    (outside : ¬EndsInComment (u.map Placed.char)) (last : u.getLast? = some p)
    (head : v.head? = some q) (inside : inAtom p.char = true) (inside' : inAtom q.char = true) :
    ∃ t ∈ tokens, t.kind = .atom ∧ t.span.start ≤ p.position ∧ q.position < t.span.stop ∧
      ∃ before own own' after, u = before ++ (own ++ [p]) ∧ v = q :: own' ++ after ∧
        t.content = Placed.text (own ++ p :: q :: own') := by
  obtain ⟨ahead, rfl⟩ := List.getLast?_eq_some_iff.mp last
  rw [List.append_assoc, List.singleton_append] at splits rising
  obtain ⟨before, own, tail, after, found, rfl, rfl, amid⟩ := splits.piece_at rfl (Nat.zero_le _)
  rw [endsInComment_iff, List.append_assoc] at outside
  rcases amid.char_cases rfl with
    ⟨comment, -⟩ | ⟨-, blank, -⟩ | ⟨-, m, mark, -⟩ | ⟨mode, -, r, more, own_eq, rfl⟩
  · exact absurd comment outside
  · rw [inAtom_of_blank blank] at inside
    cases inside
  · rw [inAtom_of_mark mark] at inside
    cases inside
  · cases tail with
    | nil =>
      -- An atom that ended here would go on with the next character.
      have stops := (amid.fresh.append amid.piece.fresh) q head
      rw [mode] at stops
      rw [show inAtom q.char = false from stops] at inside'
      cases inside'
    | cons r' tail =>
      cases head
      have atom_rising : Rising (r :: more) := by
        have whole : Rising (before ++ ((own ++ p :: q :: tail) ++ after)) := by simpa using rising
        rw [← own_eq]
        exact whole.right.left
      have first : p ∈ r :: more := by simp [← own_eq]
      have second : q ∈ r :: more := by simp [← own_eq]
      refine ⟨_, amid.listed List.mem_cons_self, rfl, (over_covers .atom atom_rising first).1,
        (over_covers .atom atom_rising second).2, before, own, tail, after,
        List.append_assoc .., rfl, ?_⟩
      rw [own_eq]
      rfl

/-- Two characters that meet are a boundary of tokens if the language does not fuse them, and inside
of one atom if it does. -/
theorem fuses_marks_what_is_no_boundary (rising : Rising (u ++ v)) (last : u.getLast? = some p)
    (head : v.head? = some q) {first second : List (Token Mark)} (split_u : split u = .ok first)
    (split_v : split v = .ok second) (outside : ¬EndsInComment (u.map Placed.char)) :
    (Language.parenthesised.fuses p.char q.char = false → split (u ++ v) = .ok (first ++ second)) ∧
    (Language.parenthesised.fuses p.char q.char = true → ∀ tokens, split (u ++ v) = .ok tokens →
      ∃ t ∈ tokens, t.kind = .atom ∧ t.span.start ≤ p.position ∧ q.position < t.span.stop ∧
        ∃ before own own' after, u = before ++ (own ++ [p]) ∧ v = q :: own' ++ after ∧
          t.content = Placed.text (own ++ p :: q :: own')) := by
  constructor
  · intro apart
    have splits := (split_eq_ok rising.left).mp split_u
    have splits' := (split_eq_ok rising.right).mp split_v
    have fresh := fresh_of_apart outside last head apart
    exact split_of_splits rising ((splits.extend fun _ => fresh).append splits')
  · intro fused tokens found
    have inside := Bool.and_eq_true_iff.mp fused
    exact exists_joined ((split_eq_ok rising).mp found) rising outside last head inside.1 inside.2

/-- A list that is cut inside of its atom, with room between its characters. -/
def cutAtom : List Placed × List Placed := ([⟨2, '('⟩, ⟨3, 'a'⟩, ⟨7, ';'⟩], [⟨9, 'b'⟩, ⟨10, ')'⟩])

theorem cutAtom_is_joined : ∃ tokens, split (cutAtom.1 ++ cutAtom.2) = .ok tokens ∧
    ∃ t ∈ tokens, t.kind = .atom ∧ t.span.start ≤ 7 ∧ 9 < t.span.stop := by
  have rising : Rising (cutAtom.1 ++ cutAtom.2) := ⟨by decide, by decide⟩
  have outside : ¬EndsInComment (cutAtom.1.map Placed.char) := by
    rw [endsInComment_iff]
    decide
  have split_u : split cutAtom.1 =
      .ok [⟨.opening, "(", Span.sized 2 1⟩, ⟨.atom, "a;", Span.sized 3 5⟩] := by
    decide
  have split_v : split cutAtom.2 =
      .ok [⟨.atom, "b", Span.sized 9 1⟩, ⟨.closing, ")", Span.sized 10 1⟩] := by
    decide
  have found : split (cutAtom.1 ++ cutAtom.2) = .ok
      [⟨.opening, "(", Span.sized 2 1⟩, ⟨.atom, "a;b", Span.sized 3 7⟩,
        ⟨.closing, ")", Span.sized 10 1⟩] := by
    decide
  have joined := fuses_marks_what_is_no_boundary rising rfl rfl split_u split_v outside
  obtain ⟨t, mem, kind, start, stop, -⟩ := joined.2 (by decide) _ found
  exact ⟨_, found, t, mem, kind, start, stop⟩

end Lexer

end FormEdit
