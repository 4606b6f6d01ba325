import FormEdit.Proofs.Weave.Reading

/-!
# Reading a part of a text

Blanks around a text make no difference to what it reads as (`Reads.strip`), and a text that reads
as a form leaves nothing to be read behind it (`Reads.rest_blank`), unless its last character and
the next one read as one token.
-/

namespace FormEdit

namespace Lexer

variable {position : Nat} {chars rest bs : List Char} {tokens later : List (Token Mark)}

theorem Lexes.tokens_nil (lexes : Lexes position [] tokens) : tokens = [] := by
  generalize none : ([] : List Char) = chars at lexes
  cases lexes with
  | nil => rfl
  | blank _ _ => cases none
  | mark _ _ => cases none
  | atom nonempty _ _ _ => simp [nonempty] at none

theorem Lexes.skip {c : Char} (lexes : Lexes position (c :: chars) tokens)
    (blank : Text.isBlank c = true) : Lexes (position + 1) chars tokens := by
  generalize whole : c :: chars = text at lexes
  cases lexes with
  | nil => cases whole
  | blank _ more =>
    cases whole
    exact more
  | mark is_mark _ =>
    cases whole
    simp [isBlank_of_mark is_mark] at blank
  | @atom _ content _ _ nonempty all _ _ =>
    cases content with
    | nil => exact absurd rfl nonempty
    | cons d content =>
      cases whole
      simp [isBlank_of_inAtom (all c (by simp))] at blank

theorem Lexes.skipAll (lexes : Lexes position (bs ++ chars) tokens)
    (blank : ∀ c ∈ bs, Text.isBlank c = true) : Lexes (position + bs.length) chars tokens := by
  induction bs generalizing position with
  | nil => exact lexes
  | cons b bs ih =>
    have more := ih (lexes.skip (blank b (by simp))) fun c hc => blank c (by simp [hc])
    rwa [List.length_cons, Nat.add_comm bs.length 1, ← Nat.add_assoc]

/-- Blanks at the end of a text belong to no token. -/
theorem Lexes.trim {text : List Char} (lexes : Lexes position text tokens) :
    ∀ {chars bs : List Char}, text = chars ++ bs → (∀ c ∈ bs, Text.isBlank c = true) →
      Lexes position chars tokens := by
  induction lexes with
  | nil =>
    intro chars bs split _
    obtain ⟨rfl, -⟩ := List.append_eq_nil_iff.mp split.symm
    exact .nil
  | blank is_blank more ih =>
    intro chars bs split blank
    cases chars with
    | nil =>
      subst split
      have none : Lexes _ [] _ := ih rfl fun c hc => blank c (by simp [hc])
      rw [none.tokens_nil]
      exact .nil
    | cons c chars =>
      cases split
      exact .blank is_blank (ih rfl blank)
  | @mark _ c _ _ _ is_mark more ih =>
    intro chars bs split blank
    cases chars with
    | nil =>
      subst split
      have is_blank := blank c (by simp)
      simp [isBlank_of_mark is_mark] at is_blank
    | cons c chars =>
      cases split
      exact .mark is_mark (ih rfl blank)
  | @atom position content rest tokens nonempty all ends more ih =>
    intro chars bs split blank
    rcases List.append_eq_append_iff.mp split with
      ⟨more_chars, rfl, rest_eq⟩ | ⟨spare, content_eq, bs_eq⟩
    · refine .atom nonempty all ?_ (ih rest_eq blank)
      intro c head
      refine ends c ?_
      rw [rest_eq, List.head?_append, head]
      rfl
    · cases spare with
      | nil =>
        rw [List.append_nil] at content_eq
        subst content_eq
        have none : Lexes (position + content.length) [] tokens :=
          ih (by simpa using bs_eq.symm) blank
        simpa using Lexes.atom nonempty all (by simp [NotInAtom]) none
      | cons c spare =>
        have is_blank := blank c (by rw [bs_eq]; simp)
        have in_atom := all c (by rw [content_eq]; simp)
        simp [isBlank_of_inAtom in_atom] at is_blank

theorem Lexes.clean (lexes : Lexes position chars tokens) : ∀ c ∈ chars, isBad c = false := by
  induction lexes with
  | nil => simp
  | blank is_blank _ ih =>
    intro c mem
    rcases List.mem_cons.mp mem with rfl | mem
    · simp [isBad, is_blank]
    · exact ih c mem
  | mark is_mark _ ih =>
    intro c mem
    rcases List.mem_cons.mp mem with rfl | mem
    · exact isBad_of_mark is_mark
    · exact ih c mem
  | atom _ all _ _ ih =>
    intro c mem
    rcases List.mem_append.mp mem with mem | mem
    · exact isBad_of_inAtom (all c mem)
    · exact ih c mem

/-- Two texts side by side have the tokens of both, if they do not run into each other. -/
theorem Lexes.append (lexes : Lexes position chars tokens)
    (more : Lexes (position + chars.length) rest later)
    (apart : ∀ x y, chars.getLast? = some x → rest.head? = some y →
      (inAtom x && inAtom y) = false) :
    Lexes position (chars ++ rest) (tokens ++ later) := by
  induction lexes with
  | nil => exact more
  | @blank position c chars tokens is_blank _ ih =>
    refine .blank is_blank (ih ?_ ?_)
    · rwa [Nat.add_assoc, Nat.add_comm 1]
    · intro x y last head
      exact apart x y (by rw [List.getLast?_cons, last]; rfl) head
  | @mark position c m chars tokens is_mark _ ih =>
    refine .mark is_mark (ih ?_ ?_)
    · rwa [Nat.add_assoc, Nat.add_comm 1]
    · intro x y last head
      exact apart x y (by rw [List.getLast?_cons, last]; rfl) head
  | @atom position content chars tokens nonempty all ends _ ih =>
    rw [List.append_assoc]
    refine .atom nonempty all ?_ (ih ?_ ?_)
    · intro y head
      cases chars with
      | nil =>
        obtain ⟨x, last⟩ : ∃ x, content.getLast? = some x :=
          Option.isSome_iff_exists.mp (by simpa using nonempty)
        have fused := apart x y (by simpa using last) head
        rwa [all x (List.mem_of_getLast? last), Bool.true_and] at fused
      | cons d chars => exact ends y head
    · rwa [Nat.add_assoc, ← List.length_append]
    · intro x y last head
      exact apart x y (by rw [List.getLast?_append, last]; rfl) head

end Lexer

namespace Language

open Lexer Reader

variable {position : Nat} {chars rest bs bs' : List Char} {f g : Form}

/-- Blanks around a text make no difference. -/
theorem Reads.strip (reads : Reads position (bs ++ chars ++ bs') f)
    (blank : ∀ c ∈ bs, Text.isBlank c = true) (blank' : ∀ c ∈ bs', Text.isBlank c = true) :
    Reads (position + bs.length) chars f := by
  obtain ⟨tokens, lexes, derives⟩ := reads
  rw [List.append_assoc] at lexes
  exact ⟨tokens, (lexes.skipAll blank).trim rfl blank', derives⟩

theorem Reads.pad (reads : Reads (position + bs.length) chars f)
    (blank : ∀ c ∈ bs, Text.isBlank c = true) (blank' : ∀ c ∈ bs', Text.isBlank c = true) :
    Reads position (bs ++ chars ++ bs') f := by
  obtain ⟨tokens, lexes, derives⟩ := reads
  have none : Lexes (position + bs.length + chars.length) bs' [] := by
    simpa using Lexes.blanks blank' .nil
  have padded := lexes.append none fun x y _ head => by
    have is_blank := blank' y (List.mem_of_head? head)
    simp [inAtom_of_blank is_blank]
  rw [List.append_nil] at padded
  rw [List.append_assoc]
  exact ⟨tokens, padded.blanks blank, derives⟩

/-- Behind a form there is nothing more to read. -/
theorem Reads.rest_blank (reads : Reads position chars f) (whole : Reads position (chars ++ rest) g)
    (apart : ∀ x y, chars.getLast? = some x → rest.head? = some y → (inAtom x && inAtom y) = false)
    (fits : position + (chars ++ rest).length < positionLimit) (plain : ';' ∉ chars ++ rest) :
    ∀ c ∈ rest, Text.isBlank c = true := by
  obtain ⟨tokens, lexes, derives⟩ := reads
  obtain ⟨all, lexes_all, derives_all⟩ := whole
  obtain ⟨later, lexes_later⟩ : ∃ later, Lexes (position + chars.length) rest later :=
    exists_lexes _ fun c mem => lexes_all.clean c (List.mem_append_right _ mem)
  have same : all = tokens ++ later := by
    have first := split_of_lexes lexes_all fits plain
    rw [split_of_lexes (lexes.append lexes_later apart) fits plain] at first
    cases first
    rfl
  have read := readForm_of_derives (derives.extend later)
  rw [← same, readForm_of_derives derives_all] at read
  cases read
  exact lexes_later.blank_of_nil

end Language

end FormEdit
