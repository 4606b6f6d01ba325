import FormEdit.Proofs.Grammar.Accepted
import FormEdit.Proofs.Grammar.Holes
import FormEdit.Proofs.Grammar.Seams

/-!
# What a text can do without

Whether tokens are those of a form depends on nothing but their kinds. A form can do without any of
its quotes and without an atom that stands behind another one, so a text that reads still does so
when a blank or a quote is deleted (`Reads.drop`). It can also do without a character that the node
behind it would take in on its own (`Reads.drop_ahead`).
-/

namespace FormEdit

namespace Lexer

variable {position : Nat} {chars content rest : List Char} {tokens : List (Token Mark)}
  {inside : Bool}

/-! ## The kinds of the tokens of a text -/

/-- The kinds of the tokens that begin in a text, `inside` of an atom or not. -/
def kindsFrom : Bool → List Char → List Mark
  | _, [] => []
  | inside, c :: rest =>
    if inAtom c then (if inside then [] else [.atom]) ++ kindsFrom true rest
    else (markOf c).toList ++ kindsFrom false rest

/-- A text that begins inside of an atom or not ends inside of an atom. -/
def insideAfter (inside : Bool) (chars : List Char) : Bool :=
  chars.foldl (fun _ c => inAtom c) inside

theorem kindsFrom_append (inside : Bool) (chars rest : List Char) :
    kindsFrom inside (chars ++ rest) =
    kindsFrom inside chars ++ kindsFrom (insideAfter inside chars) rest := by
  induction chars generalizing inside with
  | nil => rfl
  | cons c chars ih =>
    cases atom : inAtom c <;> simp [kindsFrom, insideAfter, atom, ih]

/-- A text that ends inside of an atom has that atom as its last token. -/
theorem last_kind (ends : insideAfter inside chars = true) :
    inside = true ∧ kindsFrom inside chars = [] ∨
      (kindsFrom inside chars).getLast? = some .atom := by
  induction chars generalizing inside with
  | nil => exact .inl ⟨ends, rfl⟩
  | cons c chars ih =>
    cases atom : inAtom c with
    | true =>
      simp only [insideAfter, List.foldl_cons, atom] at ends
      rcases ih ends with ⟨-, none⟩ | last
      · cases inside <;> simp [kindsFrom, atom, none]
      · cases inside <;> simp [kindsFrom, atom, last, List.getLast?_cons]
    | false =>
      simp only [insideAfter, List.foldl_cons, atom] at ends
      rcases ih ends with ⟨impossible, -⟩ | last
      · cases impossible
      · simp [kindsFrom, atom, List.getLast?_append, last]

/-- At most one token more begins in a text if it does not begin inside of an atom. -/
theorem kindsFrom_true (chars : List Char) :
    kindsFrom false chars = kindsFrom true chars ∨
      kindsFrom false chars = .atom :: kindsFrom true chars := by
  cases chars with
  | nil => exact .inl rfl
  | cons c chars =>
    cases atom : inAtom c with
    | true => exact .inr (by simp [kindsFrom, atom])
    | false => exact .inl (by simp [kindsFrom, atom])

theorem kindsFrom_atom (all : ∀ c ∈ content, inAtom c = true) :
    kindsFrom true (content ++ rest) = kindsFrom true rest := by
  induction content with
  | nil => rfl
  | cons c content ih =>
    simpa [kindsFrom, all c (by simp)] using ih fun d mem => all d (by simp [mem])

theorem Lexes.kinds (lexes : Lexes position chars tokens) :
    tokens.map Token.kind = kindsFrom false chars := by
  induction lexes with
  | nil => rfl
  | blank is_blank more ih =>
    simp [kindsFrom, inAtom_of_blank is_blank, markOf_of_blank is_blank, ih]
  | mark is_mark more ih => simp [kindsFrom, inAtom_of_mark is_mark, is_mark, ih]
  | @atom position content rest tokens nonempty all ends more ih =>
    obtain ⟨c, content, rfl⟩ := List.exists_cons_of_ne_nil nonempty
    have apart : kindsFrom true rest = kindsFrom false rest := by
      cases rest with
      | nil => rfl
      | cons d rest => simp [kindsFrom, ends d rfl]
    have taken : kindsFrom true (content ++ rest) = kindsFrom true rest :=
      kindsFrom_atom fun d mem => all d (by simp [mem])
    simp [kindsFrom, all c (by simp), taken, apart, ih]

end Lexer

namespace Reader

variable {ts us before behind : List (Token Mark)} {x : Token Mark}

/-! ## Forms and kinds -/

mutual

/-- Whether tokens are those of a form is decided by their kinds. -/
theorem IsForm.of_kinds {ts us : List (Token Mark)} (form : IsForm ts) :
    us.map Token.kind = ts.map Token.kind → IsForm us :=
  match form with
  | .atom is_atom => fun same => by
    obtain ⟨u, rfl, kind⟩ := List.map_eq_singleton_iff.mp same
    exact .atom (kind.trans is_atom)
  | .quote is_quote quoted => fun same => by
    obtain ⟨u, us, rfl, kind, same⟩ := List.map_eq_cons_iff.mp same
    exact .quote (kind.trans is_quote) (quoted.of_kinds same)
  | .list opens items closes => fun same => by
    obtain ⟨u, us, rfl, kind, same⟩ := List.map_eq_cons_iff.mp same
    rw [List.map_append] at same
    obtain ⟨us, vs, rfl, inner, last⟩ := List.map_eq_append_iff.mp same
    obtain ⟨v, rfl, kind'⟩ := List.map_eq_singleton_iff.mp last
    exact .list (kind.trans opens) (items.of_kinds inner) (kind'.trans closes)

theorem AreForms.of_kinds {ts us : List (Token Mark)} (forms : AreForms ts) :
    us.map Token.kind = ts.map Token.kind → AreForms us :=
  match forms with
  | .nil => fun same => by
    rw [List.map_eq_nil_iff.mp same]
    exact .nil
  | .cons form more => fun same => by
    rw [List.map_append] at same
    obtain ⟨us, vs, rfl, first, second⟩ := List.map_eq_append_iff.mp same
    exact .cons (form.of_kinds first) (more.of_kinds second)

end

mutual

/-- A form has as many closing parentheses as opening ones. -/
theorem IsForm.balanced {ts : List (Token Mark)} (form : IsForm ts) :
    (ts.map Token.kind).count .opening = (ts.map Token.kind).count .closing :=
  match form with
  | .atom is_atom => by simp [is_atom]
  | .quote is_quote quoted => by simpa [is_quote] using quoted.balanced
  | .list opens items closes => by simp [opens, closes, items.balanced]

theorem AreForms.balanced {ts : List (Token Mark)} (forms : AreForms ts) :
    (ts.map Token.kind).count .opening = (ts.map Token.kind).count .closing :=
  match forms with
  | .nil => rfl
  | .cons form more => by simp [form.balanced, more.balanced]

end

/-- A token that forms can do without, by what stands before it: a quote, or an atom that is not
quoted. -/
def Spare (before : List (Token Mark)) (x : Token Mark) : Prop :=
  x.kind = .quote ∨ x.kind = .atom ∧ ∀ t, before.getLast? = some t → t.kind ≠ .quote

theorem Spare.tail {t : Token Mark} (spare : Spare (t :: before) x) : Spare before x := by
  refine spare.imp id fun ⟨is_atom, ahead⟩ => ⟨is_atom, fun u last => ahead u ?_⟩
  rw [List.getLast?_cons, last]
  rfl

theorem Spare.after (spare : Spare (us ++ before) x) : Spare before x := by
  induction us with
  | nil => exact spare
  | cons u us ih => exact ih (Spare.tail spare)

theorem IsForm.single (form : IsForm us) (split : us = x :: ts) (is_atom : x.kind = .atom) :
    ts = [] := by
  subst split
  cases form with
  | atom _ => rfl
  | quote is_quote _ => rw [is_atom] at is_quote; cases is_quote
  | list opens _ _ => rw [is_atom] at opens; cases opens

mutual

/-- A form can do without a spare token inside of it. -/
theorem IsForm.drop {ts : List (Token Mark)} (form : IsForm ts) : ∀ before x behind,
    ts = before ++ x :: behind → Spare before x → (x.kind = .atom → before ≠ []) →
      IsForm (before ++ behind) :=
  match form with
  | .atom is_atom => fun before x behind split spare inner => by
    cases before with
    | nil =>
      cases split
      exact absurd rfl (inner is_atom)
    | cons b before => simp at split
  | .quote is_quote quoted => fun before x behind split spare inner => by
    cases before with
    | nil =>
      cases split
      exact quoted
    | cons b before =>
      obtain ⟨rfl, rest⟩ := List.cons.inj split
      refine .quote is_quote (quoted.drop before x behind rest (Spare.tail spare) ?_)
      rintro is_atom rfl
      rcases spare with is_quote' | ⟨-, ahead⟩
      · rw [is_atom] at is_quote'
        cases is_quote'
      · exact ahead _ rfl is_quote
  | .list opens items closes => fun before x behind split spare inner => by
    cases before with
    | nil =>
      cases split
      rcases spare with other | ⟨other, -⟩
      all_goals
        rw [opens] at other
        cases other
    | cons b before =>
      obtain ⟨rfl, rest⟩ := List.cons.inj split
      rcases append_cases rest with ⟨later, own_eq, rfl⟩ | ⟨later, -, last⟩
      · rw [List.cons_append, ← List.append_assoc]
        exact .list opens (items.drop before x later own_eq (Spare.tail spare)) closes
      · cases later with
        | nil =>
          cases last
          rcases spare with other | ⟨other, -⟩
          all_goals
            rw [closes] at other
            cases other
        | cons l later => simp at last

/-- Forms can do without a spare token. -/
theorem AreForms.drop {ts : List (Token Mark)} (forms : AreForms ts) : ∀ before x behind,
    ts = before ++ x :: behind → Spare before x → AreForms (before ++ behind) :=
  match forms with
  | .nil => fun before x behind split _ => by simp at split
  | .cons form more => fun before x behind split spare => by
    rcases append_cases split with ⟨later, own_eq, rfl⟩ | ⟨later, rfl, more_eq⟩
    · rw [← List.append_assoc]
      by_cases alone : x.kind = .atom ∧ before = []
      · -- The spare atom is a form of its own.
        obtain ⟨is_atom, rfl⟩ := alone
        rw [form.single own_eq is_atom]
        exact more
      · refine .cons (form.drop before x later own_eq spare fun is_atom none =>
          alone ⟨is_atom, none⟩) more
    · rw [List.append_assoc]
      exact .cons form (more.drop later x behind more_eq (Spare.after spare))

end

/-- The same for kinds: what stands ahead of a spare atom ends with an atom. -/
theorem IsForm.exists_dropped {ks ks' : List Mark} {m : Mark} (form : IsForm ts)
    (kinds : ts.map Token.kind = ks ++ m :: ks')
    (spare : m = .quote ∨ m = .atom ∧ ks.getLast? = some .atom) :
    ∃ us, us.map Token.kind = ks ++ ks' ∧ IsForm us := by
  obtain ⟨before, rest, rfl, rfl, kinds'⟩ := List.map_eq_append_iff.mp kinds
  obtain ⟨x, behind, rfl, rfl, rfl⟩ := List.map_eq_cons_iff.mp kinds'
  refine ⟨before ++ behind, by simp, form.drop before x behind rfl ?_ ?_⟩
  · refine spare.imp id fun ⟨is_atom, ends⟩ => ⟨is_atom, fun t last => ?_⟩
    rw [List.getLast?_map, last, Option.map_some, Option.some.injEq] at ends
    rw [ends]
    exact nofun
  · rintro is_atom rfl
    rcases spare with is_quote | ⟨-, ends⟩
    · rw [is_atom] at is_quote
      cases is_quote
    · cases ends

end Reader

namespace Language

open Lexer Reader

variable {position place : Nat} {chars before behind inner : List Char} {c : Char} {f g : Form}
  {tags : List (Rose.Frame Tag)}

theorem Reads.isForm (reads : Reads position chars f) :
    ∃ tokens, Lexes position chars tokens ∧ IsForm tokens := by
  obtain ⟨tokens, lexes, derives⟩ := reads
  obtain ⟨own, own_eq, listed⟩ := derives.isForm
  rw [List.append_nil] at own_eq
  exact ⟨tokens, lexes, own_eq ▸ listed.isForm⟩

/-- A text reads if the kinds of its tokens are those of a form. -/
theorem exists_reads {tokens : List (Token Mark)} (form : IsForm tokens)
    (kinds : tokens.map Token.kind = kindsFrom false chars) (clean : ∀ c ∈ chars, isBad c = false)
    (plain : ';' ∉ chars) : ∃ f, Reads position chars f := by
  obtain ⟨found, lexes⟩ := exists_lexes position clean
  have ordered := inOrder_of_ordered (ordered_of_tokensAt (tokensAt_of_lexes lexes plain))
  obtain ⟨f, derives⟩ := (form.of_kinds (lexes.kinds.trans kinds.symm)).derives ordered.across
  exact ⟨f, found, lexes, derives⟩

/-- Where two texts come to stand beside each other, two atoms may become one. -/
theorem exists_joined {us : List (Token Mark)} (form : IsForm us)
    (kinds : us.map Token.kind = kindsFrom false before ++ kindsFrom false behind) :
    ∃ vs : List (Token Mark), vs.map Token.kind = kindsFrom false (before ++ behind) ∧
      IsForm vs := by
  rw [kindsFrom_append]
  cases ends : insideAfter false before with
  | false => exact ⟨us, kinds, form⟩
  | true =>
    have last := (last_kind ends).resolve_left (by simp)
    rcases kindsFrom_true behind with same | merged
    · rw [same] at kinds
      exact ⟨us, kinds, form⟩
    · rw [merged] at kinds
      exact form.exists_dropped kinds (.inr ⟨rfl, last⟩)

/-- A text that reads still does so without any of its blanks and quotes. -/
theorem Reads.drop (reads : Reads position (before ++ c :: behind) f)
    (other : Text.isBlank c = true ∨ markOf c = some .quote)
    (plain : ';' ∉ before ++ c :: behind) : ∃ g, Reads position (before ++ behind) g := by
  obtain ⟨tokens, lexes, form⟩ := reads.isForm
  have sub {d : Char} (mem : d ∈ before ++ behind) : d ∈ before ++ c :: behind := by
    simp only [List.mem_append, List.mem_cons] at mem ⊢
    tauto
  have apart : inAtom c = false := other.elim inAtom_of_blank inAtom_of_mark
  have kinds := lexes.kinds
  rw [kindsFrom_append, kindsFrom, apart, if_neg (by simp)] at kinds
  obtain ⟨us, kinds', form'⟩ : ∃ us : List (Token Mark),
      us.map Token.kind = kindsFrom false before ++ kindsFrom false behind ∧ IsForm us := by
    rcases other with blank | quote
    · rw [markOf_of_blank blank] at kinds
      exact ⟨tokens, kinds, form⟩
    · rw [quote] at kinds
      exact form.exists_dropped kinds (.inl rfl)
  obtain ⟨vs, joined, form_vs⟩ := exists_joined form' kinds'
  exact exists_reads form_vs joined (fun d mem => lexes.clean d (sub mem)) fun mem =>
    plain (sub mem)

/-- A single parenthesis makes no form out of a form. -/
theorem Reads.mark_ahead {m : Mark} (reads : Reads position inner f)
    (together : Reads place (c :: inner) g) (mark : markOf c = some m) : m = .quote := by
  obtain ⟨tokens, lexes, form⟩ := reads.isForm
  obtain ⟨tokens', lexes', form'⟩ := together.isForm
  have balanced := form.balanced
  have balanced' := form'.balanced
  rw [lexes.kinds] at balanced
  rw [lexes'.kinds, kindsFrom, if_neg (by simp [inAtom_of_mark mark]), mark] at balanced'
  cases m with
  | quote => rfl
  | atom => exact absurd mark (markOf_ne_atom c)
  | opening => simp [balanced] at balanced'
  | closing => simp [balanced] at balanced'

/-- A form is not made up of blanks. -/
theorem Reads.not_blank (reads : Reads position chars f) : ¬∀ c ∈ chars, Text.isBlank c = true := by
  intro blank
  have none : Reads (position + chars.length) [] f :=
    @Reads.strip position [] chars [] f (by simpa using reads) blank (by simp)
  exact none.nonempty rfl

/-- A character of an atom makes no form out of one that it does not run into. -/
theorem Reads.atom_ahead (reads : Reads position inner f) (together : Reads place (c :: inner) g)
    (apart : NotInAtom inner) (fits : place + (c :: inner).length < positionLimit)
    (plain : ';' ∉ c :: inner) : inAtom c = false := by
  by_contra atom
  rw [Bool.not_eq_false] at atom
  have lexes : Lexes place ([c] ++ []) _ :=
    .atom (by simp) (by simpa using atom) (by simp [NotInAtom]) .nil
  have alone : Reads place [c] _ := ⟨_, lexes, .atom rfl .nil⟩
  have whole : Reads place ([c] ++ inner) g := together
  refine reads.not_blank (alone.rest_blank whole ?_ fits plain)
  rintro x y - head
  simp [apart y head]

/-- Where a form begins, no atom goes on. -/
theorem Reads.apart_ahead (reads : Reads position (before ++ c :: behind) (Rose.plug tags f))
    (start : f.span.start = position + before.length + 1) (atom : inAtom c = true)
    (plain : ';' ∉ before ++ c :: behind) : NotInAtom behind := by
  obtain ⟨tokens, tokens_eq, derives⟩ := (parses_iff_reads plain).mpr reads
  have mem : f.value ∈ (Rose.plug tags f).preorder :=
    (Rose.preorder_plug tags f).mem_iff.mpr (List.mem_append_left _ f.value_mem_preorder)
  obtain ⟨⟨t, mem_t, start_t⟩, -⟩ := derives.edges _ (by simp) _ mem
  obtain ⟨⟨count, start_eq, cut⟩, -⟩ := cut_of_tokens tokens_eq mem_t
  have not_comment : c ≠ ';' := by
    rintro rfl
    simp at plain
  have count_eq : count = (before ++ [c]).length := by
    have : t.span.start = f.span.start := start_t
    rw [List.length_append, List.length_singleton]
    omega
  have split : before ++ c :: behind = (before ++ [c]) ++ behind := by simp
  rw [split, count_eq] at cut
  have ends := cut.ends
  rw [Mode.after_append, Mode.after_cons, Mode.after_nil] at ends
  cases mode : Mode.free.after before with
  | free => rwa [mode, Mode.next, if_neg not_comment, if_pos atom] at ends
  | atom => rwa [mode, Mode.next, if_pos atom] at ends
  | comment =>
    have other : c ≠ '\n' := by
      rintro rfl
      exact absurd atom (by decide)
    rw [mode, Mode.next, if_neg other] at ends
    exact ends.elim

/-- A text that reads can do without a character that a node behind it would read with as well as
without. -/
theorem Reads.drop_ahead
    (reads : Reads position (before ++ c :: (inner ++ behind)) (Rose.plug tags f))
    (start : f.span.start = position + before.length + 1) (alone : Reads f.span.start inner f)
    (together : Reads place (c :: inner) g)
    (fits : place + (c :: inner).length < positionLimit)
    (plain : ';' ∉ before ++ c :: (inner ++ behind)) :
    ∃ h, Reads position (before ++ (inner ++ behind)) h := by
  refine reads.drop ?_ plain
  rcases classify c with blank | ⟨m, mark⟩ | atom | bad
  · exact .inl blank
  · rw [alone.mark_ahead together mark] at mark
    exact .inr mark
  · have apart : NotInAtom inner := by
      intro y head
      refine reads.apart_ahead start atom plain y ?_
      rw [List.head?_append, head]
      rfl
    have plain' : ';' ∉ c :: inner := fun mem => plain (by
      simp only [List.mem_append, List.mem_cons] at mem ⊢
      tauto)
    rw [alone.atom_ahead together apart fits plain'] at atom
    cases atom
  · obtain ⟨tokens, lexes, -⟩ := together
    rw [lexes.clean c (by simp)] at bad
    cases bad

end Language

end FormEdit
