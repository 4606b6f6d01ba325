import FormEdit.Proofs.Grammar.Holes

/-!
# Texts in pieces

Where no piece of a text runs into what stands behind it (`Separate`), the tokens of the text are
those of the pieces one after the other (`Separate.tokensAt_flatten`), each as it would be alone.
Pieces between the edges of tokens are separate (`separate_of_cuts`), and so are their tokens
(`matching_tokens`).
-/

namespace FormEdit

namespace Lexer

open Mode

variable {position : Nat} {piece ahead behind : List Char} {pieces : List (List Char)}
  {tokens : List (Token Mark)}

/-- No piece runs into what stands behind it. -/
def Separate : List (List Char) → Prop
  | [] => True
  | piece :: rest => (free.after piece).Ends rest.flatten ∧ Separate rest

theorem Separate.tame (separate : Separate pieces) : ∀ piece ∈ pieces, Tame piece := by
  induction pieces with
  | nil => simp
  | cons first rest ih =>
    intro piece mem
    rcases List.mem_cons.mp mem with rfl | mem
    · exact separate.1.not_comment
    · exact ih separate.2 piece mem

/-- Tame pieces are tame in any order. -/
theorem tame_flatten (each : ∀ piece ∈ pieces, Tame piece) : Tame pieces.flatten := by
  induction pieces with
  | nil => exact tame_nil
  | cons first rest ih =>
    rw [List.flatten_cons]
    exact (each first (by simp)).append (ih fun piece mem => each piece (by simp [mem]))

/-- Tame characters do not run into the end of the text. -/
theorem Tame.ends_nil (tame : Tame piece) : (free.after piece).Ends [] := by
  cases mode : free.after piece with
  | free => trivial
  | atom =>
    intro c head
    cases head
  | comment => exact absurd mode tame

/-- The pieces behind the first ones can be taken as one. -/
theorem Separate.merge {first second : List Char}
    (separate : Separate (first :: second :: pieces)) :
    Separate [first, second, pieces.flatten] := by
  obtain ⟨ends, ends', rest⟩ := separate
  refine ⟨by simpa using ends, by simpa using ends', Tame.ends_nil ?_, trivial⟩
  exact tame_flatten rest.tame

/-- A piece that has characters can be followed by a copy of itself, with a blank in between. -/
theorem Separate.copied {pre post : List Char} (separate : Separate [pre, piece, post])
    (some : piece ≠ []) : Separate [pre, piece, [' '], piece, post] := by
  obtain ⟨c, rest, rfl⟩ := List.exists_cons_of_ne_nil some
  obtain ⟨ends_pre, ends_piece, ends_post⟩ := separate
  refine ⟨?_, ?_, trivial, ends_piece, ends_post⟩
  · cases mode : free.after pre with
    | free => trivial
    | comment => exact absurd mode ends_pre.not_comment
    | atom =>
      rw [mode] at ends_pre
      intro x head
      exact ends_pre x (by simpa using head)
  · cases mode : free.after (c :: rest) with
    | free => trivial
    | comment => exact absurd mode ends_piece.not_comment
    | atom =>
      intro x head
      have blank : x = ' ' := by simpa using head.symm
      rw [blank]
      decide

theorem separate_of_cuts (cuts : ∀ count, Cut .free (ahead ++ pieces.flatten)
    (ahead ++ (pieces.take count).flatten).length) : Separate pieces := by
  induction pieces generalizing ahead with
  | nil => trivial
  | cons piece rest ih =>
    rw [List.flatten_cons] at cuts
    constructor
    · have first := cuts 0
      have second := cuts 1
      rw [List.take_zero, List.flatten_nil, List.append_nil] at first
      rw [List.take_succ_cons, List.take_zero, List.flatten_cons, List.flatten_nil,
        List.append_nil] at second
      exact first.piece second
    · refine @ih (ahead ++ piece) fun count => ?_
      have cut := cuts (count + 1)
      rwa [List.take_succ_cons, List.flatten_cons, ← List.append_assoc, ← List.append_assoc] at cut

/-- The tokens of two texts side by side of which the first does not run into the second. -/
theorem tokensAt_join (ends : (free.after ahead).Ends behind) :
    tokensAt position (ahead ++ behind) = some tokens ↔ ∃ first second,
      tokensAt position ahead = some first ∧
      tokensAt (position + ahead.length) behind = some second ∧ tokens = first ++ second := by
  constructor
  · intro tokens_eq
    obtain ⟨⟨complete, last⟩, fed, rfl⟩ := Option.map_eq_some_iff.mp tokens_eq
    obtain ⟨first, next, second, fed_first, fed_second, rfl⟩ := feed_append.mp fed
    have closes : next.Closes behind := by
      rw [closes_iff, mode_of_feed fed_first]
      exact ends
    have later := tokensFrom_closed (position + ahead.length) closes
    rw [tokensFrom, fed_second, Option.map_some] at later
    obtain ⟨rest, rest_eq, same⟩ := Option.map_eq_some_iff.mp later.symm
    refine ⟨first ++ next.done, rest, ?_, rest_eq, ?_⟩
    · rw [tokensAt, tokensFrom, fed_first, Option.map_some]
    · rw [List.append_assoc, List.append_assoc]
      exact congrArg (first ++ ·) same.symm
  · rintro ⟨first, second, first_eq, second_eq, rfl⟩
    obtain ⟨⟨complete, last⟩, fed, rfl⟩ := Option.map_eq_some_iff.mp first_eq
    refine tokensAt_append fed ?_ second_eq
    rw [closes_iff, mode_of_feed fed]
    exact ends

/-- The tokens of pieces one behind the other, each on its own. -/
def TokensEach : Nat → List (List Char) → List (List (Token Mark)) → Prop
  | _, [], each => each = []
  | position, piece :: rest, each => ∃ first more, each = first :: more ∧
      tokensAt position piece = some first ∧ TokensEach (position + piece.length) rest more

theorem Separate.tokensAt_flatten (separate : Separate pieces) :
    tokensAt position pieces.flatten = some tokens ↔
      ∃ each, TokensEach position pieces each ∧ tokens = each.flatten := by
  induction pieces generalizing position tokens with
  | nil =>
    constructor
    · intro tokens_eq
      cases tokens_eq
      exact ⟨[], rfl, rfl⟩
    · rintro ⟨each, rfl, rfl⟩
      rfl
  | cons piece rest ih =>
    rw [List.flatten_cons, tokensAt_join separate.1]
    constructor
    · rintro ⟨first, second, first_eq, second_eq, rfl⟩
      obtain ⟨each, each_eq, rfl⟩ := (ih separate.2).mp second_eq
      exact ⟨first :: each, ⟨first, each, rfl, first_eq, each_eq⟩, rfl⟩
    · rintro ⟨each, ⟨first, more, rfl, first_eq, more_eq⟩, rfl⟩
      exact ⟨first, more.flatten, first_eq, (ih separate.2).mpr ⟨more, more_eq, rfl⟩, rfl⟩

/-- The same characters anywhere else have the same tokens there. -/
theorem tokensAt_elsewhere (position' : Nat) (tokens_eq : tokensAt position piece = some tokens) :
    tokensAt position' piece = some (tokens.map (Token.moved (position' - position))) := by
  have here := @tokensFrom_moved .idle 0 piece position
  have there := @tokensFrom_moved .idle 0 piece position'
  rw [Nat.zero_add] at here there
  obtain ⟨origin, origin_eq, rfl⟩ := Option.map_eq_some_iff.mp (here.symm.trans tokens_eq)
  rw [origin_eq] at there
  refine there.trans ?_
  rw [Option.map_some, List.map_map]
  refine congrArg some (List.map_congr_left fun t _ => ?_)
  simp only [Function.comp_apply, Token.moved, Token.mk.injEq, true_and]
  ext <;> simp only [Span.moved] <;> omega

/-! ## Tokens that lie inside of pieces -/

/-- An atom under way has characters. -/
def Run.Filled : Run → Prop
  | .atom _ _ content => content ≠ []
  | _ => True

theorem filled_of_step {run next : Run} {c : Char} (filled : run.Filled)
    (stepped : step run position c = some (tokens, next)) : next.Filled := by
  rcases step_cases stepped with ⟨-, -, rfl⟩ | ⟨-, m, -, -, rfl⟩ | ⟨-, -, opened, -⟩
  · cases run with
    | atom first last content => simp [Run.take, Run.Filled]
    | _ => trivial
  · trivial
  · rcases opens_cases opened with ⟨-, rfl⟩ | ⟨-, -, rfl⟩ | ⟨-, -, rfl⟩
    · trivial
    · trivial
    · simp [Run.Filled]

/-- No token is empty. -/
theorem nonempty_of_tokensFrom {run : Run} {chars : List Char} (filled : run.Filled)
    (tokens_eq : tokensFrom run position chars = some tokens) :
    ∀ t ∈ tokens, t.span.start < t.span.stop := by
  have done {run : Run} (filled : run.Filled) : ∀ t ∈ run.done, t.span.start < t.span.stop := by
    intro t mem
    cases run with
    | atom first last content =>
      obtain rfl := List.mem_singleton.mp mem
      have some_content := List.length_pos_iff.mpr filled
      simp only [Span.sized]
      omega
    | _ => cases mem
  induction chars generalizing run position tokens with
  | nil =>
    cases tokens_eq
    exact done filled
  | cons c chars ih =>
    obtain ⟨complete, next, more, stepped, more_eq, rfl⟩ := tokensFrom_cons.mp tokens_eq
    have later := ih (filled_of_step filled stepped) more_eq
    intro t mem
    rcases List.mem_append.mp mem with mem | mem
    · rcases step_cases stepped with ⟨-, rfl, -⟩ | ⟨-, m, -, rfl, -⟩ | ⟨-, -, -, rfl⟩
      · cases mem
      · rcases List.mem_append.mp mem with mem | mem
        · exact done filled t mem
        · obtain rfl := List.mem_singleton.mp mem
          simp only [Span.sized]
          omega
      · exact done filled t mem
    · exact later t mem

/-- The tokens lie between two positions. -/
def Between (low high : Nat) (tokens : List (Token Mark)) : Prop :=
  ∀ t ∈ tokens, low ≤ t.span.start ∧ t.span.start < t.span.stop ∧ t.span.stop ≤ high

theorem Between.append {low edge high : Nat} {xs ys : List (Token Mark)}
    (first : Between low edge xs) (second : Between edge high ys) (low_le : low ≤ edge)
    (le_high : edge ≤ high) :
    Between low high (xs ++ ys) := by
  intro t mem
  rcases List.mem_append.mp mem with mem | mem
  · have bounds := first t mem
    omega
  · have bounds := second t mem
    omega

theorem between_of_tokensAt (tokens_eq : tokensAt position piece = some tokens) :
    Between position (position + piece.length) tokens := by
  intro t mem
  obtain ⟨⟨count, start, -⟩, count', stop, cut⟩ := cut_of_tokens tokens_eq mem
  have filled : Run.idle.Filled := trivial
  have nonempty := nonempty_of_tokensFrom filled tokens_eq t mem
  have bound := cut.le
  omega

/-- Tokens are divided by a position in one way. -/
theorem divided_once {xs ys xs' ys' : List (Token Mark)} {low edge high : Nat}
    (before : Between low edge xs) (behind : Between edge high ys) (before' : Between low edge xs')
    (behind' : Between edge high ys') (same : xs ++ ys = xs' ++ ys') : xs = xs' ∧ ys = ys' := by
  have earlier {ts : List (Token Mark)} (between : Between low edge ts) :
      ts.filter (fun t => t.span.start < edge) = ts := by
    refine List.filter_eq_self.mpr fun t mem => ?_
    have bounds := between t mem
    exact decide_eq_true (by omega)
  have later {ts : List (Token Mark)} (between : Between edge high ts) :
      ts.filter (fun t => t.span.start < edge) = [] := by
    refine List.filter_eq_nil_iff.mpr fun t mem => ?_
    have bounds := between t mem
    simp only [decide_eq_true_eq]
    omega
  have first := congrArg (List.filter fun t => t.span.start < edge) same
  rw [List.filter_append, List.filter_append, earlier before, later behind, earlier before',
    later behind', List.append_nil, List.append_nil] at first
  subst first
  exact ⟨rfl, List.append_cancel_left same⟩

/-- Where a text is parted between tokens, the tokens that lie in its parts are those of the
parts. -/
theorem tokens_of_parts {before own after : List (Token Mark)} {high : Nat}
    (tokens_eq : tokensAt position (ahead ++ (piece ++ behind)) = some (before ++ (own ++ after)))
    (start : (free.after ahead).Ends (piece ++ behind)) (stop : (free.after piece).Ends behind)
    (in_before : Between position (position + ahead.length) before)
    (in_own : Between (position + ahead.length) (position + ahead.length + piece.length) own)
    (in_after : Between (position + ahead.length + piece.length) high after)
    (high_eq : high = position + ahead.length + piece.length + behind.length) :
    tokensAt position ahead = some before ∧ tokensAt (position + ahead.length) piece = some own ∧
      tokensAt (position + ahead.length + piece.length) behind = some after := by
  subst high_eq
  obtain ⟨t₁, rest, eq₁, rest_eq, split⟩ := (tokensAt_join start).mp tokens_eq
  obtain ⟨t₂, t₃, eq₂, eq₃, rfl⟩ := (tokensAt_join stop).mp rest_eq
  have in₂ := between_of_tokensAt eq₂
  have in₃ := between_of_tokensAt eq₃
  obtain ⟨rfl, rest_split⟩ := divided_once in_before (in_own.append in_after (by omega) (by omega))
    (between_of_tokensAt eq₁) (in₂.append in₃ (by omega) (by omega)) split
  obtain ⟨rfl, rfl⟩ := divided_once in_own in_after in₂ in₃ rest_split
  exact ⟨eq₁, eq₂, eq₃⟩

end Lexer

namespace Reader

open Lexer

variable {ts : List (Token Mark)} {fs gs : List Form} {low high : Nat}

/-- The tokens of a form lie between its edges, and those around it outside of them. -/
theorem Derives.bounds {f : Form} {ahead own behind : List (Token Mark)}
    (derives : Derives own [f] []) (between : Between low high (ahead ++ (own ++ behind)))
    (ordered : (ahead ++ (own ++ behind)).Pairwise fun a b => a.span.stop ≤ b.span.start) :
    Between low f.span.start ahead ∧ Between f.span.start f.span.stop own ∧
      Between f.span.stop high behind := by
  obtain ⟨own', own_eq, head, last⟩ := derives.ends
  obtain rfl : own' = own := by simpa using own_eq.symm
  obtain ⟨t, initial, start⟩ := head f rfl
  obtain ⟨t', final, stop⟩ := last f rfl
  obtain ⟨-, rest_ordered, ahead_rest⟩ := List.pairwise_append.mp ordered
  obtain ⟨own_ordered, -, own_rest⟩ := List.pairwise_append.mp rest_ordered
  have within (x : Token Mark) (mem : x ∈ ahead ++ (own' ++ behind)) := between x mem
  refine ⟨?_, ?_, ?_⟩
  · intro x mem
    have bounds := within x (by simp [mem])
    have order := ahead_rest x mem t (List.mem_append_left _ (List.mem_of_head? initial))
    omega
  · intro x mem
    have bounds := within x (by simp [mem])
    have from_start : t.span.start ≤ x.span.start := by
      obtain ⟨rest, rfl⟩ := List.head?_eq_some_iff.mp initial
      rcases List.mem_cons.mp mem with rfl | mem
      · exact Nat.le_refl _
      · exact Nat.le_trans t.span.start_le_stop ((List.pairwise_cons.mp own_ordered).1 x mem)
    have to_stop : x.span.stop ≤ t'.span.stop := by
      obtain ⟨front, rfl⟩ := List.getLast?_eq_some_iff.mp final
      rcases List.mem_append.mp mem with mem | mem
      · exact Nat.le_trans ((List.pairwise_append.mp own_ordered).2.2 x mem t' (by simp))
          t'.span.start_le_stop
      · exact List.mem_singleton.mp mem ▸ Nat.le_refl _
    omega
  · intro x mem
    have bounds := within x (by simp [mem])
    have order := own_rest t' (List.mem_of_getLast? final) x mem
    omega

/-- The tokens ahead of a form, its own and those behind it. -/
theorem Derives.sides {f : Form} (derives : Derives ts (fs ++ f :: gs) [])
    (between : Between low high ts)
    (ordered : ts.Pairwise fun a b => a.span.stop ≤ b.span.start) :
    ∃ ahead own behind, ts = ahead ++ (own ++ behind) ∧ Derives ahead fs [] ∧ Derives own [f] [] ∧
      Derives behind gs [] ∧ Between low f.span.start ahead ∧
      Between f.span.start f.span.stop own ∧ Between f.span.stop high behind := by
  obtain ⟨mid, first, second⟩ := derives.split
  obtain ⟨mid', single, third⟩ := @Derives.split _ _ [f] gs second
  obtain ⟨ahead, rfl, ahead_derives⟩ := first.own
  obtain ⟨own, rfl, own_derives⟩ := single.own
  exact ⟨ahead, own, mid', rfl, ahead_derives, own_derives, third,
    own_derives.bounds between ordered⟩

theorem Derives.join {us : List (Token Mark)} (first : Derives ts fs [])
    (second : Derives us gs []) :
    Derives (ts ++ us) (fs ++ gs) [] :=
  (first.extend us).append second

/-- Where a form stands in a piece of its own, so do its tokens. -/
theorem tokens_of_piece {position : Nat} {pre piece post : List Char} {items : List (Token Mark)}
    {f : Form} (separate : Separate [pre, piece, post])
    (items_eq : tokensAt position [pre, piece, post].flatten = some items)
    (derives : Derives items (fs ++ f :: gs) [])
    (ordered : items.Pairwise fun a b => a.span.stop ≤ b.span.start)
    (span_f : f.span = Span.sized (position + pre.length) piece.length) :
    ∃ t₁ t₂ t₃, items = t₁ ++ (t₂ ++ t₃) ∧ tokensAt position pre = some t₁ ∧ Derives t₁ fs [] ∧
      tokensAt (position + pre.length) piece = some t₂ ∧ Derives t₂ [f] [] ∧
      tokensAt (position + pre.length + piece.length) post = some t₃ ∧ Derives t₃ gs [] := by
  obtain ⟨start, stop, -⟩ := separate
  simp only [List.flatten_cons, List.flatten_nil, List.append_nil] at items_eq start stop
  obtain ⟨before, own, behind, rfl, before_derives, own_derives, behind_derives, in_before, in_own,
    in_behind⟩ := derives.sides (between_of_tokensAt items_eq) ordered
  rw [span_f] at in_before in_own in_behind
  obtain ⟨eq₁, eq₂, eq₃⟩ := tokens_of_parts items_eq start stop in_before in_own in_behind (by
    simp only [List.length_append]
    omega)
  exact ⟨before, own, behind, rfl, eq₁, before_derives, eq₂, own_derives, eq₃, behind_derives⟩

/-- Where two forms stand in pieces of their own, so do their tokens. -/
theorem matching_tokens {position : Nat} {pre first gap second post : List Char}
    {items : List (Token Mark)} {f g : Form}
    (separate : Separate [pre, first, gap, second, post])
    (items_eq : tokensAt position [pre, first, gap, second, post].flatten = some items)
    (derives : Derives items (fs ++ f :: g :: gs) [])
    (ordered : items.Pairwise fun a b => a.span.stop ≤ b.span.start)
    (span_f : f.span = Span.sized (position + pre.length) first.length)
    (span_g : g.span =
      Span.sized (position + pre.length + first.length + gap.length) second.length) :
    ∃ t₁ t₂ t₄ t₅, tokensAt position pre = some t₁ ∧ Derives t₁ fs [] ∧
      tokensAt (position + pre.length) first = some t₂ ∧ Derives t₂ [f] [] ∧
      tokensAt (position + pre.length + first.length) gap = some [] ∧
      tokensAt (position + pre.length + first.length + gap.length) second = some t₄ ∧
      Derives t₄ [g] [] ∧
      tokensAt (position + pre.length + first.length + gap.length + second.length) post = some t₅ ∧
      Derives t₅ gs [] := by
  have flat : [pre, first, gap, second, post].flatten =
      [pre, first, [gap, second, post].flatten].flatten := by simp
  rw [flat] at items_eq
  obtain ⟨t₁, t₂, rest, rfl, eq₁, derives₁, eq₂, derives₂, rest_eq, rest_derives⟩ :=
    tokens_of_piece separate.merge items_eq derives ordered span_f
  have ordered_rest := (List.pairwise_append.mp (List.pairwise_append.mp ordered).2.1).2.1
  obtain ⟨none, t₄, t₅, -, eq₃, none_derives, eq₄, derives₄, eq₅, derives₅⟩ :=
    @tokens_of_piece [] gs _ _ _ _ _ g separate.2.2 rest_eq rest_derives ordered_rest span_g
  obtain rfl := none_derives.eq_of_nil
  exact ⟨t₁, t₂, t₄, t₅, eq₁, derives₁, eq₂, derives₂, eq₃, eq₄, derives₄, eq₅, derives₅⟩

/-- Two forms that stand in pieces of their own trade places with them. -/
theorem exchange_derives {position : Nat} {pre first gap second post : List Char}
    {items : List (Token Mark)} {f g : Form}
    (separate : Separate [pre, first, gap, second, post])
    (separate' : Separate [pre, second, gap, first, post])
    (items_eq : tokensAt position [pre, first, gap, second, post].flatten = some items)
    (derives : Derives items (fs ++ f :: g :: gs) [])
    (ordered : items.Pairwise fun a b => a.span.stop ≤ b.span.start)
    (span_f : f.span = Span.sized (position + pre.length) first.length)
    (span_g : g.span =
      Span.sized (position + pre.length + first.length + gap.length) second.length) :
    ∃ items', tokensAt position [pre, second, gap, first, post].flatten = some items' ∧
      Derives items' (fs ++ Form.moved (-(first ++ gap).length) g ::
        Form.moved (second ++ gap).length f :: gs) [] := by
  obtain ⟨t₁, t₂, t₄, t₅, eq₁, derives₁, eq₂, derives₂, eq₃, eq₄, derives₄, eq₅, derives₅⟩ :=
    matching_tokens separate items_eq derives ordered span_f span_g
  have eq₄' := tokensAt_elsewhere (position + pre.length) eq₄
  have eq₃' := tokensAt_elsewhere (position + pre.length + second.length) eq₃
  have eq₂' := tokensAt_elsewhere (position + pre.length + second.length + gap.length) eq₂
  have same_place : position + pre.length + first.length + gap.length + second.length =
      position + pre.length + second.length + gap.length + first.length := by omega
  rw [same_place] at eq₅
  have back : ((position + pre.length : Nat) : Int) -
      (position + pre.length + first.length + gap.length : Nat) = -(first ++ gap).length := by
    rw [List.length_append]
    omega
  have on : ((position + pre.length + second.length + gap.length : Nat) : Int) -
      (position + pre.length : Nat) = (second ++ gap).length := by
    rw [List.length_append]
    omega
  rw [back] at eq₄'
  rw [on] at eq₂'
  refine ⟨_, separate'.tokensAt_flatten.mpr ⟨_,
    ⟨t₁, _, rfl, eq₁, _, _, rfl, eq₄', _, _, rfl, eq₃', _, _,
    rfl, eq₂', _, _, rfl, eq₅, rfl⟩, rfl⟩, ?_⟩
  have moved := (derives₄.moved (-(first ++ gap).length)).join
    ((derives₂.moved (second ++ gap).length).join derives₅)
  simpa using derives₁.join moved

/-- A form that stands in a piece of its own is copied with it, and what stands behind it moves. -/
theorem copy_derives {position : Nat} {pre piece post : List Char} {items : List (Token Mark)}
    {f : Form} (separate : Separate [pre, piece, post])
    (items_eq : tokensAt position [pre, piece, post].flatten = some items)
    (derives : Derives items (fs ++ f :: gs) [])
    (ordered : items.Pairwise fun a b => a.span.stop ≤ b.span.start)
    (span_f : f.span = Span.sized (position + pre.length) piece.length) :
    ∃ items', tokensAt position [pre, piece, [' '], piece, post].flatten = some items' ∧
      Derives items' (fs ++ f :: Form.moved (piece.length + 1 : Nat) f ::
        gs.map (Form.moved (piece.length + 1 : Nat))) [] := by
  obtain ⟨t₁, t₂, t₃, -, eq₁, derives₁, eq₂, derives₂, eq₃, derives₃⟩ :=
    tokens_of_piece separate items_eq derives ordered span_f
  have some : piece ≠ [] := by
    rintro rfl
    cases eq₂
    cases derives₂
  have blank : tokensAt (position + pre.length + piece.length) [' '] = Option.some [] := by
    rfl
  have eq₂' := tokensAt_elsewhere (position + pre.length + piece.length + 1) eq₂
  have eq₃' := tokensAt_elsewhere (position + pre.length + piece.length + 1 + piece.length) eq₃
  have on : ((position + pre.length + piece.length + 1 : Nat) : Int) -
    (position + pre.length : Nat) = (piece.length + 1 : Nat) := by omega
  have on' : ((position + pre.length + piece.length + 1 + piece.length : Nat) : Int) -
      (position + pre.length + piece.length : Nat) = (piece.length + 1 : Nat) := by omega
  rw [on] at eq₂'
  rw [on'] at eq₃'
  refine ⟨_, (separate.copied some).tokensAt_flatten.mpr ⟨_,
    ⟨t₁, _, rfl, eq₁, _, _, rfl, eq₂, _, _, rfl, blank, _, _, rfl, eq₂', _, _, rfl, eq₃', rfl⟩,
    rfl⟩, ?_⟩
  have copied := derives₂.join ((derives₂.moved (piece.length + 1 : Nat)).join
    (derives₃.moved (piece.length + 1 : Nat)))
  simpa using derives₁.join copied

end Reader

end FormEdit
