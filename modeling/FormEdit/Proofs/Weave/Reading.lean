import FormEdit.Proofs.Weave.Shape

/-!
# Weaves and texts

A text without comments reads as a form exactly if it can be woven so that every cell is kept and
every node is good: `weave_of_reads` and `reads_of_weave`. Both go token by token, the first along
the derivation of the form and the second along the weave.
-/

namespace FormEdit

namespace Lexer

theorem Lexes.blank_of_nil {position : Nat} {chars : List Char} (lexes : Lexes position chars []) :
    ∀ c ∈ chars, Text.isBlank c = true := by
  generalize none : ([] : List (Token Mark)) = tokens at lexes
  induction lexes with
  | nil => simp
  | blank is_blank more ih => simpa [is_blank] using ih none
  | mark is_mark more ih => cases none
  | atom nonempty all ends more ih => cases none

theorem Lexes.blanks {position : Nat} {bs rest : List Char} {tokens : List (Token Mark)}
    (blank : ∀ c ∈ bs, Text.isBlank c = true) (more : Lexes (position + bs.length) rest tokens) :
    Lexes position (bs ++ rest) tokens := by
  induction bs generalizing position with
  | nil => exact more
  | cons b bs ih =>
    refine .blank (blank b (by simp)) (ih (fun c hc => blank c (by simp [hc])) ?_)
    rw [List.length_cons] at more
    rwa [Nat.add_assoc, Nat.add_comm 1]

/-- The characters of a token. -/
def Spells (lexeme rest : List Char) (token : Token Mark) : Prop :=
  (∃ c, lexeme = [c] ∧ markOf c = some token.kind) ∨
    (token.kind = .atom ∧ token.content = String.ofList lexeme ∧ lexeme ≠ [] ∧
      (∀ c ∈ lexeme, inAtom c = true) ∧ NotInAtom rest)

/-- The first token stands behind blanks. -/
theorem Lexes.uncons {position : Nat} {chars : List Char} {token : Token Mark}
    {tokens : List (Token Mark)} (lexes : Lexes position chars (token :: tokens)) :
    ∃ bs lexeme rest, chars = bs ++ lexeme ++ rest ∧ (∀ c ∈ bs, Text.isBlank c = true) ∧
      token.span = Span.sized (position + bs.length) lexeme.length ∧ Spells lexeme rest token ∧
      Lexes (position + bs.length + lexeme.length) rest tokens := by
  generalize whole : token :: tokens = all at lexes
  induction lexes with
  | nil => cases whole
  | @blank position c rest tokens is_blank more ih =>
    obtain ⟨bs, lexeme, rest, rfl, blank, span, spells, more⟩ := ih whole
    have shift : position + 1 + bs.length = position + (bs.length + 1) := by omega
    refine ⟨c :: bs, lexeme, rest, rfl, ?_, ?_, spells, ?_⟩
    · intro d hd
      rcases List.mem_cons.mp hd with rfl | hd
      · exact is_blank
      · exact blank d hd
    · rw [List.length_cons, ← shift, span]
    · rw [List.length_cons, ← shift]
      exact more
  | @mark position c m rest tokens is_mark more ih =>
    cases whole
    exact ⟨[], [c], rest, rfl, by simp, rfl, .inl ⟨c, rfl, is_mark⟩, more⟩
  | @atom position content rest tokens nonempty all ends more ih =>
    cases whole
    exact ⟨[], content, rest, rfl, by simp, rfl, .inr ⟨rfl, rfl, nonempty, all, ends⟩, more⟩

/-- A parenthesis or a quote stands behind blanks. -/
theorem Lexes.uncons_mark {position : Nat} {chars : List Char} {token : Token Mark}
    {tokens : List (Token Mark)} {c : Char} (lexes : Lexes position chars (token :: tokens))
    (mark : markOf c = some token.kind) :
    ∃ bs rest, chars = bs ++ c :: rest ∧ (∀ c ∈ bs, Text.isBlank c = true) ∧
      token.span = Span.sized (position + bs.length) 1 ∧
      Lexes (position + bs.length + 1) rest tokens := by
  obtain ⟨bs, lexeme, rest, rfl, blank, span, spells, more⟩ := lexes.uncons
  rcases spells with ⟨d, rfl, mark'⟩ | ⟨is_atom, -⟩
  · obtain rfl := markOf_injective mark mark'
    exact ⟨bs, rest, by simp, blank, span, more⟩
  · rw [is_atom] at mark
    exact absurd mark (markOf_ne_atom c)

/-- The characters of an atom stand behind blanks. -/
theorem Lexes.uncons_atom {position : Nat} {chars : List Char} {token : Token Mark}
    {tokens : List (Token Mark)} (lexes : Lexes position chars (token :: tokens))
    (is_atom : token.kind = .atom) :
    ∃ bs content rest, chars = bs ++ content ++ rest ∧ (∀ c ∈ bs, Text.isBlank c = true) ∧
      token.span = Span.sized (position + bs.length) content.length ∧
      token.content = String.ofList content ∧ content ≠ [] ∧ (∀ c ∈ content, inAtom c = true) ∧
      NotInAtom rest ∧ Lexes (position + bs.length + content.length) rest tokens := by
  obtain ⟨bs, content, rest, rfl, blank, span, spells, more⟩ := lexes.uncons
  rcases spells with ⟨c, -, mark⟩ | ⟨-, spelled, nonempty, all, ends⟩
  · rw [is_atom] at mark
    exact absurd mark (markOf_ne_atom c)
  · exact ⟨bs, content, rest, rfl, blank, span, spelled, nonempty, all, ends, more⟩

end Lexer

namespace Weave

open Buffer Lexer Reader

/-- A kept character. -/
def keep (c : Char) : Weave := .cell ⟨c, .kept⟩

/-- All cells are kept. -/
def Kept (ws : List Weave) : Prop := ∀ c ∈ stored ws, c.status = .kept

/-- The characters of weaves in which all cells are kept. -/
def spelling (ws : List Weave) : List Char := (stored ws).map Cell.char

@[simp] theorem spelling_nil : spelling [] = [] := rfl

@[simp] theorem spelling_append (us ws : List Weave) :
    spelling (us ++ ws) = spelling us ++ spelling ws := by
  simp [spelling]

theorem spelling_cons (w : Weave) (ws : List Weave) :
    spelling (w :: ws) = spelling [w] ++ spelling ws := by
  simp [spelling]

@[simp] theorem spelling_node (kind : Kind) (parts : List Weave) :
    spelling [node kind parts] = spelling parts := by
  simp [spelling]

@[simp] theorem spelling_keep (cs : List Char) : spelling (cs.map keep) = cs := by
  have cells : cs.map keep = (cs.map fun c => (⟨c, .kept⟩ : Cell)).map cell := by simp [keep]
  rw [spelling, cells, stored_map_cell]
  simp [Function.comp_def]

@[simp] theorem kept_nil : Kept [] := by simp [Kept]

theorem kept_append {us ws : List Weave} : Kept (us ++ ws) ↔ Kept us ∧ Kept ws := by
  simp only [Kept, stored_append, List.mem_append]
  exact ⟨fun h => ⟨fun c hc => h c (.inl hc), fun c hc => h c (.inr hc)⟩,
    fun h c hc => hc.elim (h.1 c) (h.2 c)⟩

theorem kept_cons {w : Weave} {ws : List Weave} : Kept (w :: ws) ↔ Kept [w] ∧ Kept ws := by
  rw [← kept_append]
  rfl

theorem kept_node {kind : Kind} {parts : List Weave} : Kept [node kind parts] ↔ Kept parts := by
  simp [Kept]

theorem kept_keep (cs : List Char) : Kept (cs.map keep) := by
  have cells : cs.map keep = (cs.map fun c => (⟨c, .kept⟩ : Cell)).map cell := by simp [keep]
  rw [Kept, cells, stored_map_cell]
  simp

theorem Kept.width {ws : List Weave} (kept : Kept ws) : width ws = (spelling ws).length := by
  simp only [Weave.width, spelling, List.length_map, currentCount, List.countP_eq_length]
  intro c hc
  simp [Cell.isCurrent, kept c hc]

theorem Kept.mem {ws : List Weave} (kept : Kept ws) {w : Weave} (mem : w ∈ ws) : Kept [w] := by
  intro c hc
  refine kept c ?_
  simp only [stored, List.mem_flatMap]
  exact ⟨w, mem, by simpa using hc⟩

@[simp] theorem formsAt_keep (position : Nat) (cs : List Char) :
    formsAt position (cs.map keep) = [] := by
  have cells : cs.map keep = (cs.map fun c => (⟨c, .kept⟩ : Cell)).map cell := by simp [keep]
  rw [cells, formsAt_map_cell]

@[simp] theorem width_keep (cs : List Char) : width (cs.map keep) = cs.length := by
  rw [(kept_keep cs).width, spelling_keep]

@[simp] theorem spelling_keep_cons (c : Char) (ws : List Weave) :
    spelling (keep c :: ws) = c :: spelling ws := by
  simp [spelling, keep]

@[simp] theorem room_keep (c : Char) : (keep c).room = 1 := rfl

@[simp] theorem formsOf_keep (position : Nat) (c : Char) : formsOf position (keep c) = [] :=
  formsOf_cell position _

@[simp] theorem formsAt_keep_cons (position : Nat) (c : Char) (ws : List Weave) :
    formsAt position (keep c :: ws) = formsAt (position + 1) ws := by
  rw [formsAt_cons, formsOf_keep, room_keep, List.nil_append]

theorem spelling_list (items : List Weave) :
    spelling (keep '(' :: (items ++ [keep ')'])) = '(' :: (spelling items ++ [')']) := by
  simp

theorem width_list (items : List Weave) :
    width (keep '(' :: (items ++ [keep ')'])) = 1 + width items + 1 := by
  rw [width_cons, width_append, room_keep, width_cons, width_nil, room_keep]
  omega

theorem formsAt_list (position : Nat) (items : List Weave) :
    formsAt position (keep '(' :: (items ++ [keep ')'])) = formsAt (position + 1) items := by
  simp [formsAt_append]

theorem spelling_quote (bs : List Char) (w : Weave) :
    spelling (keep '\x27' :: (bs.map keep ++ [w])) = '\x27' :: (bs ++ spelling [w]) := by
  simp

theorem width_quote (bs : List Char) (w : Weave) :
    width (keep '\x27' :: (bs.map keep ++ [w])) = 1 + bs.length + w.room := by
  rw [width_cons, width_append, room_keep, width_keep, width_cons, width_nil, Nat.add_zero,
    Nat.add_assoc]

theorem formsAt_quote (position : Nat) (bs : List Char) (w : Weave) :
    formsAt position (keep '\x27' :: (bs.map keep ++ [w])) =
      formsOf (position + 1 + bs.length) w := by
  simp [formsAt_append]

theorem good_keep {loose : Bool} {cs : List Char} {w : Weave} (mem : w ∈ cs.map keep) :
    Good loose w := by
  obtain ⟨c, -, rfl⟩ := List.mem_map.mp mem
  exact .cell

/-! ## Runs over kept cells -/

theorem step_keep {loose : Bool} {kind : Kind} {s : Stage} {c : Char} :
    step loose kind s (keep c) = stepKept loose kind s c := rfl

/-- The characters ahead do not run into what stands ahead of the gap. -/
def Clear : Gap → List Char → Prop
  | .free, _ => True
  | .touching last, chars => ∀ c, chars.head? = some c → (inAtom last && inAtom c) = false
  | .blocked, _ => False

theorem run_blanks (loose : Bool) {gap : Gap} {bs rest : List Char} (clear : Clear gap (bs ++ rest))
    (blank : ∀ c ∈ bs, Text.isBlank c = true) :
    ∃ gap', run loose .list (.inside gap) (bs.map keep) = some (.inside gap') ∧
      Clear gap' rest := by
  induction bs generalizing gap with
  | nil => exact ⟨gap, rfl, clear⟩
  | cons b bs ih =>
    have is_blank := blank b (by simp)
    have not_closing : b ≠ ')' := by
      rintro rfl
      exact absurd is_blank (by decide)
    have free : Clear .free (bs ++ rest) := trivial
    obtain ⟨gap', ran, clear'⟩ := ih free fun c hc => blank c (by simp [hc])
    refine ⟨gap', ?_, clear'⟩
    rw [List.map_cons, run_cons]
    simp only [step_keep, stepKept, not_closing, if_false, is_blank, if_true, Option.bind_some]
    exact ran

theorem run_quoted {loose : Bool} {bs : List Char} (blank : ∀ c ∈ bs, Text.isBlank c = true) :
    run loose .quote .quoted (bs.map keep) = some .quoted := by
  induction bs with
  | nil => rfl
  | cons b bs ih =>
    rw [List.map_cons, run_cons]
    simp only [step_keep, stepKept, blank b (by simp), if_true, Option.bind_some]
    exact ih fun c hc => blank c (by simp [hc])

theorem run_atom {loose : Bool} {content : String} (sofar : List Char) {chars : List Char}
    (all : ∀ c ∈ chars, inAtom c = true) :
    run loose (.atom content) (.atom sofar) (chars.map keep) = some (.atom (sofar ++ chars)) := by
  induction chars generalizing sofar with
  | nil => simp
  | cons c chars ih =>
    rw [List.map_cons, run_cons]
    simp only [step_keep, stepKept, all c (by simp), if_true, Option.bind_some]
    rw [ih _ fun d hd => all d (by simp [hd])]
    simp

/-- The first and the last character of a node that is not blank at either end. -/
structure Ends (w : Weave) (first last : Char) : Prop where
  front_eq : w.front = some ⟨first, .kept⟩
  head_eq : (spelling [w]).head? = some first
  last_eq : w.cells.getLast? = some ⟨last, .kept⟩
  solid : Text.isBlank last = false

theorem Ends.head_cells {w : Weave} {first last : Char} (ends : Ends w first last)
    (kept : Kept [w]) :
    w.cells.head? = some ⟨first, .kept⟩ := by
  have spelled := ends.head_eq
  simp only [spelling, stored_cons, stored_nil, List.append_nil, List.head?_map] at spelled
  obtain ⟨c, found, rfl⟩ := Option.map_eq_some_iff.mp spelled
  have status := kept c (by simpa using List.mem_of_mem_head? found)
  rw [found, ← status]

theorem Ends.gapAfter {w : Weave} {first last : Char} (ends : Ends w first last) :
    w.gapAfter = .touching last := by
  rw [Weave.gapAfter, ends.last_eq]

theorem Ends.endsSolid {w : Weave} {first last : Char} (ends : Ends w first last) :
    w.endsSolid = true := by
  simp [Weave.endsSolid, ends.last_eq, ends.solid]

theorem ends_of_parts {kind : Kind} {first last : Char} {middle : List Weave} {parts : List Weave}
    (head : parts = keep first :: middle) (final : (stored parts).getLast? = some ⟨last, .kept⟩)
    (solid : Text.isBlank last = false) : Ends (.node kind parts) first last := by
  refine ⟨?_, ?_, by simpa using final, solid⟩
  · simp [Weave.front, head, keep, isTyped]
  · simp [spelling, head, keep]

/-! ## From a derivation to a weave -/

/-- The weaves of forms, and the characters behind them. -/
structure Woven (position : Nat) (chars : List Char) (fs : List Form) (rest : List Char)
    (ws : List Weave) : Prop where
  text : chars = spelling ws ++ rest
  kept : Kept ws
  forms : formsAt position ws = fs
  good : ∀ w ∈ ws, Good false w
  passes : ∀ gap, Clear gap chars → ∃ gap',
    run false .list (.inside gap) ws = some (.inside gap') ∧ Clear gap' rest
  none : fs = [] → ws = []
  single : ∀ f, fs = [f] → ∃ (bs : List Char) (w : Weave) (first last : Char),
    ws = bs.map keep ++ [w] ∧
    (∀ c ∈ bs, Text.isBlank c = true) ∧ Ends w first last

theorem Woven.nil (position : Nat) (chars : List Char) : Woven position chars [] chars [] :=
  ⟨rfl, by simp, by simp, by simp, fun gap clear => ⟨gap, rfl, clear⟩, fun _ => rfl, by simp⟩

/-- One more node in front, behind blanks. -/
theorem Woven.cons {position : Nat} {bs chars rest : List Char} {w : Weave} {f : Form}
    {fs : List Form} {ws : List Weave} {first last : Char}
    (blank : ∀ c ∈ bs, Text.isBlank c = true) (kept : Kept [w]) (good : Good false w)
    (is_node : ∃ kind parts, w = .node kind parts) (ends : Ends w first last)
    (form : formsOf (position + bs.length) w = [f]) (clear : Clear (.touching last) chars)
    (more : Woven (position + bs.length + w.room) chars fs rest ws) :
    Woven position (bs ++ spelling [w] ++ chars) (f :: fs) rest (bs.map keep ++ w :: ws) := by
  refine ⟨?_, ?_, ?_, ?_, ?_, by simp, ?_⟩
  · rw [spelling_append, spelling_keep, spelling_cons w ws, more.text]
    simp only [List.append_assoc]
  · exact kept_append.mpr ⟨kept_keep bs, kept_cons.mpr ⟨kept, more.kept⟩⟩
  · rw [formsAt_append, formsAt_keep, width_keep, formsAt_cons, form, more.forms]
    rfl
  · intro v hv
    rcases List.mem_append.mp hv with hv | hv
    · exact good_keep hv
    · rcases List.mem_cons.mp hv with rfl | hv
      · exact good
      · exact more.good v hv
  · intro gap clear_gap
    rw [List.append_assoc] at clear_gap
    obtain ⟨gap₁, ran₁, clear₁⟩ := run_blanks false clear_gap blank
    obtain ⟨gap₂, ran₂, clear₂⟩ := more.passes _ clear
    refine ⟨gap₂, ?_, clear₂⟩
    have admitted : gap₁.admits w.front = true := by
      rw [ends.front_eq]
      cases gap₁ with
      | free => rfl
      | touching x =>
        have apart := clear₁ first (by rw [List.head?_append, ends.head_eq]; rfl)
        simp [Gap.admits, apart]
      | blocked => cases clear₁
    obtain ⟨kind, parts, rfl⟩ := is_node
    have stepped : step false .list (.inside gap₁) (.node kind parts) =
        some (.inside (.touching last)) :=
      step_node_eq_some.mpr (.inl ⟨gap₁, rfl, rfl, admitted, by rw [ends.gapAfter]⟩)
    exact run_append_eq_some.mpr ⟨_, ran₁, run_cons_eq_some.mpr ⟨_, stepped, ran₂⟩⟩
  · intro g single
    obtain ⟨-, rfl⟩ := List.cons.inj single
    rw [more.none rfl]
    exact ⟨bs, w, first, last, rfl, blank, ends⟩

theorem clear_of_not_inAtom {c : Char} {chars : List Char} (not : inAtom c = false) :
    Clear (.touching c) chars := fun d _ => by simp [not]

theorem room_eq {w : Weave} (kept : Kept [w]) : w.room = (spelling [w]).length := by
  have := kept.width
  simpa using this

/-- The weave of an atom. -/
theorem atom_weave {chars : List Char} (nonempty : chars ≠ [])
    (all : ∀ c ∈ chars, inAtom c = true) :
    ∃ first last, inAtom last = true ∧
      Ends (.node (.atom (String.ofList chars)) (chars.map keep)) first last ∧
      Good false (.node (.atom (String.ofList chars)) (chars.map keep)) := by
  cases chars with
  | nil => exact absurd rfl nonempty
  | cons c chars =>
    have final := List.getLast_mem nonempty
    refine ⟨c, (c :: chars).getLast nonempty, all _ final, ?_, ?_⟩
    · refine ends_of_parts rfl ?_ (isBlank_of_inAtom (all _ final))
      have cells : (c :: chars).map keep =
          ((c :: chars).map fun c => (⟨c, .kept⟩ : Cell)).map cell := by
        simp [keep]
      rw [cells, stored_map_cell, List.getLast?_map, List.getLast?_eq_some_getLast nonempty]
      rfl
    · refine .shaped ⟨.atom (c :: chars), ?_, by simp [Stage.complete]⟩ fun w hw => good_keep hw
      rw [List.map_cons, run_cons]
      simp only [step_keep, stepKept, all c (by simp), if_true, Option.bind_some]
      exact run_atom [c] fun d hd => all d (by simp [hd])

/-- The weave of a list. -/
theorem list_weave {items : List Weave} {gap : Gap} (good : ∀ w ∈ items, Good false w)
    (ran : run false .list (.inside .free) items = some (.inside gap)) :
    Ends (.node .list (keep '(' :: (items ++ [keep ')']))) '(' ')' ∧
      Good false (.node .list (keep '(' :: (items ++ [keep ')']))) := by
  constructor
  · refine ends_of_parts rfl ?_ (by decide)
    simp [keep, List.getLast?_append, List.getLast?_cons]
  · refine .shaped ⟨.closed, ?_, rfl⟩ ?_
    · rw [run_cons]
      simp only [step_keep, stepKept, if_true, Option.bind_some]
      rw [run_append_eq_some]
      exact ⟨_, ran, by simp [run, step_keep, stepKept]⟩
    · intro w hw
      simp only [List.mem_cons, List.mem_append, List.not_mem_nil, or_false] at hw
      rcases hw with rfl | hw | rfl
      · exact .cell
      · exact good w hw
      · exact .cell

/-- The weave of a quote. -/
theorem quote_weave {bs : List Char} {kind : Kind} {parts : List Weave} {first last : Char}
    (blank : ∀ c ∈ bs, Text.isBlank c = true) (good : Good false (.node kind parts))
    (ends : Ends (.node kind parts) first last) :
    Ends (.node .quote (keep '\x27' :: (bs.map keep ++ [.node kind parts]))) '\x27' last ∧
      Good false (.node .quote (keep '\x27' :: (bs.map keep ++ [.node kind parts]))) := by
  constructor
  · refine ends_of_parts rfl ?_ ends.solid
    simp only [stored_cons, stored_append, stored_nil, List.append_nil, List.getLast?_append,
      ends.last_eq, Option.some_or]
  · refine .shaped ⟨.closed, ?_, rfl⟩ ?_
    · rw [run_cons]
      simp only [step_keep, stepKept, if_true, Option.bind_some]
      exact run_append_eq_some.mpr ⟨_, run_quoted blank, run_cons_eq_some.mpr
        ⟨_, step_node_eq_some.mpr (.inr ⟨rfl, rfl, ends.endsSolid, rfl⟩), rfl⟩⟩
    · intro w hw
      simp only [List.mem_cons, List.mem_append, List.not_mem_nil, or_false] at hw
      rcases hw with rfl | hw | rfl
      · exact .cell
      · exact good_keep hw
      · exact good

/-- What a run over a single node leaves behind it. -/
theorem clear_of_single {bs rest : List Char} {gap gap' : Gap} {kind : Kind} {parts : List Weave}
    {first last : Char} (ends : Ends (.node kind parts) first last)
    (ran : run false .list (.inside gap) (bs.map keep ++ [.node kind parts]) = some (.inside gap'))
    (clear : Clear gap' rest) : Clear (.touching last) rest := by
  obtain ⟨m, -, ran⟩ := run_append_eq_some.mp ran
  obtain ⟨m', stepped, ran⟩ := run_cons_eq_some.mp ran
  cases ran
  rcases step_node_eq_some.mp stepped with ⟨gap'', -, -, -, after⟩ | ⟨quote, -⟩
  · rw [ends.gapAfter] at after
    cases after
    exact clear
  · cases quote

/-- Some weaves spell the forms, and the tokens behind them stay. -/
def Weaves (position : Nat) (chars : List Char) (fs : List Form)
    (rest : List (Token Mark)) : Prop :=
  ∃ ws later, Woven position chars fs later ws ∧ Lexes (position + width ws) later rest

/-- One more node in front, with the tokens behind it. -/
theorem Weaves.cons {position : Nat} {bs chars : List Char} {kind : Kind} {parts : List Weave}
    {f : Form} {fs : List Form} {rest : List (Token Mark)} {first last : Char}
    (blank : ∀ c ∈ bs, Text.isBlank c = true) (kept : Kept parts)
    (node : Ends (.node kind parts) first last ∧ Good false (.node kind parts))
    (form : formsOf (position + bs.length) (.node kind parts) = [f])
    (clear : Clear (.touching last) chars)
    (more : Weaves (position + bs.length + width parts) chars fs rest) :
    Weaves position (bs ++ spelling parts ++ chars) (f :: fs) rest := by
  obtain ⟨ws, later, woven, lexes⟩ := more
  rw [← room_node kind] at woven
  refine ⟨bs.map keep ++ .node kind parts :: ws, later, ?_, ?_⟩
  · rw [← spelling_node kind]
    exact woven.cons blank (kept_node.mpr kept) node.2 ⟨_, _, rfl⟩ node.1 form clear
  · rw [width_append, width_keep, width_cons, room_node]
    rwa [show position + (bs.length + (width parts + width ws)) =
      position + bs.length + width parts + width ws by omega]

section

variable {ts mid rest : List (Token Mark)} {fs : List Form}
  (behind : ∀ {position : Nat} {chars : List Char}, Lexes position chars mid →
      Weaves position chars fs rest)
  {position : Nat} {chars : List Char}

include behind

theorem Weaves.atom {token : Token Mark} (is_atom : token.kind = .atom)
    (lexes : Lexes position chars (token :: mid)) :
    Weaves position chars (.leaf ⟨.atom token.content, token.span⟩ :: fs) rest := by
  obtain ⟨bs, content, chars, rfl, blank, span, spelled, nonempty, all, ends, lexes⟩ :=
    lexes.uncons_atom is_atom
  obtain ⟨first, last, -, node⟩ := atom_weave nonempty all
  have form : formsOf (position + bs.length)
      (.node (.atom (String.ofList content)) (content.map keep)) =
      [.leaf ⟨.atom token.content, token.span⟩] := by
    simp [formsOf_node, spelled, span, Rose.leaf]
  have clear : Clear (.touching last) chars := fun c hc => by simp [ends c hc]
  have more := Weaves.cons blank (kept_keep content) node form clear (by
    rw [width_keep]
    exact behind lexes)
  rwa [spelling_keep] at more

theorem Weaves.quote {token : Token Mark} {f : Form} {span : Span} (is_quote : token.kind = .quote)
    (start : span.start = token.span.start) (stop : span.stop = f.span.stop)
    (quoted : ∀ {position : Nat} {chars : List Char}, Lexes position chars ts →
      Weaves position chars [f] mid)
    (lexes : Lexes position chars (token :: ts)) :
    Weaves position chars (.node ⟨.quote, span⟩ [f] :: fs) rest := by
  have mark : markOf '\x27' = some token.kind := is_quote ▸ rfl
  obtain ⟨bs, chars, rfl, blank, token_span, lexes⟩ := lexes.uncons_mark mark
  obtain ⟨ws, after, inner, lexes⟩ := quoted lexes
  obtain ⟨bs', v, first, last, rfl, blank', ends⟩ := inner.single f rfl
  have forms := inner.forms
  rw [formsAt_append, formsAt_keep, width_keep, List.nil_append, formsAt_singleton] at forms
  cases v with
  | cell c => simp at forms
  | node kind parts =>
    have node := quote_weave blank' (inner.good _ (by simp)) ends
    have kept : Kept (keep '\x27' :: (bs'.map keep ++ [.node kind parts])) :=
      kept_cons.mpr ⟨kept_keep ['\x27'], inner.kept⟩
    have form : formsOf (position + bs.length)
        (.node .quote (keep '\x27' :: (bs'.map keep ++ [.node kind parts]))) =
        [.node ⟨.quote, span⟩ [f]] := by
      obtain ⟨-, -, inner_stop⟩ := nests (.node kind parts) _ f (by rw [forms]; simp)
      have same : span = Span.sized (position + bs.length)
          (width (keep '\x27' :: (bs'.map keep ++ [.node kind parts]))) := by
        ext
        · rw [start, token_span]
          rfl
        · rw [stop, inner_stop, width_quote]
          simp only [Span.sized]
          omega
      rw [formsOf_node, formsAt_quote, forms, same]
    obtain ⟨gap, ran, clear⟩ := inner.passes .free trivial
    have more := Weaves.cons blank kept node form (clear_of_single ends ran clear) (by
      rw [width_cons, room_keep, ← Nat.add_assoc]
      exact behind lexes)
    rw [spelling_keep_cons] at more
    rw [inner.text]
    simpa using more

theorem Weaves.list {opening closing : Token Mark} {gs : List Form} {span : Span}
    (opens : opening.kind = .opening) (closes : closing.kind = .closing)
    (start : span.start = opening.span.start) (stop : span.stop = closing.span.stop)
    (items : ∀ {position : Nat} {chars : List Char}, Lexes position chars ts →
      Weaves position chars gs (closing :: mid))
    (lexes : Lexes position chars (opening :: ts)) :
    Weaves position chars (.node ⟨.list, span⟩ gs :: fs) rest := by
  have mark : markOf '(' = some opening.kind := opens ▸ rfl
  have mark' : markOf ')' = some closing.kind := closes ▸ rfl
  obtain ⟨bs, chars, rfl, blank, open_span, lexes⟩ := lexes.uncons_mark mark
  obtain ⟨ws, after, inner, lexes⟩ := items lexes
  obtain ⟨bs', after, rfl, blank', close_span, lexes⟩ := lexes.uncons_mark mark'
  obtain ⟨gap, ran, clear⟩ := inner.passes .free trivial
  obtain ⟨gap', ran', -⟩ := run_blanks false clear blank'
  have good : ∀ w ∈ ws ++ bs'.map keep, Good false w :=
    fun w hw => (List.mem_append.mp hw).elim (inner.good w) good_keep
  have node := list_weave good (run_append_eq_some.mpr ⟨_, ran, ran'⟩)
  have kept : Kept (keep '(' :: (ws ++ bs'.map keep ++ [keep ')'])) :=
    kept_cons.mpr ⟨kept_keep ['('],
      kept_append.mpr ⟨kept_append.mpr ⟨inner.kept, kept_keep bs'⟩, kept_keep [')']⟩⟩
  have form : formsOf (position + bs.length)
      (.node .list (keep '(' :: (ws ++ bs'.map keep ++ [keep ')']))) =
      [.node ⟨.list, span⟩ gs] := by
    have same : span = Span.sized (position + bs.length)
        (width (keep '(' :: (ws ++ bs'.map keep ++ [keep ')']))) := by
      ext
      · rw [start, open_span]
        rfl
      · rw [stop, close_span, width_list, width_append, width_keep]
        simp only [Span.sized]
        omega
    rw [formsOf_node, formsAt_list, formsAt_append, formsAt_keep, List.append_nil, inner.forms,
      same]
  have room : position + bs.length + width (keep '(' :: (ws ++ bs'.map keep ++ [keep ')'])) =
      position + bs.length + 1 + width ws + bs'.length + 1 := by
    rw [width_list, width_append, width_keep]
    omega
  have more := Weaves.cons blank kept node form (clear_of_not_inAtom (by decide))
    (room ▸ behind lexes)
  rw [spelling_list, spelling_append, spelling_keep] at more
  rw [inner.text]
  simpa using more

end

theorem weaves_of_derives {ts rest : List (Token Mark)} {fs : List Form}
    (derives : Derives ts fs rest) : ∀ {position : Nat} {chars : List Char},
    Lexes position chars ts → Weaves position chars fs rest := by
  induction derives with
  | nil => exact fun {position chars} lexes =>
    ⟨[], chars, .nil position chars, by simpa using lexes⟩
  | atom is_atom _ ih => exact Weaves.atom ih is_atom
  | quote is_quote _ start stop _ ih ih' => exact Weaves.quote ih' is_quote start stop ih
  | list opens _ closes start stop _ ih ih' => exact Weaves.list ih' opens closes start stop ih

end Weave

end FormEdit
