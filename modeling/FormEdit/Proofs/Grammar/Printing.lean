import FormEdit.Form.Layout
import FormEdit.Proofs.Grammar.Pieces
import FormEdit.Proofs.Grammar.Placing
import FormEdit.Proofs.Tree.Siblings

/-!
# Printed forms are read back

What is printed for a form that was read has the tokens that the form was read from, however its
lines are broken. `Lexeme` is what the scan can find, so a form that was read is `Readable`;
`Prints` says what tokens a piece of text has wherever it stands and that it leaves no comment open,
so that pieces can be put side by side when a blank or a parenthesis stands between them
(`Prints.apart`). One lemma for each kind of form then gives `Form.Readable.layoutAt`. The form that
is read back has the same shape, and the layout goes by the shape alone (`Form.layoutAt_shape`).
-/

namespace FormEdit

namespace Lexer

open Mode

/-- Characters that the scan takes for one atom. -/
structure Atomic (content : List Char) : Prop where
  nonempty : content ≠ []
  all : ∀ c ∈ content, inAtom c = true
  plain : content.head? ≠ some ';'

/-- What a token can be, apart from where it stands. -/
inductive Lexeme : Mark × String → Prop
  | mark {c : Char} {m : Mark} (is_mark : markOf c = some m) : Lexeme (m, c.toString)
  | atom {content : List Char} (atomic : Atomic content) : Lexeme (.atom, String.ofList content)

/-- The atom under way is one already. -/
def Run.Proper : Run → Prop
  | .atom _ _ content => Atomic content.reverse
  | _ => True

variable {run next : Run} {p : Placed} {ahead : List Placed} {position : Nat} {c : Char}
  {tokens done complete : List (Token Mark)}

theorem Atomic.append {content : List Char} (atomic : Atomic content) (inside : inAtom c = true) :
    Atomic (content ++ [c]) := by
  obtain ⟨first, rest, rfl⟩ := List.exists_cons_of_ne_nil atomic.nonempty
  refine ⟨by simp, ?_, by simpa using atomic.plain⟩
  intro d mem
  rcases List.mem_append.mp mem with mem | mem
  · exact atomic.all d mem
  · rwa [List.mem_singleton.mp mem]

theorem Run.Proper.take (proper : run.Proper) (takes : run.takes p.char = true) :
    (run.take p).Proper := by
  cases run with
  | atom first last content =>
    have longer : Atomic (content.reverse ++ [p.char]) := Atomic.append proper takes
    simpa [Run.take, Run.Proper] using longer
  | _ => trivial

theorem close_lexemes (proper : run.Proper) (closed : run.close ahead = .ok done) :
    ∀ t ∈ done, Lexeme t.lexeme := by
  intro t mem
  have listed : t.lexeme ∈ run.done.map Token.lexeme := by
    rw [← close_lexeme closed]
    exact List.mem_map_of_mem mem
  cases run with
  | atom first last content =>
    have same : t.lexeme = (.atom, String.ofList content.reverse) := by
      simpa [Run.done, Token.lexeme] using listed
    rw [same]
    exact .atom proper
  | _ => simp [Run.done] at listed

theorem begin_lexemes (begun : begin p ahead = .ok (next, complete)) :
    next.Proper ∧ ∀ t ∈ complete, Lexeme t.lexeme := by
  rcases begin_cases begun with ⟨m, mark, rfl, made⟩ | ⟨opened, rfl⟩
  · refine ⟨trivial, fun t mem => ?_⟩
    have listed := List.mem_map_of_mem (f := Token.lexeme) mem
    rw [single_lexeme made, List.mem_singleton] at listed
    rw [listed]
    exact .mark mark
  · refine ⟨?_, by simp⟩
    rcases opens_cases opened with ⟨-, rfl⟩ | ⟨-, -, rfl⟩ | ⟨plain, inside, rfl⟩
    · trivial
    · trivial
    · exact ⟨by simp, by simpa using inside, by simpa using plain⟩

/-- Tokens that are found anywhere are lexemes. -/
theorem lexemes_of_split (split_eq : split ahead = .ok tokens) : ∀ t ∈ tokens, Lexeme t.lexeme := by
  have idle : Run.idle.Proper := trivial
  apply scan_preserves (fun _ => True) Run.Proper (Lexeme ·.lexeme) _ _ _ idle
    (fun _ _ => trivial) split_eq
  · exact fun _ _ _ proper takes => proper.take takes
  · exact fun _ _ _ proper closed => close_lexemes proper closed
  · exact fun _ _ _ _ _ begun => begin_lexemes begun

theorem Lexeme.content_eq {m : Mark} {content : String} (lexeme : Lexeme (m, content))
    (mark : markOf c = some m) :
    content = c.toString := by
  cases lexeme with
  | mark is_mark => rw [markOf_injective is_mark mark]
  | atom _ => exact absurd mark (markOf_ne_atom c)

theorem Lexeme.of_kind {token : Token Mark} {c : Char} {m : Mark} (lexeme : Lexeme token.lexeme)
    (kind : token.kind = m) (mark : markOf c = some m) : token.lexeme = (m, c.toString) := by
  rw [Token.lexeme, kind] at lexeme ⊢
  rw [lexeme.content_eq mark]

theorem Lexeme.atomic {content : String} (lexeme : Lexeme (.atom, content)) :
    ∃ chars, content = String.ofList chars ∧ Atomic chars := by
  cases lexeme with
  | mark is_mark => exact absurd is_mark (markOf_ne_atom _)
  | atom atomic => exact ⟨_, rfl, atomic⟩

end Lexer

open Lexer Reader Rose

namespace Form

/-- A form that can be read: atoms are spelt as the scan finds them, and a quote has its one
form. -/
inductive Readable : Form → Prop
  | atom {content : List Char} {span : Span} (atomic : Atomic content) :
      Readable (.leaf ⟨.atom (String.ofList content), span⟩)
  | quote {span : Span} {f : Form} (quoted : Readable f) : Readable (.node ⟨.quote, span⟩ [f])
  | list {span : Span} {fs : List Form} (each : ∀ f ∈ fs, Readable f) :
      Readable (.node ⟨.list, span⟩ fs)

/-- The tokens of a form, apart from where they stand. -/
def lexemes (f : Form) : List (Mark × String) :=
  f.fold fun tag parts =>
    match tag.kind with
    | .atom content => [(.atom, content)]
    | .quote => (.quote, '\x27'.toString) :: parts.flatten
    | .list => (.opening, '('.toString) :: parts.flatten ++ [(.closing, ')'.toString)]

@[simp] theorem lexemes_atom (content : String) (span : Span) :
    lexemes (.leaf ⟨.atom content, span⟩) = [(.atom, content)] := rfl

@[simp] theorem lexemes_quote (span : Span) (fs : List Form) :
    lexemes (.node ⟨.quote, span⟩ fs) = (.quote, '\x27'.toString) :: fs.flatMap lexemes := by
  rw [lexemes, fold_node]
  rfl

@[simp] theorem lexemes_list (span : Span) (fs : List Form) :
    lexemes (.node ⟨.list, span⟩ fs) =
      (.opening, '('.toString) :: fs.flatMap lexemes ++ [(.closing, ')'.toString)] := by
  rw [lexemes, fold_node]
  rfl

end Form

namespace Reader

/-- What is derived for tokens that were found can be read, and has their lexemes. -/
theorem Derives.readable {ts rest : List (Token Mark)} {fs : List Form}
    (derives : Derives ts fs rest) (found : ∀ t ∈ ts, Lexeme t.lexeme) : (∀ f ∈ fs, f.Readable) ∧
      ts.map Token.lexeme = fs.flatMap Form.lexemes ++ rest.map Token.lexeme := by
  induction derives with
  | nil => exact ⟨by simp, by simp⟩
  | @atom token ts rest fs is_atom more ih =>
    obtain ⟨lexeme, found⟩ := List.forall_mem_cons.mp found
    obtain ⟨readable, same⟩ := ih found
    have own : (Form.Readable (.leaf ⟨.atom token.content, token.span⟩)) := by
      rw [Token.lexeme, is_atom] at lexeme
      obtain ⟨content, content_eq, atomic⟩ := lexeme.atomic
      rw [content_eq]
      exact .atom atomic
    refine ⟨List.forall_mem_cons.mpr ⟨own, readable⟩, ?_⟩
    simp [same, Token.lexeme, is_atom]
  | @quote token ts mid rest f fs span is_quote quoted start stop more ih_quoted ih =>
    obtain ⟨lexeme, found⟩ := List.forall_mem_cons.mp found
    obtain ⟨own, same_own⟩ := ih_quoted found
    obtain ⟨before, rfl, -⟩ := quoted.own
    obtain ⟨readable, same⟩ := ih fun t mem => found t (by simp [mem])
    refine ⟨List.forall_mem_cons.mpr ⟨.quote (own f (by simp)), readable⟩, ?_⟩
    rw [List.map_cons, lexeme.of_kind (c := '\x27') is_quote rfl, same_own, same]
    simp
  | @list opening closing ts mid rest gs fs span opens items closes start stop more ih_items ih =>
    obtain ⟨lexeme, found⟩ := List.forall_mem_cons.mp found
    obtain ⟨own, same_own⟩ := ih_items found
    obtain ⟨before, rfl, -⟩ := items.own
    obtain ⟨readable, same⟩ := ih fun t mem => found t (by simp [mem])
    have lexeme' := found closing (by simp)
    refine ⟨List.forall_mem_cons.mpr ⟨.list own, readable⟩, ?_⟩
    rw [List.map_cons, lexeme.of_kind (c := '(') opens rfl, same_own, List.map_cons,
      lexeme'.of_kind (c := ')') closes rfl, same]
    simp

end Reader

/-! ## Pieces of printed text -/

/-- The tokens of a piece of text, wherever it stands. It leaves no comment open. -/
structure Prints (text : List Char) (lexemes : List (Mark × String)) : Prop where
  tame : Tame text
  tokens : ∀ position, ∃ ts, tokensAt position text = some ts ∧ ts.map Token.lexeme = lexemes

namespace Prints

variable {left right sep : List Char} {xs ys : List (Mark × String)}

theorem join (first : Prints left xs) (second : Prints right ys)
    (ends : (Mode.free.after left).Ends right) :
    Prints (left ++ right) (xs ++ ys) where
  tame := first.tame.append second.tame
  tokens position := by
    obtain ⟨ts, ts_eq, same⟩ := first.tokens position
    obtain ⟨us, us_eq, same'⟩ := second.tokens (position + left.length)
    refine ⟨ts ++ us, (tokensAt_join ends).mpr ⟨ts, us, ts_eq, us_eq, rfl⟩, ?_⟩
    rw [List.map_append, same, same']

/-- A text that begins with what is not part of an atom can stand behind any other. -/
theorem apart (first : Prints left xs) (second : Prints right ys) (outside : NotInAtom right) :
    Prints (left ++ right) (xs ++ ys) := by
  refine first.join second (ends_of_apart first.tame ?_)
  intro x y _ head
  rw [outside y head, Bool.and_false]

theorem atom {content : List Char} (atomic : Atomic content) :
    Prints content [(.atom, String.ofList content)] := by
  obtain ⟨c, rest, rfl⟩ := List.exists_cons_of_ne_nil atomic.nonempty
  obtain ⟨inside, all⟩ := List.forall_mem_cons.mp atomic.all
  have plain : c ≠ ';' := by simpa using atomic.plain
  constructor
  · rw [Tame, Mode.after_cons, Mode.next, if_neg plain, if_pos inside, Mode.atom_after all]
    exact Mode.noConfusion
  · intro position
    obtain ⟨last, fed⟩ := feed_atom (position + 1) position position [c] all
    have whole : feed .idle position (c :: rest) =
        some ([], .atom position last (rest.reverse ++ [c])) :=
      feed_cons.mpr ⟨[], _, [], step_atom inside plain, fed, rfl⟩
    refine ⟨_, by rw [tokensAt, tokensFrom, whole]; rfl, ?_⟩
    simp [Run.done, Token.lexeme]

/-- A parenthesis or a quote can stand ahead of any text. -/
theorem mark {c : Char} {m : Mark} (is_mark : markOf c = some m) (more : Prints right ys) :
    Prints (c :: right) ((m, c.toString) :: ys) where
  tame := by
    rw [Tame, Mode.after_cons, Mode.next_other (inAtom_of_mark is_mark)]
    exact more.tame
  tokens position := by
    obtain ⟨ts, ts_eq, same⟩ := more.tokens (position + 1)
    refine ⟨⟨m, c.toString, Span.sized position 1⟩ :: ts, ?_, ?_⟩
    · rw [tokensAt_mark is_mark, ts_eq, Option.map_some]
    · rw [List.map_cons, same, Token.lexeme]

theorem nil : Prints [] [] := ⟨tame_nil, fun _ => ⟨[], rfl, rfl⟩⟩

theorem blanks (all : ∀ c ∈ sep, Text.isBlank c = true) (more : Prints right ys) :
    Prints (sep ++ right) ys := by
  induction sep with
  | nil => exact more
  | cons c sep ih =>
    obtain ⟨blank, all⟩ := List.forall_mem_cons.mp all
    have rest := ih all
    constructor
    · rw [List.cons_append, Tame, Mode.after_cons, Mode.next_other (inAtom_of_blank blank)]
      exact rest.tame
    · intro position
      obtain ⟨ts, ts_eq, same⟩ := rest.tokens (position + 1)
      have fed : feed .idle position [c] = some ([], .blank) :=
        feed_cons.mpr ⟨[], .blank, [], step_blank blank, rfl, rfl⟩
      exact ⟨ts, tokensAt_append fed trivial ts_eq, same⟩

/-- Texts with blanks between them. -/
theorem intercalate {α : Type} {text : α → List Char} {lexemes : α → List (Mark × String)}
    {as : List α} (some : sep ≠ []) (all : ∀ c ∈ sep, Text.isBlank c = true)
    (each : ∀ a ∈ as, Prints (text a) (lexemes a)) :
    Prints (sep.intercalate (as.map text)) (as.flatMap lexemes) := by
  induction as with
  | nil => exact nil
  | cons a as ih =>
    obtain ⟨first, each⟩ := List.forall_mem_cons.mp each
    cases as with
    | nil => simpa using first
    | cons b as =>
      have outside : NotInAtom (sep ++ sep.intercalate ((b :: as).map text)) := by
        obtain ⟨c, rest, rfl⟩ := List.exists_cons_of_ne_nil some
        rintro _ ⟨⟩
        exact inAtom_of_blank (all c List.mem_cons_self)
      have joined := first.apart ((ih each).blanks all) outside
      simpa [List.intercalate] using joined

/-- Text between parentheses. -/
theorem parens (inside : Prints left xs) :
    Prints ('(' :: left ++ [')'])
      ((.opening, '('.toString) :: xs ++ [(.closing, ')'.toString)]) := by
  have closed : Prints [')'] [(.closing, ')'.toString)] := mark Language.closing_mark nil
  rw [List.cons_append, List.cons_append]
  refine mark Language.opening_mark (inside.apart closed ?_)
  rintro _ ⟨⟩
  rfl

end Prints

namespace Form

/-! ## Layouts -/

@[simp] theorem flat_atom (content : String) (span : Span) :
    flat (.leaf ⟨.atom content, span⟩) = content.toList :=
  rfl

@[simp] theorem flat_quote (span : Span) (f : Form) :
    flat (.node ⟨.quote, span⟩ [f]) = '\x27' :: flat f := by
  rw [flat, fold_node]
  rfl

@[simp] theorem flat_list (span : Span) (fs : List Form) :
    flat (.node ⟨.list, span⟩ fs) = '(' :: [' '].intercalate (fs.map flat) ++ [')'] := by
  rw [flat, fold_node]
  rfl

theorem layoutEach_eq_map (width indent : Nat) (fs : List Form) :
    layoutEach width indent fs = fs.map (layoutAt width indent) := by
  induction fs with
  | nil => rfl
  | cons f fs ih => rw [layoutEach, ih, List.map_cons]

theorem blank_space : ∀ c ∈ [' '], Text.isBlank c = true := by
  intro c mem
  rw [List.mem_singleton.mp mem]
  decide

theorem blank_lineBreak (indent : Nat) : ∀ c ∈ lineBreak indent, Text.isBlank c = true := by
  intro c mem
  rcases List.mem_cons.mp mem with rfl | mem
  · decide
  · rw [(List.mem_replicate.mp mem).2]
    decide

theorem Readable.flat {f : Form} (readable : Readable f) : Prints f.flat f.lexemes := by
  induction readable with
  | atom atomic =>
    rw [flat_atom, lexemes_atom, String.toList_ofList]
    exact .atom atomic
  | quote _ ih =>
    rw [flat_quote, lexemes_quote, List.flatMap_singleton]
    exact .mark rfl ih
  | list _ ih =>
    rw [flat_list, lexemes_list]
    exact .parens (.intercalate (List.cons_ne_nil _ _) blank_space ih)

/-- Wherever its lines are broken, the text of a form has the form's tokens. -/
theorem Readable.layoutAt {f : Form} (readable : Readable f) (width indent : Nat) :
    Prints (f.layoutAt width indent) f.lexemes := by
  induction readable generalizing indent with
  | atom atomic =>
    rw [Rose.leaf, Form.layoutAt, ← Rose.leaf, lexemes_atom, String.toList_ofList]
    exact .atom atomic
  | quote _ ih =>
    rw [Form.layoutAt, lexemes_quote, List.flatMap_singleton]
    exact .mark rfl (ih (indent + 1))
  | @list span fs each ih =>
    simp only [Form.layoutAt]
    split
    · rw [lexemes_list]
      exact .parens (.intercalate (List.cons_ne_nil _ _) blank_space fun f mem => (each f mem).flat)
    · rw [lexemes_list, layoutEach_eq_map]
      exact .parens (.intercalate (List.cons_ne_nil _ _) (blank_lineBreak _) fun f mem =>
        ih f mem (indent + 1))

/-! ## Layouts go by shapes -/

theorem flat_shape {f g : Form} (same : f.shape = g.shape) : f.flat = g.flat := by
  refine fold_eq_of_map (f := Tag.kind) ?_ same
  intro a b kind_eq
  rw [kind_eq]

/-- The spans of a form do not show in its layout. -/
theorem layoutAt_shape {f g : Form} (same : f.shape = g.shape) (width indent : Nat) :
    f.layoutAt width indent = g.layoutAt width indent := by
  induction f using Rose.induction generalizing g indent with
  | node tag fs ih =>
    obtain ⟨kind, span⟩ := tag
    obtain ⟨⟨kind', span'⟩, gs⟩ := g
    obtain ⟨rfl, shapes⟩ : kind = kind' ∧ fs.map shape = gs.map shape := by
      rw [shape, shape, map_node, map_node, node.injEq] at same
      exact same
    cases kind with
    | atom content => rfl
    | quote =>
      cases fs with
      | nil =>
        obtain rfl := List.map_eq_nil_iff.mp shapes.symm
        rfl
      | cons f fs =>
        obtain ⟨g, gs, rfl, first, -⟩ := List.map_eq_cons_iff.mp shapes.symm
        rw [layoutAt, layoutAt, ih f List.mem_cons_self first.symm]
    | list =>
      have flats : fs.map flat = gs.map flat := map_eq_of_map (fun f _ g => flat_shape) shapes
      have lines : fs.map (layoutAt width (indent + 1)) = gs.map (layoutAt width (indent + 1)) :=
        map_eq_of_map (fun f mem g same => ih f mem same (indent + 1)) shapes
      have empty : fs = [] ↔ gs = [] := by
        rw [← List.map_eq_nil_iff (f := shape), shapes, List.map_eq_nil_iff]
      simp only [layoutAt, layoutEach_eq_map, flats, lines, empty]

end Form

namespace Language

/-- Characters that print the tokens of a form are read as a form of its shape, wherever they are
placed. -/
theorem readWhole_printed {ts : List (Token Mark)} {chars : List Placed} {place : Nat} {f : Form}
    (derives : Derives ts [f] []) (found : ∀ t ∈ ts, Lexeme t.lexeme)
    (prints : Prints (chars.map Placed.char) f.lexemes) (sorted : Sorted place chars) :
    ∃ g, parenthesised.readWhole chars = .ok g ∧ g.shape = f.shape := by
  obtain ⟨us, us_eq, printed⟩ := prints.tokens 0
  have same : us.map Token.lexeme = ts.map Token.lexeme := by
    rw [printed, (derives.readable found).2]
    simp
  obtain ⟨fs, rest, derives', shapes, rests⟩ :=
    derives.placed (ordered_of_tokensAt us_eq).order same
  obtain ⟨g, rfl, shape_g⟩ := List.map_eq_singleton_iff.mp shapes
  obtain rfl := List.map_eq_nil_iff.mp rests
  obtain ⟨g', read, shape_g'⟩ := readWhole_placed sorted ⟨us, us_eq, derives'⟩
  exact ⟨g', read, shape_g'.trans shape_g⟩

/-- Take any node of a tree that was read, print it in any width, and place the characters anywhere
in order: they are read as a form of the same shape, so printing that in the same width gives the
same text. -/
theorem printed_nodes_are_read_back {source : List Placed} {f : Form}
    (read : parenthesised.readWhole source = .ok f) (ids : IdSource) {h : Handle}
    (live : (Tree.ofForm f ids).1.contains h = true) :
    ∃ g, (Tree.ofForm f ids).1.form h = .ok g ∧ ∀ (width place : Nat) (chars : List Placed),
      Sorted place chars → chars.map Placed.char = (g.pretty width).toList →
        ∃ g', parenthesised.readWhole chars = .ok g' ∧ g'.shape = g.shape ∧
          g'.pretty width = g.pretty width := by
  obtain ⟨b, holds, rfl⟩ := Tree.ofForm_holds f ids
  obtain ⟨fs, c, rfl, rfl⟩ := holds.exists_hole live
  refine ⟨Branch.form c, holds.form_hole, ?_⟩
  intro width place chars sorted printed
  obtain ⟨tokens, split_eq, derives⟩ := derives_of_readWhole read
  rw [Tree.form_plug] at derives
  obtain ⟨ahead, own, behind, rfl, derives, -⟩ := derives.hole
  have found : ∀ t ∈ own, Lexeme t.lexeme :=
    fun t mem => lexemes_of_split split_eq t (by simp [mem])
  have readable : (Branch.form c).Readable :=
    (derives.readable found).1 _ (List.mem_singleton_self _)
  have prints : Prints (chars.map Placed.char) (Branch.form c).lexemes := by
    rw [printed, Form.pretty, String.toList_ofList]
    exact readable.layoutAt width 0
  obtain ⟨g, read_g, shape_g⟩ := readWhole_printed derives found prints sorted
  refine ⟨g, read_g, shape_g, ?_⟩
  rw [Form.pretty, Form.pretty, Form.layoutAt_shape shape_g]

/-- A list with a quoted list in it, both broken in six columns: the comment is gone, and the
semicolon inside of the atom stays. -/
theorem quoted_list_is_read_back : ∃ f g g',
    parenthesised.readWhole (Placed.run 3 "(ab;c \x27(d ;x\n ef))".toList) = .ok f ∧
    (Tree.ofForm f .fromOne).1.form ⟨0, 0⟩ = .ok g ∧
    g.pretty 6 = "(ab;c\n \x27(d\n   ef))" ∧
    parenthesised.readWhole (Placed.run 0 (g.pretty 6).toList) = .ok g' ∧ g'.shape = g.shape ∧
    g'.pretty 6 = g.pretty 6 := by
  have text : (parenthesised.readWhole (Placed.run 3 "(ab;c \x27(d ;x\n ef))".toList)).map (fun f =>
      ((Tree.ofForm f .fromOne).1.contains ⟨0, 0⟩,
        ((Tree.ofForm f .fromOne).1.form ⟨0, 0⟩).map (Form.pretty 6))) =
      .ok (true, .ok "(ab;c\n \x27(d\n   ef))") := by
    decide +kernel
  obtain ⟨f, read, seen⟩ := map_eq_ok.mp text
  obtain ⟨live, printed⟩ := Prod.mk.inj seen
  obtain ⟨g, form, reread⟩ := printed_nodes_are_read_back read .fromOne live
  rw [form] at printed
  have printed : g.pretty 6 = "(ab;c\n \x27(d\n   ef))" := Except.ok.inj printed
  have fits : 0 + (g.pretty 6).toList.length < positionLimit := by
    rw [printed]
    decide
  obtain ⟨g', read', shape, again⟩ := reread 6 0 _ (sorted_run fits) (map_char_run 0 _)
  exact ⟨f, g, g', read, form, printed, read', shape, again⟩

end Language

end FormEdit
