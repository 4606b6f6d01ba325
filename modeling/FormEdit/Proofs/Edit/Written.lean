import FormEdit.Edit.Reader
import FormEdit.Proofs.Checked
import FormEdit.Proofs.Text.Numerals
import Mathlib.Data.List.Forall2

/-!
# Edits and their written forms

`Edit.Written numeral` relates an edit to the texts that stand for it when numbers may be written as
`numeral` says. Every edit is read back from its text with decimal numbers, and a text is read as an
edit only if it is its text but for zeros and plus signs in front of numbers:
`written_edits_are_read_back`. The texts are cut at colons and dots, which stand in no number; only
what is behind the last cut may hold them.
-/

namespace FormEdit

open Text.Numeral (Decimal Loose)

namespace Text

variable {separator : Char} {text first rest : List Char} {cuts : Nat}

/-- Cutting at every separator is the cut that the library has for lists. -/
theorem pieces_eq_splitOn (separator : Char) (text : List Char) :
    pieces separator text = text.splitOn separator := by
  induction text with
  | nil => rfl
  | cons c text ih =>
    rw [pieces, List.splitOn_cons_eq_if_modifyHead, ih]
    by_cases cut : c = separator
    · simp [cut]
    · obtain ⟨piece, more, split⟩ := List.exists_cons_of_ne_nil (List.splitOn_ne_nil separator text)
      simp [cut, split]

theorem piecesUpTo_whole (none : separator ∉ text) :
    piecesUpTo separator (cuts + 1) text = [text] := by
  induction text with
  | nil => rfl
  | cons c text ih =>
    rw [List.mem_cons, not_or] at none
    rw [piecesUpTo, if_neg (Ne.symm none.1), ih none.2]

theorem piecesUpTo_cut (none : separator ∉ first) :
    piecesUpTo separator (cuts + 1) (first ++ separator :: rest) =
      first :: piecesUpTo separator cuts rest := by
  induction first with
  | nil => simp [piecesUpTo]
  | cons c first ih =>
    rw [List.mem_cons, not_or] at none
    rw [List.cons_append, piecesUpTo, if_neg (Ne.symm none.1), ih none.2]

/-- A text has no separator, or a first one. -/
theorem cut_cases (separator : Char) (text : String) : separator ∉ text.toList ∨
    ∃ first rest, text = first ++ String.singleton separator ++ rest ∧
    separator ∉ first.toList := by
  by_cases mem : separator ∈ text.toList
  · right
    obtain ⟨first, rest, split, none⟩ := List.eq_append_cons_of_mem mem
    refine ⟨String.ofList first, String.ofList rest, ?_, by simpa using none⟩
    rw [← String.toList_inj, split]
    simp
  · exact .inl mem

end Text

theorem mapM_eq_ok {ε α β : Type} {f : α → Except ε β} {xs : List α} {ys : List β} :
    xs.mapM f = .ok ys ↔ List.Forall₂ (fun x y => f x = .ok y) xs ys := by
  induction xs generalizing ys with
  | nil => simp [eq_comm]
  | cons x xs ih =>
    rw [List.mapM_cons, bind_eq_ok, List.forall₂_cons_left_iff]
    simp only [bind_eq_ok, ih, pure_eq_ok, Except.ok.injEq]
    constructor
    · rintro ⟨y, first, ys, rest, rfl⟩
      exact ⟨y, ys, first, rest, rfl⟩
    · rintro ⟨y, ys, first, rest, rfl⟩
      exact ⟨y, first, ys, rest, rfl⟩

theorem mem_intercalate {α : Type} {a : α} {separator : List α} {parts : List (List α)}
    (mem : a ∈ separator.intercalate parts) : a ∈ separator ∨ ∃ part ∈ parts, a ∈ part := by
  induction parts with
  | nil => simp at mem
  | cons part parts ih =>
    cases parts with
    | nil => exact .inr ⟨part, List.mem_cons_self, by simpa using mem⟩
    | cons next parts =>
      rw [List.intercalate_cons_cons, List.mem_append, List.mem_append] at mem
      rcases mem with (mem | mem) | mem
      · exact .inr ⟨part, List.mem_cons_self, mem⟩
      · exact .inl mem
      · rcases ih mem with mem | ⟨part, listed, mem⟩
        · exact .inl mem
        · exact .inr ⟨part, List.mem_cons_of_mem _ listed, mem⟩

namespace Route

/-- The numbers of the route with dots between them. -/
def Written (numeral : Nat → String → Prop) (route : Route) (text : String) : Prop :=
  ∃ parts, List.Forall₂ numeral route parts ∧ text = ".".intercalate parts

/-- The numbers are in range. -/
def Fits (route : Route) : Prop := ∀ index ∈ route, index < limit

instance : DecidablePred Fits :=
  fun route => inferInstanceAs (Decidable (∀ index ∈ route, index < limit))

variable {route : Route} {text : String} {parts : List String}

/-- With decimal numbers a route has one written form. -/
theorem written_decimal : Written Decimal route text ↔ text = route.text := by
  constructor
  · rintro ⟨parts, numbers, rfl⟩
    have same : parts = route.map toString := by
      induction numbers with
      | nil => rfl
      | cons number _ ih => rw [List.map_cons, ← ih, ← number]
    rw [Route.text, same]
  · rintro rfl
    refine ⟨route.map toString, ?_, rfl⟩
    rw [List.forall₂_map_right_iff, List.forall₂_same]
    intro index _
    rfl

theorem Written.loose (written : Written Decimal route text) : Written Loose route text := by
  obtain ⟨parts, numbers, rfl⟩ := written
  exact ⟨parts, numbers.imp fun _ _ decimal => decimal.loose, rfl⟩

theorem not_mem_part (numbers : List.Forall₂ Loose route parts) {c : Char}
    (digit : c.isDigit = false) (plus : c ≠ '+') : ∀ part ∈ parts, c ∉ part.toList := by
  induction numbers with
  | nil => simp
  | cons number _ ih =>
    rw [List.forall_mem_cons]
    exact ⟨number.not_mem digit plus, ih⟩

/-- A written route ends ahead of a colon. -/
theorem Written.not_mem (written : Written Loose route text) : ':' ∉ text.toList := by
  obtain ⟨parts, numbers, rfl⟩ := written
  intro mem
  rw [String.toList_intercalate] at mem
  rcases mem_intercalate mem with mem | ⟨cs, listed, mem⟩
  · simp at mem
  · obtain ⟨part, number, rfl⟩ := List.mem_map.mp listed
    exact not_mem_part numbers (by decide) (by decide) part number mem

theorem mapM_read : (Text.pieces '.' text.toList).mapM (Text.Numeral.read limit) = .ok route ↔
    route.Fits ∧ List.Forall₂ Loose route ((Text.pieces '.' text.toList).map String.ofList) := by
  simp only [mapM_eq_ok, Text.Numeral.read_eq_ok]
  rw [Fits, List.forall₂_map_right_iff, ← List.forall₂_and_left]
  exact ⟨List.Forall₂.flip, List.Forall₂.flip⟩

/-- The pieces of a written route are its numbers. -/
theorem pieces_intercalate (numbers : List.Forall₂ Loose route parts) (nonempty : parts ≠ []) :
    Text.pieces '.' (".".intercalate parts).toList = parts.map String.toList := by
  rw [Text.pieces_eq_splitOn, String.toList_intercalate]
  apply List.splitOn_intercalate
  · intro cs listed
    obtain ⟨part, number, rfl⟩ := List.mem_map.mp listed
    exact not_mem_part numbers (by decide) (by decide) part number
  · simpa using nonempty

theorem read_eq_ok : Route.read text = .ok route ↔ route.Fits ∧ Written Loose route text := by
  unfold Route.read
  -- Cut at dots, the empty text would be one piece without a digit.
  by_cases empty : text = ""
  · subst empty
    rw [if_pos rfl]
    constructor
    · intro ran
      cases ran
      exact ⟨by simp [Fits], [], .nil, rfl⟩
    · rintro ⟨-, parts, numbers, joined⟩
      cases numbers with
      | nil => rfl
      | @cons _ part _ _ number numbers =>
        have pieces := pieces_intercalate (.cons number numbers) (List.cons_ne_nil _ _)
        rw [← joined] at pieces
        exact absurd (List.cons.inj pieces).1.symm number.ne_empty
  · rw [if_neg empty, mapM_read]
    refine and_congr_right fun _ => ⟨?_, ?_⟩
    · intro numbers
      refine ⟨_, numbers, ?_⟩
      rw [← String.toList_inj, String.toList_intercalate, List.map_map, Text.pieces_eq_splitOn]
      simp [Function.comp_def, List.intercalate_splitOn]
    · rintro ⟨parts, numbers, rfl⟩
      have nonempty : parts ≠ [] := by
        rintro rfl
        exact empty rfl
      rw [pieces_intercalate numbers nonempty, List.map_map]
      simpa [Function.comp_def] using numbers

end Route

namespace Edit

/-- A character is written as it is, and a newline, a tab or a backslash also as a backslash
followed by `n`, `t` or a backslash. -/
inductive Spells : Char → String → Prop
  | raw (c : Char) : Spells c (String.singleton c)
  | newline : Spells '\n' "\\n"
  | tab : Spells '\t' "\\t"
  | backslash : Spells '\\' "\\\\"

/-- The texts that stand for an edit, with numbers written as `numeral` says. -/
inductive Written (numeral : Nat → String → Prop) : Edit → String → Prop
  | insert {position : Nat} {number : String} {c : Char} {char : String}
      (count : numeral position number)
      (spelled : Spells c char) :
      Written numeral (.insert position c) ("insert:" ++ number ++ ":" ++ char)
  | delete {position : Nat} {number : String} (count : numeral position number) :
      Written numeral (.delete position) ("delete:" ++ number)
  | up {route : Route} {path : String} (leads : route.Written numeral path) :
      Written numeral (.up route) ("up:" ++ path)
  | down {route : Route} {path : String} (leads : route.Written numeral path) :
      Written numeral (.down route) ("down:" ++ path)
  | duplicate {route : Route} {path : String} (leads : route.Written numeral path) :
      Written numeral (.duplicate route) ("dup:" ++ path)

/-- The numbers of the edit are in range. -/
def Fits : Edit → Prop
  | .insert position _ => position < positionLimit
  | .delete position => position < positionLimit
  | .up route => route.Fits
  | .down route => route.Fits
  | .duplicate route => route.Fits

instance : DecidablePred Fits
  | .insert position _ | .delete position => inferInstanceAs (Decidable (position < positionLimit))
  | .up route | .down route | .duplicate route => inferInstanceAs (Decidable route.Fits)

variable {e : Edit} {name argument rest text : String} {c : Char} {cs : List Char}

theorem Written.loose (written : Written Decimal e text) : Written Loose e text := by
  cases written with
  | insert count spelled => exact .insert count.loose spelled
  | delete count => exact .delete count.loose
  | up leads => exact .up leads.loose
  | down leads => exact .down leads.loose
  | duplicate leads => exact .duplicate leads.loose

/-! ## Arguments -/

theorem readPosition_eq_ok {position : Nat} :
    readPosition cs = .ok position ↔ position < positionLimit ∧
      Loose position (String.ofList cs) := by
  rw [readPosition, mapError_eq_ok, Text.Numeral.read_eq_ok]

theorem readRoute_eq_ok {route : Route} :
    readRoute cs = .ok route ↔ route.Fits ∧ route.Written Loose (String.ofList cs) := by
  rw [readRoute, mapError_eq_ok, Route.read_eq_ok]

theorem spells_of_escapes (listed : (cs, c) ∈ escapes) : Spells c (String.ofList cs) := by
  simp only [escapes, List.mem_cons, Prod.mk.injEq, List.not_mem_nil, or_false] at listed
  rcases listed with ⟨rfl, rfl⟩ | ⟨rfl, rfl⟩ | ⟨rfl, rfl⟩
  · exact .newline
  · exact .tab
  · exact .backslash

/-- Escapes have two characters. -/
theorem lookup_single (c : Char) : escapes.lookup [c] = none := by
  rw [List.lookup_eq_none_iff]
  simp [escapes]

theorem readChar_eq_ok : readChar cs = .ok c ↔ Spells c (String.ofList cs) := by
  constructor
  · intro ran
    unfold readChar at ran
    split at ran
    next found =>
      cases ran
      obtain ⟨_, _, split, -⟩ := List.lookup_eq_some_iff.mp found
      apply spells_of_escapes
      simp [split]
    next =>
      split at ran
      next => cases ran; exact .raw c
      next => cases ran
  · intro spelled
    generalize text_eq : String.ofList cs = text at spelled
    have chars : cs = text.toList := by rw [← text_eq, String.toList_ofList]
    subst chars
    cases spelled with
    | raw => rw [String.toList_singleton, readChar, lookup_single]
    | newline => rfl
    | tab => rfl
    | backslash => rfl

/-! ## Edits -/

theorem read_whole (none : ':' ∉ text.toList) : read text = .error (.noArgument text) := by
  rw [read, Text.piecesUpTo_whole none]

/-- A text with one colon in it. -/
theorem read_one (apart : ':' ∉ name.toList) (apart' : ':' ∉ argument.toList) :
    read (name ++ ":" ++ argument) =
    if name = "insert" then .error (.noCharacter (name ++ ":" ++ argument)) else
      readSimple name argument.toList := by
  have pieces : Text.piecesUpTo ':' 2 (name ++ ":" ++ argument).toList =
      [name.toList, argument.toList] := by
    have cut : (name ++ ":" ++ argument).toList = name.toList ++ ':' :: argument.toList := by simp
    rw [cut, Text.piecesUpTo_cut apart, Text.piecesUpTo_whole apart']
  rw [read, pieces]
  dsimp only
  rw [String.ofList_toList]
  split_ifs with insert
  · subst insert
    rfl
  · split <;> simp_all

/-- A text with more than one colon in it. -/
theorem read_two (apart : ':' ∉ name.toList) (apart' : ':' ∉ argument.toList) :
    read (name ++ ":" ++ (argument ++ ":" ++ rest)) =
      if name = "insert" then (do
        let position ← readPosition argument.toList
        let c ← readChar rest.toList
        pure (.insert position c))
      else (do
        let _ ← readSimple name argument.toList
        .error (.tooManyArguments (name ++ ":" ++ (argument ++ ":" ++ rest)))) := by
  have pieces : Text.piecesUpTo ':' 2 (name ++ ":" ++ (argument ++ ":" ++ rest)).toList =
      [name.toList, argument.toList, rest.toList] := by
    have cut : (name ++ ":" ++ (argument ++ ":" ++ rest)).toList =
        name.toList ++ ':' :: (argument.toList ++ ':' :: rest.toList) := by simp
    rw [cut, Text.piecesUpTo_cut apart, Text.piecesUpTo_cut apart', Text.piecesUpTo]
  rw [read, pieces]
  dsimp only
  rw [String.ofList_toList]
  split_ifs with insert
  · subst insert
    rfl
  · split <;> simp_all

variable {make : Route → Edit}

theorem route_sound (ran : (do let route ← readRoute cs; pure (make route)) = .ok e) :
    ∃ route, e = make route ∧ route.Fits ∧ route.Written Loose (String.ofList cs) := by
  obtain ⟨route, path, ran⟩ := bind_eq_ok.mp ran
  cases ran
  exact ⟨route, rfl, readRoute_eq_ok.mp path⟩

theorem readSimple_sound (ran : readSimple name cs = .ok e) :
    e.Fits ∧ Written Loose e (name ++ ":" ++ String.ofList cs) := by
  unfold readSimple at ran
  split at ran
  next =>
    obtain ⟨position, number, ran⟩ := bind_eq_ok.mp ran
    cases ran
    obtain ⟨fits, count⟩ := readPosition_eq_ok.mp number
    exact ⟨fits, .delete count⟩
  next =>
    obtain ⟨route, rfl, fits, leads⟩ := route_sound ran
    exact ⟨fits, .up leads⟩
  next =>
    obtain ⟨route, rfl, fits, leads⟩ := route_sound ran
    exact ⟨fits, .down leads⟩
  next =>
    obtain ⟨route, rfl, fits, leads⟩ := route_sound ran
    exact ⟨fits, .duplicate leads⟩
  next => cases ran

theorem insertion_text (number char : String) :
    "insert" ++ ":" ++ (number ++ ":" ++ char) = "insert:" ++ number ++ ":" ++ char := by
  rw [← String.append_assoc, ← String.append_assoc]
  rfl

/-- A text that is read as an edit has one colon, or two in case of an insertion. -/
theorem read_sound (ran : read text = .ok e) : e.Fits ∧ Written Loose e text := by
  rcases Text.cut_cases ':' text with none | ⟨name, rest, rfl, apart⟩
  · rw [read_whole none] at ran
    cases ran
  rcases Text.cut_cases ':' rest with none | ⟨argument, rest, rfl, apart'⟩
  · change read (name ++ ":" ++ rest) = .ok e at ran
    rw [read_one apart none] at ran
    split_ifs at ran
    have sound := readSimple_sound ran
    rwa [String.ofList_toList] at sound
  · change read (name ++ ":" ++ (argument ++ ":" ++ rest)) = .ok e at ran
    rw [read_two apart apart'] at ran
    split_ifs at ran with insert
    · subst insert
      obtain ⟨position, number, ran⟩ := bind_eq_ok.mp ran
      obtain ⟨c, char, ran⟩ := bind_eq_ok.mp ran
      cases ran
      obtain ⟨fits, count⟩ := readPosition_eq_ok.mp number
      have spelled := readChar_eq_ok.mp char
      rw [String.ofList_toList] at count spelled
      have written := Written.insert count spelled
      rw [← insertion_text] at written
      exact ⟨fits, written⟩
    · obtain ⟨_, -, ran⟩ := bind_eq_ok.mp ran
      cases ran

/-- An edit with a route is read from its word and the route. -/
theorem read_route {route : Route} (name : String) (fits : route.Fits)
    (leads : route.Written Loose argument) (apart : ':' ∉ name.toList) (other : name ≠ "insert")
    (simple : ∀ cs, readSimple name cs = do let route ← readRoute cs; pure (make route)) :
    read (name ++ ":" ++ argument) = .ok (make route) := by
  have path : readRoute argument.toList = .ok route :=
    readRoute_eq_ok.mpr ⟨fits, by rwa [String.ofList_toList]⟩
  rw [read_one apart leads.not_mem, if_neg other, simple, path]
  rfl

theorem read_complete (fits : e.Fits) (written : Written Loose e text) : read text = .ok e := by
  have number_apart {n : Nat} {number : String} (count : Loose n number) : ':' ∉ number.toList :=
    count.not_mem (by decide) (by decide)
  have position_read {n : Nat} {number : String} (fits : n < positionLimit)
    (count : Loose n number) :
      readPosition number.toList = .ok n :=
      readPosition_eq_ok.mpr ⟨fits, by rwa [String.ofList_toList]⟩
  cases written with
  | @insert position number c char count spelled =>
    have char_read : readChar char.toList = .ok c :=
      readChar_eq_ok.mpr (by rwa [String.ofList_toList])
    rw [← insertion_text, read_two (by decide) (number_apart count), if_pos rfl,
      position_read fits count, ok_bind, char_read]
    rfl
  | @delete position number count =>
    have one : read ("delete" ++ ":" ++ number) = readSimple "delete" number.toList := by
      rw [read_one (by decide) (number_apart count), if_neg (by decide)]
    apply one.trans
    rw [readSimple, position_read fits count]
    rfl
  | up leads => exact read_route "up" fits leads (by decide) (by decide) fun _ => rfl
  | down leads => exact read_route "down" fits leads (by decide) (by decide) fun _ => rfl
  | duplicate leads => exact read_route "dup" fits leads (by decide) (by decide) fun _ => rfl

/-- Every edit whose numbers are in range is read back from each of its written forms, and so is
every route. A text that is read as an edit is one of these forms, but for plus signs and zeros in
front of numbers. -/
theorem written_edits_are_read_back :
    (∀ e text, Fits e → Written Decimal e text → read text = .ok e) ∧
    (∀ route : Route, route.Fits → Route.read route.text = .ok route) ∧
    ∀ e text, read text = .ok e ↔ Fits e ∧ Written Loose e text := by
  refine ⟨?_, ?_, ?_⟩
  · intro e text fits written
    exact read_complete fits written.loose
  · intro route fits
    exact Route.read_eq_ok.mpr ⟨fits, (Route.written_decimal.mpr rfl).loose⟩
  · intro e text
    constructor
    · exact read_sound
    · rintro ⟨fits, written⟩
      exact read_complete fits written

/-- A colon is inserted, a route is read back, and a number may have a plus sign and a zero in
front. -/
theorem colon_at_three : Fits (.insert 3 ':') ∧ Written Decimal (.insert 3 ':') "insert:3::" ∧
    read "insert:3::" = .ok (.insert 3 ':') ∧ Route.Fits [1, 0] ∧
    Route.read (Route.text [1, 0]) = .ok [1, 0] ∧
    read "up:+01.0" = .ok (.up [1, 0]) ∧ Written Loose (.up [1, 0]) "up:+01.0" := by
  obtain ⟨each, routes, only⟩ := written_edits_are_read_back
  have fits : Fits (.insert 3 ':') := by decide
  have three : Decimal 3 "3" := rfl
  have written : Written Decimal (.insert 3 ':') "insert:3::" := .insert three (.raw ':')
  have route_fits : Route.Fits [1, 0] := by decide
  have signed : read "up:+01.0" = .ok (.up [1, 0]) := by rfl
  exact ⟨fits, written, each _ _ fits written, route_fits, routes _ route_fits, signed,
    ((only _ _).mp signed).2⟩

end Edit

end FormEdit
