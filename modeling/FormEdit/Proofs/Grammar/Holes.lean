import FormEdit.Proofs.Grammar.Comments
import FormEdit.Proofs.Grammar.Derives
import FormEdit.Proofs.Weave.Room

/-!
# Forms in their places

The tokens of a form that stands inside of others are those around it and its own. If its own tokens
are replaced by those of another form that starts in the same place, the whole is derived with that
form in the hole, and with what stands behind it further on (`Derives.hole`). For the text of a list
this means: whatever is put between its parentheses, as long as it is tame and reads as a form
there, reads in the same way as part of the whole text (`Enclosed.renew`).
-/

namespace FormEdit

open Rose Lexer

/-- A form around a hole in which room has been made. -/
def roomTags (distance : Int) (g : Frame Tag) : Frame Tag :=
  ⟨⟨g.value.kind, g.value.span.stretched distance⟩, g.before, g.after.map (Form.moved distance)⟩

theorem tags_roomFrame (distance : Int) (fs : List (Frame (Handle × Node))) :
    Tree.tags (fs.map (roomFrame distance)) = (Tree.tags fs).map (roomTags distance) := by
  simp only [Tree.tags, List.map_map]
  refine List.map_congr_left fun f _ => ?_
  simp only [Function.comp_apply, roomTags, Frame.map, roomFrame, Frame.mk.injEq, List.map_map,
    true_and]
  exact ⟨rfl, List.map_congr_left fun b _ => Branch.form_moved distance b⟩

theorem roomTags_zero (g : Frame Tag) : roomTags 0 g = g := by
  have moved (span : Span) : span.moved 0 = span := by
    ext <;> simp [Span.moved]
  have stretched (span : Span) : span.stretched 0 = span := by
    have ordered := span.start_le_stop
    ext
    · rfl
    · change max span.start (span.stop + 0 : Int).toNat = span.stop
      omega
  have still (f : Form) : Form.moved 0 f = f :=
    Rose.map_eq_self fun tag _ => by rw [moved]
  obtain ⟨⟨kind, span⟩, before, after⟩ := g
  rw [roomTags, stretched, List.map_congr_left fun f _ => still f, List.map_id']

/-- Frames that get no more room stay as they are. -/
theorem map_roomTags_zero (gs : List (Frame Tag)) : gs.map (roomTags (0 : Nat)) = gs := by
  change gs.map (roomTags 0) = gs
  rw [List.map_congr_left fun g _ => roomTags_zero g, List.map_id']

namespace Reader

variable {ts rest : List (Token Mark)} {fs gs : List Form} {f : Form}

/-- The tokens of forms are derived without what stands behind them. -/
theorem Derives.own (derives : Derives ts fs rest) :
    ∃ own, ts = own ++ rest ∧ Derives own fs [] := by
  induction derives with
  | nil => exact ⟨[], rfl, .nil⟩
  | @atom token ts rest fs is_atom more ih =>
    obtain ⟨own, rfl, own_derives⟩ := ih
    exact ⟨token :: own, rfl, .atom is_atom own_derives⟩
  | @quote token ts mid rest f fs span is_quote quoted start stop more ih_quoted ih =>
    obtain ⟨own, rfl, own_derives⟩ := ih_quoted
    obtain ⟨own', rfl, own_derives'⟩ := ih
    exact ⟨token :: (own ++ own'), by simp,
      .quote is_quote (own_derives.extend own') start stop own_derives'⟩
  | @list opening closing ts mid rest gs fs span opens items closes start stop more ih_items ih =>
    obtain ⟨own, rfl, own_derives⟩ := ih_items
    obtain ⟨own', rfl, own_derives'⟩ := ih
    exact ⟨opening :: (own ++ closing :: own'), by simp,
      .list opens (own_derives.extend (closing :: own')) closes start stop own_derives'⟩

theorem Derives.split (derives : Derives ts (fs ++ gs) rest) :
    ∃ mid, Derives ts fs mid ∧ Derives mid gs rest := by
  induction fs generalizing ts with
  | nil => exact ⟨ts, .nil, derives⟩
  | cons f fs ih =>
    cases derives with
    | atom is_atom more =>
      obtain ⟨mid, first, second⟩ := ih more
      exact ⟨mid, .atom is_atom first, second⟩
    | quote is_quote quoted start stop more =>
      obtain ⟨mid, first, second⟩ := ih more
      exact ⟨mid, .quote is_quote quoted start stop first, second⟩
    | list opens items closes start stop more =>
      obtain ⟨mid, first, second⟩ := ih more
      exact ⟨mid, .list opens items closes start stop first, second⟩

/-- Forms one behind the other stand in order if their tokens do. -/
theorem Derives.order {f g : Form} (derives : Derives ts (fs ++ f :: g :: gs) rest)
    (ordered : ts.Pairwise fun a b => a.span.stop ≤ b.span.start) : f.span.stop ≤ g.span.start := by
  obtain ⟨mid, first, second⟩ := derives.split
  obtain ⟨mid', single, third⟩ := @Derives.split _ _ [f] (g :: gs) second
  obtain ⟨own₁, rfl, -⟩ := first.own
  obtain ⟨own₂, rfl, -, last⟩ := single.ends
  obtain ⟨own₃, rfl, head, -⟩ := third.ends
  obtain ⟨t, final, stop⟩ := last f rfl
  obtain ⟨t', initial, start⟩ := head g rfl
  have later := (List.pairwise_append.mp (List.pairwise_append.mp ordered).2.1).2.2 t
    (List.mem_of_getLast? final) t' (List.mem_append_left _ (List.mem_of_head? initial))
  omega

/-- Every form begins where some token does and ends where some token does. -/
theorem Derives.edges (derives : Derives ts fs rest) :
    ∀ f ∈ fs, ∀ tag ∈ f.preorder, (∃ t ∈ ts, t.span.start = tag.span.start) ∧
      ∃ t ∈ ts, t.span.stop = tag.span.stop := by
  have widen {ts ts' : List (Token Mark)} {tag : Tag} (sub : ts ⊆ ts')
      (edges : (∃ t ∈ ts, t.span.start = tag.span.start) ∧ ∃ t ∈ ts, t.span.stop = tag.span.stop) :
      (∃ t ∈ ts', t.span.start = tag.span.start) ∧ ∃ t ∈ ts', t.span.stop = tag.span.stop := by
    obtain ⟨⟨t, mem, start⟩, t', mem', stop⟩ := edges
    exact ⟨⟨t, sub mem, start⟩, t', sub mem', stop⟩
  induction derives with
  | nil => simp
  | @atom token ts rest fs is_atom more ih =>
    intro f mem tag inner
    rcases List.mem_cons.mp mem with rfl | mem
    · have root : tag = ⟨.atom token.content, token.span⟩ := by simpa [Rose.leaf] using inner
      subst root
      exact ⟨⟨token, by simp, rfl⟩, token, by simp, rfl⟩
    · exact widen (List.subset_cons_self _ _) (ih f mem tag inner)
  | @quote token ts mid rest f fs span is_quote quoted start stop more ih_quoted ih =>
    obtain ⟨own, rfl, -⟩ := quoted.own
    have of_quoted {tag : Tag} (inner : tag ∈ f.preorder) := ih_quoted f (by simp) tag inner
    intro g mem tag inner
    rcases List.mem_cons.mp mem with rfl | mem
    · rw [preorder_node, List.mem_cons, List.flatMap_singleton] at inner
      rcases inner with rfl | inner
      · obtain ⟨-, t, mem_t, stop_t⟩ := of_quoted f.value_mem_preorder
        exact ⟨⟨token, by simp, start.symm⟩, t, List.mem_cons_of_mem _ mem_t,
          stop_t.trans stop.symm⟩
      · exact widen (List.subset_cons_self _ _) (of_quoted inner)
    · have sub : mid ⊆ token :: (own ++ mid) :=
        List.subset_cons_of_subset _ (List.subset_append_right own mid)
      exact widen sub (ih g mem tag inner)
  | @list opening closing ts mid rest gs fs span opens items closes start stop more ih_items ih =>
    obtain ⟨own, rfl, -⟩ := items.own
    intro g mem tag inner
    rcases List.mem_cons.mp mem with rfl | mem
    · rw [preorder_node, List.mem_cons] at inner
      rcases inner with rfl | inner
      · exact ⟨⟨opening, by simp, start.symm⟩, closing, by simp, stop.symm⟩
      · obtain ⟨c, mem_c, inner⟩ := List.mem_flatMap.mp inner
        exact widen (List.subset_cons_self _ _) (ih_items c mem_c tag inner)
    · have sub : mid ⊆ opening :: (own ++ closing :: mid) :=
        List.subset_cons_of_subset _
          (List.subset_append_of_subset_right own (List.subset_cons_self _ _))
      exact widen sub (ih g mem tag inner)

/-- The same tokens further on are those of the same forms further on. -/
theorem Derives.moved (distance : Int) (derives : Derives ts fs rest) :
    Derives (ts.map (Token.moved distance)) (fs.map (Form.moved distance))
      (rest.map (Token.moved distance)) := by
  induction derives with
  | nil => exact .nil
  | atom is_atom more ih => exact .atom is_atom ih
  | @quote token ts mid rest f fs span is_quote quoted start stop more ih_quoted ih =>
    have node : Form.moved distance (.node ⟨.quote, span⟩ [f]) =
        .node ⟨.quote, span.moved distance⟩ [Form.moved distance f] := by
      simp [Form.moved]
    rw [List.map_cons, List.map_cons, node]
    refine .quote is_quote ih_quoted ?_ ?_ ih
    · simp only [Span.moved, Token.moved, start]
    · rw [Form.span_moved]
      simp only [Span.moved, stop]
  | @list opening closing ts mid rest gs fs span opens items closes start stop more ih_items ih =>
    have node : Form.moved distance (.node ⟨.list, span⟩ gs) =
        .node ⟨.list, span.moved distance⟩ (gs.map (Form.moved distance)) := by
      simp [Form.moved]
    rw [List.map_cons, List.map_cons, node]
    refine .list opens ih_items closes ?_ ?_ ih
    · simp only [Span.moved, Token.moved, start]
    · simp only [Span.moved, Token.moved, stop]

/-- A form is read in the place of another that starts where it does, and ends `count` characters
further on. -/
structure Renews (f f' : Form) (count : Nat) (own' : List (Token Mark)) : Prop where
  derives : Derives own' [f'] []
  start : f'.span.start = f.span.start
  stop : f'.span.stop = f.span.stop + count

theorem stretched_stop (span : Span) (count : Nat) :
    (span.stretched count).start = span.start ∧
      (span.stretched count).stop = span.stop + count := by
  have ordered := span.start_le_stop
  refine ⟨rfl, ?_⟩
  change max span.start (span.stop + count : Int).toNat = span.stop + count
  omega

/-- One form around a hole. -/
theorem Derives.frame {g : Frame Tag} (derives : Derives ts [g.fill f] []) :
    ∃ ahead own behind, ts = ahead ++ own ++ behind ∧ Derives own [f] [] ∧
      ∀ own' f' count, Renews f f' count own' → Renews (g.fill f) ((roomTags count g).fill f') count
        (ahead ++ own' ++ behind.map (Token.moved count)) := by
  obtain ⟨⟨kind, span⟩, before, after⟩ := g
  simp only [Frame.fill] at derives
  generalize children_eq : before ++ f :: after = children at derives
  cases derives with
  | atom is_atom more => simp at children_eq
  | @quote token ts mid _ g _ span is_quote quoted start stop more =>
    cases more
    obtain ⟨rfl, single⟩ : before = [] ∧ f :: after = [g] := by
      cases before with
      | nil => exact ⟨rfl, children_eq⟩
      | cons b before =>
        have := congrArg List.length children_eq
        simp at this
    cases single
    refine ⟨[token], ts, [], by simp, quoted, ?_⟩
    intro own' f' count renews
    have edges := stretched_stop span count
    refine ⟨?_, edges.1, edges.2⟩
    rw [List.map_nil, List.append_nil]
    refine .quote is_quote renews.derives (edges.1.trans start) ?_ .nil
    rw [edges.2, renews.stop, stop]
  | @list opening closing ts mid _ _ _ span opens items closes start stop more =>
    cases more
    subst children_eq
    obtain ⟨mid, first, second⟩ := items.split
    obtain ⟨mid', hole, third⟩ := @Derives.split _ _ [f] after second
    obtain ⟨own₁, rfl, derives₁⟩ := first.own
    obtain ⟨own, rfl, derives_own⟩ := hole.own
    obtain ⟨own₃, rfl, derives₃⟩ := third.own
    refine ⟨opening :: own₁, own, own₃ ++ [closing], by simp, derives_own, ?_⟩
    intro own' f' count renews
    have edges := stretched_stop span count
    refine ⟨?_, edges.1, edges.2⟩
    have items' :
        Derives (own₁ ++ (own' ++ (own₃.map (Token.moved count) ++ [closing.moved count])))
        (before ++ ([f'] ++ after.map (Form.moved count))) [closing.moved count] := by
      refine (derives₁.extend _).append ((renews.derives.extend _).append ?_)
      exact (derives₃.moved count).extend [closing.moved count]
    have ends : (span.stretched count).stop = (closing.moved count).span.stop := by
      rw [edges.2, stop]
      simp only [Token.moved, Span.moved]
      omega
    have whole := Derives.list opens items' closes (edges.1.trans start) ends .nil
    simpa [roomTags, Frame.fill] using whole

/-- What a form stands inside of stays around it when another takes its place. -/
theorem Derives.hole {frames : List (Frame Tag)} (derives : Derives ts [plug frames f] []) :
    ∃ ahead own behind, ts = ahead ++ own ++ behind ∧ Derives own [f] [] ∧
      ∀ own' f' count, Renews f f' count own' →
        Derives (ahead ++ own' ++ behind.map (Token.moved count))
          [plug (frames.map (roomTags count)) f'] [] := by
  induction frames generalizing f with
  | nil =>
    exact ⟨[], ts, [], by simp, derives, fun own' f' count renews => by simpa using renews.derives⟩
  | cons g frames ih =>
    obtain ⟨ahead, own, behind, rfl, own_derives, outer⟩ := ih derives
    obtain ⟨ahead', own', behind', rfl, own_derives', inner⟩ := own_derives.frame
    refine ⟨ahead ++ ahead', own', behind' ++ behind, by simp, own_derives', ?_⟩
    intro new f' count renews
    have whole := outer _ _ count (inner new f' count renews)
    simpa using whole

end Reader

namespace Language

open Reader

variable {position : Nat} {chars : List Char} {frames : List (Frame Tag)} {span : Span}
  {cs : List Form} {g : Form}

/-- Nothing in a form stands outside of the text that it was read from. -/
theorem Parses.inside (parses : Parses position chars g) {tag : Tag} (mem : tag ∈ g.preorder) :
    position ≤ tag.span.start ∧ tag.span.stop ≤ position + chars.length := by
  obtain ⟨tokens, tokens_eq, derives⟩ := parses
  obtain ⟨⟨first, mem_first, start⟩, last, mem_last, stop⟩ := derives.edges g (by simp) tag mem
  obtain ⟨⟨count, first_start, -⟩, -⟩ := cut_of_tokens tokens_eq mem_first
  obtain ⟨-, count', last_stop, cut⟩ := cut_of_tokens tokens_eq mem_last
  have bound := cut.le
  omega

/-- The text of a list. -/
def parens (inside : List Char) : List Char := '(' :: (inside ++ [')'])

@[simp] theorem length_parens (inside : List Char) :
    (parens inside).length = inside.length + 2 := by
  simp [parens]

theorem opening_mark : markOf '(' = some .opening := rfl

theorem closing_mark : markOf ')' = some .closing := rfl

/-- The tokens of a list with `length` characters between its parentheses. -/
def listTokens (position length : Nat) (items : List (Token Mark)) : List (Token Mark) :=
  ⟨.opening, "(", Span.sized position 1⟩ ::
    (items ++ [⟨.closing, ")", Span.sized (position + 1 + length) 1⟩])

theorem derives_listTokens (position length : Nat) {items : List (Token Mark)}
    (derives : Derives items cs []) : Derives (listTokens position length items)
      [.node ⟨.list, Span.sized position (length + 2)⟩ cs] [] := by
  refine .list rfl (derives.extend _) rfl rfl ?_ .nil
  simp only [Span.sized]
  omega

theorem tokensAt_parens {inside : List Char} {items : List (Token Mark)} (tame : Tame inside)
    (items_eq : tokensAt (position + 1) inside = some items) :
    tokensAt position (parens inside) = some (listTokens position inside.length items) := by
  have nothing : tokensAt (position + 1 + inside.length + 1) [] = some [] := rfl
  rw [parens, tokensAt_mark opening_mark, tokensAt_around items_eq tame closing_mark nothing]
  rfl

/-- Forms between parentheses read as a list. -/
theorem parses_parens {inside : List Char} {items : List (Token Mark)} (tame : Tame inside)
    (items_eq : tokensAt (position + 1) inside = some items) (derives : Derives items cs []) :
    Parses position (parens inside)
      (.node ⟨.list, Span.sized position (inside.length + 2)⟩ cs) :=
  ⟨_, tokensAt_parens tame items_eq, derives_listTokens position inside.length derives⟩

/-- What reads as a form between parentheses, outside of comments, is a list that they belong to. -/
theorem Parses.of_parens {inside : List Char} (parses : Parses position (parens inside) g)
    (tame : Tame inside) : ∃ items cs, tokensAt (position + 1) inside = some items ∧
      Derives items cs [] ∧ g = .node ⟨.list, Span.sized position (inside.length + 2)⟩ cs := by
  obtain ⟨tokens, tokens_eq, derives⟩ := parses
  obtain ⟨items, items_eq⟩ : ∃ items, tokensAt (position + 1) inside = some items := by
    rw [parens, tokensAt_mark opening_mark] at tokens_eq
    obtain ⟨later, later_eq, -⟩ := Option.map_eq_some_iff.mp tokens_eq
    obtain ⟨⟨complete, last⟩, fed, -⟩ := Option.map_eq_some_iff.mp later_eq
    obtain ⟨first, next, -, fed_inside, -⟩ := feed_append.mp fed
    exact ⟨first ++ next.done, by rw [tokensAt, tokensFrom, fed_inside, Option.map_some]⟩
  have known := tokensAt_parens tame items_eq
  rw [tokens_eq, Option.some.injEq] at known
  subst known
  cases derives with
  | atom is_atom more => cases is_atom
  | quote is_quote quoted start stop more => cases is_quote
  | @list _ closing _ mid _ cs _ span opens derives_items closes start stop more =>
    cases more
    obtain ⟨own, same, own_derives⟩ := derives_items.own
    -- Nothing stands behind the list, so it is closed by the last token.
    obtain ⟨rfl, closing_eq⟩ := List.append_inj' same rfl
    cases closing_eq
    refine ⟨items, cs, items_eq, own_derives, ?_⟩
    have span_eq : span = Span.sized position (inside.length + 2) := by
      ext
      · exact start
      · rw [stop]
        simp only [Span.sized]
        omega
    rw [span_eq]

/-- The text of a list that stands inside of other forms, with the text around it. -/
structure Enclosed (position : Nat) (chars : List Char) (frames : List (Frame Tag)) (span : Span)
    (cs : List Form) (ahead inside behind : List Char) : Prop where
  text : chars = ahead ++ (parens inside ++ behind)
  span_eq : span = Span.sized (position + ahead.length) (inside.length + 2)
  tame : Tame inside
  items : ∃ items, tokensAt (position + ahead.length + 1) inside = some items ∧ Derives items cs []
  /-- Other forms between the parentheses are read in the same place. -/
  renew : ∀ inside' items' cs' count, inside'.length = inside.length + count → Tame inside' →
    tokensAt (position + ahead.length + 1) inside' = some items' → Derives items' cs' [] →
    Parses position (ahead ++ (parens inside' ++ behind)) (plug (frames.map (roomTags count))
      (.node ⟨.list, Span.sized (position + ahead.length) (inside'.length + 2)⟩ cs'))

/-- The edges of the children of a list. -/
theorem Enclosed.edges {ahead inside behind : List Char}
    (enclosed : Enclosed position chars frames span cs ahead inside behind) {c : Form}
    (mem : c ∈ cs) :
    (∃ count, c.span.start = position + ahead.length + 1 + count ∧ Cut .free inside count) ∧
      ∃ count, c.span.stop = position + ahead.length + 1 + count ∧ Cut .free inside count := by
  obtain ⟨items, items_eq, derives⟩ := enclosed.items
  obtain ⟨⟨first, mem_first, start⟩, last, mem_last, stop⟩ :=
    derives.edges c mem c.value c.value_mem_preorder
  have first_cut := (cut_of_tokens items_eq mem_first).1
  have last_cut := (cut_of_tokens items_eq mem_last).2
  rw [start] at first_cut
  rw [stop] at last_cut
  exact ⟨first_cut, last_cut⟩

theorem Parses.enclosed (parses : Parses position chars (plug frames (.node ⟨.list, span⟩ cs))) :
    ∃ ahead inside behind, Enclosed position chars frames span cs ahead inside behind := by
  obtain ⟨tokens, tokens_eq, derives⟩ := parses
  obtain ⟨before, own, after, rfl, own_derives, renew⟩ := derives.hole
  cases own_derives with
  | @list opening closing ts mid _ _ _ _ opens derives_items closes start stop more =>
    cases more
    obtain ⟨items, rfl, item_derives⟩ := derives_items.own
    have idle {position : Nat} : Run.idle.Ready position := trivial
    rw [List.append_assoc, List.cons_append, List.append_assoc] at tokens_eq
    obtain ⟨ahead, c, rest, rfl, mark, opening_eq, outside, ahead_eq, rest_eq⟩ :=
      parts_of_tokens idle tokens_eq (by simp [opens])
    obtain ⟨inside, c', behind, rfl, mark', closing_eq, tame, items_eq, behind_eq⟩ :=
      parts_of_tokens idle rest_eq (by simp [closes])
    obtain rfl : c = '(' := by
      rcases markOf_eq_some mark with ⟨rfl, -⟩ | ⟨-, wrong⟩ | ⟨-, wrong⟩
      · rfl
      · rw [opens] at wrong
        cases wrong
      · rw [opens] at wrong
        cases wrong
    obtain rfl : c' = ')' := by
      rcases markOf_eq_some mark' with ⟨-, wrong⟩ | ⟨rfl, -⟩ | ⟨-, wrong⟩
      · rw [closes] at wrong
        cases wrong
      · rfl
      · rw [closes] at wrong
        cases wrong
    have span_eq : span = Span.sized (position + ahead.length) (inside.length + 2) := by
      ext
      · rw [start, opening_eq]
        rfl
      · rw [stop, closing_eq]
        simp only [Span.sized]
        omega
    refine ⟨ahead, inside, behind, by simp [parens], span_eq, tame, ⟨items, items_eq, item_derives⟩,
      ?_⟩
    intro inside' items' cs' count length tame' items_eq' derives'
    have behind_eq' : tokensAt (position + ahead.length + 1 + inside'.length + 1) behind =
        some (after.map (Token.moved count)) := by
      have moved := tokensAt_moved count behind_eq
      have place : position + ahead.length + 1 + inside.length + 1 + count =
          position + ahead.length + 1 + inside'.length + 1 := by omega
      rwa [place] at moved
    have whole := tokensAt_around ahead_eq outside opening_mark
      (tokensAt_around items_eq' tame' closing_mark behind_eq')
    have own' := derives_listTokens (position + ahead.length) inside'.length derives'
    have renewed := renew _ _ count ⟨own', by simp [span_eq, Form.span, Span.sized], by
      simp only [span_eq, Form.span, Span.sized, Rose.value_node]
      omega⟩
    refine ⟨_, ?_, renewed⟩
    simpa [parens, listTokens] using whole

/-- Among the forms with children, only a list can take another one. -/
theorem Parses.parent_cases {kind : Kind}
    (parses : Parses position chars (plug frames (.node ⟨kind, span⟩ cs))) (parent : cs ≠ []) :
    kind = .list ∨ ∃ c ahead behind, cs = [c] ∧ kind = .quote ∧
      chars = ahead ++ '\x27' :: behind ∧ span.start = position + ahead.length ∧
      span.stop = c.span.stop ∧ position + ahead.length + 1 ≤ c.span.stop := by
  obtain ⟨tokens, tokens_eq, derives⟩ := parses
  obtain ⟨before, own, after, rfl, own_derives, -⟩ := derives.hole
  cases own_derives with
  | atom is_atom more => exact absurd rfl parent
  | list opens items closes start stop more => exact .inl rfl
  | @quote token ts mid _ c _ _ is_quote quoted start stop more =>
    have idle : Run.idle.Ready position := trivial
    rw [List.append_assoc] at tokens_eq
    obtain ⟨ahead, mark, behind, rfl, is_mark, token_eq, -, -, behind_eq⟩ :=
      parts_of_tokens idle tokens_eq (by simp [is_quote])
    refine .inr ⟨c, ahead, behind, rfl, rfl, ?_, ?_, stop, ?_⟩
    · rcases markOf_eq_some is_mark with ⟨-, wrong⟩ | ⟨-, wrong⟩ | ⟨rfl, -⟩
      · rw [is_quote] at wrong
        cases wrong
      · rw [is_quote] at wrong
        cases wrong
      · rfl
    · rw [start, token_eq]
      rfl
    · obtain ⟨-, last, mem, stop_last⟩ := quoted.edges c (by simp) c.value c.value_mem_preorder
      obtain ⟨-, count, stop_count, -⟩ := cut_of_tokens behind_eq (List.mem_append_left _ mem)
      rw [stop_last] at stop_count
      exact stop_count ▸ Nat.le_add_right _ _

/-- What begins with a quote reads as a quote. -/
theorem Parses.of_quote (parses : Parses position ('\x27' :: chars) g) : g.children.length = 1 := by
  obtain ⟨tokens, tokens_eq, derives⟩ := parses
  have mark : markOf '\x27' = some .quote := rfl
  rw [tokensAt_mark mark] at tokens_eq
  obtain ⟨later, -, rfl⟩ := Option.map_eq_some_iff.mp tokens_eq
  cases derives with
  | atom is_atom more => cases is_atom
  | quote is_quote quoted start stop more => rfl
  | list opens items closes start stop more => cases opens

end Language

end FormEdit
