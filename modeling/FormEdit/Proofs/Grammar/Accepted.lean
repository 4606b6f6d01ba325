import FormEdit.Proofs.Grammar.Derives

/-!
# What the reader accepts

`form := ATOM | QUOTE form | OPEN form* CLOSE` is a grammar on tokens (`IsForm`). The nodes of a
form in preorder make a table, in which every node has its kind, its span and the rows of its
children (`Listed`). If tokens stand in order, the reader finds a form at their front just if there
is one, and the table of what it returns is the one of that form; otherwise it rejects them, and no
fault is met.
-/

namespace FormEdit

/-! ## Trees as tables -/

namespace Rose

variable {α : Type} {first : Nat}

/-- The rows of a tree, to be numbered from any row on. -/
def block (t : Rose α) : Block α := t.fold Block.over

/-- The rows of trees one after the other, with others behind them. -/
def rowsFrom (first : Nat) (ts : List (Rose α)) (rest : List (α × List Nat)) :
    List (α × List Nat) :=
  ((ts.map block).zip (blockStarts first ((ts.map block).map Block.size))).foldr
    (fun entry rest => entry.1.rows entry.2 rest) rest

/-- The rows of the trees themselves. -/
def rootsFrom (first : Nat) (ts : List (Rose α)) : List Nat :=
  blockStarts first ((ts.map block).map Block.size)

theorem rows_node (a : α) (cs : List (Rose α)) (rest : List (α × List Nat)) :
    (block (.node a cs)).rows first rest =
      (a, rootsFrom (first + 1) cs) :: rowsFrom (first + 1) cs rest := by
  rw [block, fold_node]
  rfl

theorem size_node (a : α) (cs : List (Rose α)) :
    (block (.node a cs)).size = ((cs.map block).map Block.size).foldr (· + ·) 0 + 1 := by
  rw [block, fold_node]
  rfl

theorem rowsFrom_cons (t : Rose α) (ts : List (Rose α)) (rest : List (α × List Nat)) :
    rowsFrom first (t :: ts) rest = t.block.rows first (rowsFrom (first + t.block.size) ts rest) :=
    rfl

theorem rootsFrom_cons (t : Rose α) (ts : List (Rose α)) :
    rootsFrom first (t :: ts) = first :: rootsFrom (first + t.block.size) ts := rfl

/-- What stands behind the rows of a tree stays behind them, and there are as many as the tree has
nodes. -/
theorem rows_eq (t : Rose α) : ∀ first, (t.block.rows first []).length = t.block.size ∧
    ∀ rest, t.block.rows first rest = t.block.rows first [] ++ rest := by
  induction t using Rose.induction with
  | node a cs ih =>
    have each (ts : List (Rose α)) (sub : ∀ t ∈ ts, t ∈ cs) (first : Nat) :
        (rowsFrom first ts []).length = ((ts.map block).map Block.size).foldr (· + ·) 0 ∧
          ∀ rest, rowsFrom first ts rest = rowsFrom first ts [] ++ rest := by
      induction ts generalizing first with
      | nil => exact ⟨rfl, fun _ => rfl⟩
      | cons t ts ih_ts =>
        obtain ⟨length, behind⟩ := ih t (sub t (by simp)) first
        obtain ⟨lengths, behinds⟩ :=
          ih_ts (fun t mem => sub t (by simp [mem])) (first + t.block.size)
        refine ⟨?_, fun rest => ?_⟩
        · rw [rowsFrom_cons, behind, List.length_append, length, lengths]
          simp
        · rw [rowsFrom_cons, rowsFrom_cons, behind, behinds rest, behind (rowsFrom _ ts []),
            List.append_assoc]
    intro first
    obtain ⟨length, behind⟩ := each cs (fun _ mem => mem) (first + 1)
    refine ⟨?_, fun rest => ?_⟩
    · rw [rows_node, size_node, List.length_cons, length]
    · rw [rows_node, rows_node, behind rest, List.cons_append]

end Rose

namespace Reader

variable {first : Nat} {ts us own own' rest rest' : List (Token Mark)} {f : Form} {fs : List Form}

/-! ## The grammar -/

mutual

/-- The tokens of one form: an atom, a quote and the form behind it, or forms in parentheses. -/
inductive IsForm : List (Token Mark) → Prop
  | atom {token : Token Mark} (is_atom : token.kind = .atom) : IsForm [token]
  | quote {token : Token Mark} {ts : List (Token Mark)} (is_quote : token.kind = .quote)
      (quoted : IsForm ts) : IsForm (token :: ts)
  | list {opening closing : Token Mark} {ts : List (Token Mark)} (opens : opening.kind = .opening)
      (items : AreForms ts) (closes : closing.kind = .closing) :
      IsForm (opening :: (ts ++ [closing]))

/-- The tokens of any number of forms. -/
inductive AreForms : List (Token Mark) → Prop
  | nil : AreForms []
  | cons {ts us : List (Token Mark)} (form : IsForm ts) (more : AreForms us) : AreForms (ts ++ us)

end

mutual

/-- The nodes of a form in preorder, in rows numbered from `first` on: each with its kind, its span
and the rows of its children. A list ends with its last token, and so does a quote. -/
inductive Listed : Nat → List (Token Mark) → List (Tag × List Nat) → Prop
  | atom {first : Nat} {token : Token Mark} (is_atom : token.kind = .atom) :
      Listed first [token] [(⟨.atom token.content, token.span⟩, [])]
  | quote {first : Nat} {token last : Token Mark} {ts : List (Token Mark)}
      {rows : List (Tag × List Nat)}
      {span : Span} (is_quote : token.kind = .quote) (quoted : Listed (first + 1) ts rows)
      (ends : ts.getLast? = some last) (start : span.start = token.span.start)
      (stop : span.stop = last.span.stop) :
      Listed first (token :: ts) ((⟨.quote, span⟩, [first + 1]) :: rows)
  | list {first : Nat} {opening closing : Token Mark} {ts : List (Token Mark)} {children : List Nat}
      {rows : List (Tag × List Nat)} {span : Span} (opens : opening.kind = .opening)
      (items : ListedEach (first + 1) ts children rows) (closes : closing.kind = .closing)
      (start : span.start = opening.span.start) (stop : span.stop = closing.span.stop) :
      Listed first (opening :: (ts ++ [closing])) ((⟨.list, span⟩, children) :: rows)

/-- The same for any number of forms, with the rows that these start at. -/
inductive ListedEach : Nat → List (Token Mark) → List Nat → List (Tag × List Nat) → Prop
  | nil {first : Nat} : ListedEach first [] [] []
  | cons {first : Nat} {ts us : List (Token Mark)} {roots : List Nat}
      {rows rows' : List (Tag × List Nat)}
      (form : Listed first ts rows) (more : ListedEach (first + rows.length) us roots rows') :
      ListedEach first (ts ++ us) (first :: roots) (rows ++ rows')

end

theorem ListedEach.single {root : Nat} {rows : List (Tag × List Nat)}
    (listed : ListedEach first own [root] rows) : Listed first own rows := by
  cases listed with
  | cons form more =>
    cases more
    rwa [List.append_nil, List.append_nil]

mutual

theorem Listed.isForm {first : Nat} {own : List (Token Mark)} {rows : List (Tag × List Nat)}
    (listed : Listed first own rows) : IsForm own :=
  match listed with
  | .atom is_atom => .atom is_atom
  | .quote is_quote quoted _ _ _ => .quote is_quote quoted.isForm
  | .list opens items closes _ _ => .list opens items.areForms closes

theorem ListedEach.areForms {first : Nat} {own : List (Token Mark)} {roots : List Nat}
    {rows : List (Tag × List Nat)} (listed : ListedEach first own roots rows) : AreForms own :=
  match listed with
  | .nil => .nil
  | .cons form more => .cons form.isForm more.areForms

end

/-! ## Derived forms and the grammar -/

open Rose

theorem ListedEach.cons_form {rows : List (Tag × List Nat)} {mid : List (Token Mark)}
    (form : Listed first own rows) (rows_eq : rows = f.block.rows first [])
    (more : ListedEach (first + f.block.size) mid (rootsFrom (first + f.block.size) fs)
      (rowsFrom (first + f.block.size) fs [])) :
    ListedEach first (own ++ mid) (rootsFrom first (f :: fs)) (rowsFrom first (f :: fs) []) := by
  obtain ⟨length, behind⟩ := Rose.rows_eq f first
  rw [rootsFrom_cons, rowsFrom_cons, behind, ← rows_eq]
  refine .cons form ?_
  rw [rows_eq, length]
  exact more

/-- The tokens that forms are derived from list the nodes of these in their tables. -/
theorem Derives.listed (derives : Derives ts fs rest) : ∀ first, ∃ own, ts = own ++ rest ∧
    ListedEach first own (rootsFrom first fs) (rowsFrom first fs []) := by
  induction derives with
  | nil => exact fun first => ⟨[], rfl, .nil⟩
  | @atom token ts rest fs is_atom more ih =>
    intro first
    obtain ⟨own, rfl, listed⟩ := ih (first + 1)
    refine ⟨[token] ++ own, rfl, ListedEach.cons_form (.atom is_atom) ?_ listed⟩
    rw [Rose.leaf, rows_node]
    rfl
  | @quote token ts mid rest f fs span is_quote quoted start stop more ih_quoted ih =>
    intro first
    obtain ⟨inner, rfl, listed⟩ := ih_quoted (first + 1)
    obtain ⟨own, rfl, listed'⟩ := ih (first + (block (.node ⟨.quote, span⟩ [f])).size)
    obtain ⟨own', same, -, last⟩ := quoted.ends
    obtain rfl := List.append_cancel_right same
    obtain ⟨final, final_eq, final_stop⟩ := last f rfl
    refine ⟨(token :: inner) ++ own, by simp, ListedEach.cons_form
      (.quote is_quote listed.single final_eq start (stop.trans final_stop.symm)) ?_ listed'⟩
    rw [rows_node]
    rfl
  | @list opening closing ts mid rest gs fs span opens items closes start stop more ih_items ih =>
    intro first
    obtain ⟨inner, rfl, listed⟩ := ih_items (first + 1)
    obtain ⟨own, rfl, listed'⟩ := ih (first + (block (.node ⟨.list, span⟩ gs)).size)
    refine ⟨(opening :: (inner ++ [closing])) ++ own, by simp, ListedEach.cons_form
      (.list opens listed closes start stop) ?_ listed'⟩
    rw [rows_node]

/-- Tokens stand in order, starts and ends alike. -/
structure InOrder (ts : List (Token Mark)) : Prop where
  starts : ts.Pairwise fun a b => a.span.start ≤ b.span.start
  stops : ts.Pairwise fun a b => a.span.stop ≤ b.span.stop

theorem InOrder.across (ordered : InOrder ts) : ts.Pairwise fun a b => a.span.start ≤ b.span.stop :=
  ordered.starts.imp fun {_ b} starts => Nat.le_trans starts b.span.start_le_stop

theorem inOrder_of_ordered {position : Nat} (ordered : Lexer.Ordered position ts) : InOrder ts where
  starts := ordered.order.imp fun {a _} behind => Nat.le_trans a.span.start_le_stop behind
  stops := ordered.order.imp fun {_ b} behind => Nat.le_trans behind b.span.start_le_stop

mutual

/-- A form is derived from its tokens if no span between two of them is reversed. -/
theorem IsForm.derives {own : List (Token Mark)} (form : IsForm own) :
    own.Pairwise (fun a b => a.span.start ≤ b.span.stop) → ∃ f, Derives own [f] [] :=
  match form with
  | .atom is_atom => fun _ => ⟨_, .atom is_atom .nil⟩
  | @IsForm.quote token _ is_quote quoted => fun across => by
    obtain ⟨later, across⟩ := List.pairwise_cons.mp across
    obtain ⟨f, derives⟩ := quoted.derives across
    obtain ⟨own, same, -, last⟩ := derives.ends
    obtain ⟨final, final_eq, stop⟩ := last f rfl
    have order : token.span.start ≤ f.span.stop := by
      rw [← stop]
      refine later final ?_
      rw [same, List.append_nil]
      exact List.mem_of_getLast? final_eq
    exact ⟨.node ⟨.quote, ⟨token.span.start, f.span.stop, order⟩⟩ [f],
      .quote is_quote derives rfl rfl .nil⟩
  | @IsForm.list opening closing _ opens items closes => fun across => by
    obtain ⟨later, across⟩ := List.pairwise_cons.mp across
    obtain ⟨gs, derives⟩ := items.derives (List.pairwise_append.mp across).1
    have order := later closing (by simp)
    exact ⟨.node ⟨.list, ⟨opening.span.start, closing.span.stop, order⟩⟩ gs,
      .list opens (derives.extend [closing]) closes rfl rfl .nil⟩

theorem AreForms.derives {own : List (Token Mark)} (forms : AreForms own) :
    own.Pairwise (fun a b => a.span.start ≤ b.span.stop) → ∃ fs, Derives own fs [] :=
  match forms with
  | .nil => fun _ => ⟨[], .nil⟩
  | @AreForms.cons _ us form more => fun across => by
    obtain ⟨first, second, -⟩ := List.pairwise_append.mp across
    obtain ⟨f, derives⟩ := form.derives first
    obtain ⟨fs, derives'⟩ := more.derives second
    exact ⟨[f] ++ fs, (derives.extend us).append derives'⟩

end

/-! ## Exactly the grammar is accepted -/

theorem Derives.isForm (derives : Derives ts [f] rest) :
    ∃ own, ts = own ++ rest ∧ Listed 0 own f.table := by
  obtain ⟨own, split_eq, listed⟩ := derives.listed 0
  exact ⟨own, split_eq, listed.single⟩

theorem readForm_of_isForm (form : IsForm own) (ordered : InOrder (own ++ rest)) :
    ∃ f, readForm (own ++ rest) = .ok (f, rest) := by
  obtain ⟨f, derives⟩ := form.derives (List.pairwise_append.mp ordered.across).1
  exact ⟨f, readForm_of_derives (derives.extend rest)⟩

theorem readForm_ok_iff (ordered : InOrder ts) :
    (∃ f, readForm ts = .ok (f, rest)) ↔ ∃ own, ts = own ++ rest ∧ IsForm own := by
  constructor
  · rintro ⟨f, ran⟩
    obtain ⟨own, split_eq, listed⟩ := (derives_of_readForm ran).isForm
    exact ⟨own, split_eq, listed.isForm⟩
  · rintro ⟨own, rfl, form⟩
    exact readForm_of_isForm form ordered

/-- No form is the beginning of another one. -/
theorem isForm_unique (ordered : InOrder ts) (split_eq : ts = own ++ rest)
    (split_eq' : ts = own' ++ rest') (form : IsForm own) (form' : IsForm own') :
    own = own' ∧ rest = rest' := by
  obtain ⟨f, ran⟩ := readForm_of_isForm form (split_eq ▸ ordered)
  obtain ⟨f', ran'⟩ := readForm_of_isForm form' (split_eq' ▸ ordered)
  rw [← split_eq] at ran
  rw [← split_eq', ran] at ran'
  cases ran'
  exact ⟨List.append_cancel_right (split_eq.symm.trans split_eq'), rfl⟩

theorem readForm_settles (ordered : InOrder ts) :
    (∃ result, readForm ts = .ok result) ∨ ∃ r, readForm ts = .error (.rejected r) := by
  have none : ∀ p ∈ ([] : List Pending), ∀ t ∈ ts, p.start ≤ t.span.stop := nofun
  exact read_no_fault (lastStop ts) none ordered.across

theorem split_inOrder {position : Nat} {chars : List Placed} (sorted : Lexer.Sorted position chars)
    (split_eq : Lexer.split chars = .ok ts) : InOrder ts := by
  have idle : Lexer.Run.idle.Ahead position := trivial
  rcases Lexer.scan_ordered idle sorted with ⟨found, found_eq, ordered⟩ | ⟨r, rejected⟩
  · rw [Lexer.split, found_eq] at split_eq
    cases split_eq
    exact inOrder_of_ordered ordered
  · rw [Lexer.split, rejected] at split_eq
    cases split_eq

open FormEdit.Language in
theorem readWhole_ok_iff {chars : List Placed}
    (ordered : ∀ ts, Lexer.split chars = .ok ts → InOrder ts) :
    (∃ f, parenthesised.readWhole chars = .ok f) ↔ ∃ ts, Lexer.split chars = .ok ts ∧
      IsForm ts := by
  constructor
  · rintro ⟨f, ran⟩
    obtain ⟨ts, split_eq, derives⟩ := derives_of_readWhole ran
    obtain ⟨own, own_eq, listed⟩ := derives.isForm
    rw [List.append_nil] at own_eq
    exact ⟨ts, split_eq, own_eq ▸ listed.isForm⟩
  · rintro ⟨ts, split_eq, form⟩
    obtain ⟨f, derives⟩ := form.derives (ordered ts split_eq).across
    exact ⟨f, readWhole_of_derives split_eq derives⟩

/-- The reader accepts exactly the grammar. Let tokens stand in order, as those of characters at
positions that do not decrease do. The reader returns a form and the tokens behind it just if the
tokens in front of these are a form of the grammar; they are the only form at the front, the table
of the returned form lists its nodes, and tokens are rejected if there is none. Characters are read
as a whole just if their tokens are one form. -/
theorem accepts_exactly_the_grammar :
    (∀ ts, InOrder ts →
      (∀ rest, (∃ f, readForm ts = .ok (f, rest)) ↔ ∃ own, ts = own ++ rest ∧ IsForm own) ∧
      (∀ own own' rest rest', ts = own ++ rest → ts = own' ++ rest' → IsForm own → IsForm own' →
        own = own' ∧ rest = rest') ∧
      (∀ f own rest, readForm ts = .ok (f, rest) → ts = own ++ rest → Listed 0 own f.table) ∧
      ((∃ result, readForm ts = .ok result) ∨ ∃ r, readForm ts = .error (.rejected r))) ∧
    (∀ chars, (∀ ts, Lexer.split chars = .ok ts → InOrder ts) →
      ((∃ f, Language.parenthesised.readWhole chars = .ok f) ↔
        ∃ ts, Lexer.split chars = .ok ts ∧ IsForm ts)) ∧
    ∀ position chars ts, Lexer.Sorted position chars → Lexer.split chars = .ok ts → InOrder ts := by
  refine ⟨fun ts ordered => ⟨fun rest => readForm_ok_iff ordered, ?_, ?_, readForm_settles ordered⟩,
    fun chars ordered => readWhole_ok_iff ordered, fun position chars ts => split_inOrder⟩
  · intro own own' rest rest' split_eq split_eq' form form'
    exact isForm_unique ordered split_eq split_eq' form form'
  · intro f own rest ran split_eq
    obtain ⟨own', split_eq', listed⟩ := (derives_of_readForm ran).isForm
    rwa [List.append_cancel_right (split_eq.symm.trans split_eq')]

/-- The tokens of `('a b)`. -/
def quotedPair : List (Token Mark) :=
  [⟨.opening, "(", ⟨0, 1, by decide⟩⟩, ⟨.quote, "'", ⟨1, 2, by decide⟩⟩,
    ⟨.atom, "a", ⟨2, 3, by decide⟩⟩, ⟨.atom, "b", ⟨4, 5, by decide⟩⟩,
    ⟨.closing, ")", ⟨5, 6, by decide⟩⟩]

/-- A parenthesis too many behind `('a b)`. -/
def stray : Token Mark := ⟨.closing, ")", ⟨6, 7, by decide⟩⟩

theorem quotedPair_isForm : IsForm quotedPair :=
  .list rfl (.cons (.quote rfl (.atom rfl)) (.cons (.atom rfl) .nil)) rfl

theorem quotedPair_is_accepted : InOrder (quotedPair ++ [stray]) ∧
    ∃ f, readForm (quotedPair ++ [stray]) = .ok (f, [stray]) ∧ Listed 0 quotedPair f.table := by
  have ordered : InOrder (quotedPair ++ [stray]) := ⟨by decide, by decide⟩
  obtain ⟨accepts, -, table, -⟩ := accepts_exactly_the_grammar.1 _ ordered
  obtain ⟨f, ran⟩ := (accepts [stray]).mpr ⟨quotedPair, rfl, quotedPair_isForm⟩
  exact ⟨ordered, f, ran, table f quotedPair [stray] ran rfl⟩

end Reader

end FormEdit
