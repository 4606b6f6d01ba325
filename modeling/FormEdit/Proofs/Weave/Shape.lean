import FormEdit.Proofs.Grammar.Derives
import FormEdit.Proofs.Weave.Basic

/-!
# Weaves that read as what they are

The parts of a node are checked from left to right by a small machine. It follows the kept cells and
the nodes: a list is its parentheses around blanks and nodes, a quote its mark and one node, an atom
its characters. Inserted cells are passed over, since they may be taken back, with one exception:
two nodes that touch must have nothing inserted between them.

A node is `Good` if its parts pass, or if one of them is a deleted cell: then it cannot be taken for
unchanged, and nothing is asked of it before it is read again. The root may have blanks around it
(`loose`) while it is widened.
-/

namespace FormEdit.Weave

open Buffer Lexer

/-- A typed character that is not committed yet. -/
def isTyped : Weave → Bool
  | .cell ⟨_, .inserted⟩ => true
  | _ => false

/-- The first cell of a node, typed ones apart, if it is not inside of another node. -/
def front : Weave → Option Cell
  | .cell _ => none
  | .node _ parts =>
    match parts.dropWhile isTyped with
    | .cell c :: _ => some c
    | _ => none

/-- What stands ahead of the next part of a list. -/
inductive Gap where
  /-- A cell that separates tokens. -/
  | free
  /-- A node that ends with a kept character. -/
  | touching (last : Char)
  /-- A node that no other one may touch. -/
  | blocked
  deriving DecidableEq

/-- A node with this front may stand behind the gap. -/
def Gap.admits : Gap → Option Cell → Bool
  | .free, _ => true
  | .touching last, some ⟨c, .kept⟩ => !(inAtom last && inAtom c)
  | .touching _, some ⟨_, .deleted⟩ => true
  | _, _ => false

def gapAfter (w : Weave) : Gap :=
  match w.cells.getLast? with
  | some ⟨c, .kept⟩ => .touching c
  | _ => .blocked

/-- The weave ends with a kept character that is not blank. -/
def endsSolid (w : Weave) : Bool :=
  match w.cells.getLast? with
  | some ⟨c, .kept⟩ => !Text.isBlank c
  | _ => false

/-- How far the parts of a node have been checked. -/
inductive Stage where
  | start
  | atom (content : List Char)
  | quoted
  | inside (gap : Gap)
  | closed
  deriving DecidableEq

def stepKept (loose : Bool) : Kind → Stage → Char → Option Stage
  | .list, .start, c =>
    if c = '(' then some (.inside .free) else if loose && Text.isBlank c then some .start else none
  | .list, .inside _, c =>
    if c = ')' then some .closed else if Text.isBlank c then some (.inside .free) else none
  | .quote, .start, c =>
    if c = '\x27' then some .quoted else if loose && Text.isBlank c then some .start else none
  | .quote, .quoted, c => if Text.isBlank c then some .quoted else none
  | .atom _, .start, c =>
    if inAtom c then some (.atom [c]) else if loose && Text.isBlank c then some .start else none
  | .atom content, .atom sofar, c =>
    if inAtom c then some (.atom (sofar ++ [c]))
    else if loose && Text.isBlank c && content == String.ofList sofar then some .closed else none
  | _, .closed, c => if loose && Text.isBlank c then some .closed else none
  | _, _, _ => none

def stepNode : Kind → Stage → Weave → Option Stage
  | .list, .inside gap, w => if gap.admits w.front then some (.inside (gapAfter w)) else none
  | .quote, .quoted, w => if w.endsSolid then some .closed else none
  | _, _, _ => none

/-- A typed character comes between a node and whatever follows. -/
def Stage.typed : Stage → Stage
  | .inside (.touching _) => .inside .blocked
  | s => s

def step (loose : Bool) (kind : Kind) : Stage → Weave → Option Stage
  | s, .cell ⟨c, .kept⟩ => stepKept loose kind s c
  | s, .cell ⟨_, .inserted⟩ => some s.typed
  | _, .cell ⟨_, .deleted⟩ => none
  | s, .node k parts => stepNode kind s (.node k parts)

/-- Checks parts one after the other. -/
def run (loose : Bool) (kind : Kind) : Stage → List Weave → Option Stage
  | s, [] => some s
  | s, w :: ws => (step loose kind s w).bind fun s => run loose kind s ws

def Stage.complete : Kind → Stage → Bool
  | .atom content, .atom sofar => content == String.ofList sofar
  | _, .closed => true
  | _, _ => false

/-- The parts are those of a node of the kind. -/
def Shape (loose : Bool) (kind : Kind) (parts : List Weave) : Prop :=
  ∃ s, run loose kind .start parts = some s ∧ s.complete kind = true

/-- A node that reads as what it is, or that has lost a character. -/
inductive Good : Bool → Weave → Prop
  | cell {loose : Bool} {c : Cell} : Good loose (.cell c)
  | changed {loose : Bool} {kind : Kind} {parts : List Weave} {c : Char}
      (lost : .cell ⟨c, .deleted⟩ ∈ parts) : Good loose (.node kind parts)
  | shaped {loose : Bool} {kind : Kind} {parts : List Weave} (shape : Shape loose kind parts)
      (each : ∀ w ∈ parts, Good false w) : Good loose (.node kind parts)

variable {loose : Bool} {kind : Kind} {s s' t t' : Stage} {us ws : List Weave} {w : Weave}

@[simp] theorem run_nil : run loose kind s [] = some s := rfl

theorem run_cons : run loose kind s (w :: ws) =
    (step loose kind s w).bind fun s => run loose kind s ws := rfl

theorem run_append : run loose kind s (us ++ ws) =
    (run loose kind s us).bind fun s => run loose kind s ws := by
  induction us generalizing s with
  | nil => rfl
  | cons u us ih =>
    rw [List.cons_append, run_cons, run_cons, Option.bind_assoc]
    exact congrArg _ (funext fun s => ih)

theorem run_append_eq_some : run loose kind s (us ++ ws) = some t ↔
    ∃ m, run loose kind s us = some m ∧ run loose kind m ws = some t := by
  rw [run_append, Option.bind_eq_some_iff]

theorem run_cons_eq_some : run loose kind s (w :: ws) = some t ↔
    ∃ m, step loose kind s w = some m ∧ run loose kind m ws = some t := by
  rw [run_cons, Option.bind_eq_some_iff]

/-- A node is a part of a list, where its front may stand, or the last part of a quote. -/
theorem step_node_eq_some {k : Kind} {parts : List Weave} :
    step loose kind s (.node k parts) = some t ↔
    (∃ gap, kind = .list ∧ s = .inside gap ∧ gap.admits (front (.node k parts)) = true ∧
      t = .inside (gapAfter (.node k parts))) ∨
      kind = .quote ∧ s = .quoted ∧ endsSolid (.node k parts) = true ∧ t = .closed := by
  constructor
  · intro stepped
    cases kind with
    | list =>
      cases s with
      | inside gap =>
        obtain ⟨admitted, rfl⟩ : gap.admits (front (.node k parts)) = true ∧
            .inside (gapAfter (.node k parts)) = t := by simpa [step, stepNode] using stepped
        exact .inl ⟨gap, rfl, rfl, admitted, rfl⟩
      | start | atom content | quoted | closed => cases stepped
    | quote =>
      cases s with
      | quoted =>
        obtain ⟨solid, rfl⟩ : endsSolid (.node k parts) = true ∧ .closed = t := by
          simpa [step, stepNode] using stepped
        exact .inr ⟨rfl, rfl, solid, rfl⟩
      | start | atom content | inside gap | closed => cases stepped
    | atom content => cases stepped
  · rintro (⟨gap, rfl, rfl, admitted, rfl⟩ | ⟨rfl, rfl, solid, rfl⟩)
    · exact if_pos admitted
    · exact if_pos solid

/-! ## Typed characters -/

/-- The stage `s` lets pass at least what `s'` does. -/
inductive Stage.Laxer : Stage → Stage → Prop
  | refl {s : Stage} : Laxer s s
  | free {gap : Gap} : Laxer (.inside .free) (.inside gap)
  | blocked {gap : Gap} : Laxer (.inside gap) (.inside .blocked)

theorem Stage.laxer_typed (s : Stage) : s.Laxer s.typed := by
  unfold typed
  split
  · exact .blocked
  · exact .refl

theorem stepKept_inside {gap gap' : Gap} {c : Char} :
    stepKept loose kind (.inside gap) c = stepKept loose kind (.inside gap') c := by
  cases kind <;> rfl

theorem step_laxer (laxer : s.Laxer s') (stepped : step loose kind s' w = some t') :
    ∃ t, step loose kind s w = some t ∧ t.Laxer t' := by
  cases w with
  | cell c =>
    obtain ⟨c, status⟩ := c
    cases status with
    | kept =>
      cases laxer with
      | refl => exact ⟨t', stepped, .refl⟩
      | free => exact ⟨t', stepKept_inside.trans stepped, .refl⟩
      | blocked => exact ⟨t', stepKept_inside.trans stepped, .refl⟩
    | inserted =>
      cases stepped
      refine ⟨_, rfl, ?_⟩
      cases laxer with
      | refl => exact .refl
      | free => cases ‹Gap› <;> exact .free
      | blocked => cases ‹Gap› <;> exact .blocked
    | deleted => cases stepped
  | node k parts =>
    cases laxer with
    | refl => exact ⟨t', stepped, .refl⟩
    | free =>
      rcases step_node_eq_some.mp stepped with ⟨gap, rfl, -, -, rfl⟩ | ⟨-, quoted, -⟩
      · exact ⟨_, step_node_eq_some.mpr (.inl ⟨.free, rfl, rfl, rfl, rfl⟩), .refl⟩
      · cases quoted
    | blocked => cases kind <;> cases stepped

/-- Where a stricter stage gets through, so does a laxer one. -/
theorem run_laxer (laxer : s.Laxer s') (ran : run loose kind s' ws = some t)
    (complete : t.complete kind = true) : run loose kind s ws = some t := by
  induction ws generalizing s s' with
  | nil =>
    cases ran
    cases laxer with
    | refl => rfl
    | free => cases kind <;> cases complete
    | blocked => cases kind <;> cases complete
  | cons w ws ih =>
    obtain ⟨m, stepped, ran⟩ := run_cons_eq_some.mp ran
    obtain ⟨m', stepped', laxer⟩ := step_laxer laxer stepped
    rw [run_cons, stepped']
    exact ih laxer ran

/-- A typed character can be taken back. -/
theorem Shape.untype {c : Char} (shape : Shape loose kind (us ++ .cell ⟨c, .inserted⟩ :: ws)) :
    Shape loose kind (us ++ ws) := by
  obtain ⟨t, ran, complete⟩ := shape
  obtain ⟨m, before, ran⟩ := run_append_eq_some.mp ran
  obtain ⟨m', stepped, after⟩ := run_cons_eq_some.mp ran
  cases stepped
  exact ⟨t, run_append_eq_some.mpr ⟨m, before, run_laxer m.laxer_typed after complete⟩, complete⟩

/-- The parts of a shape are not deleted. -/
theorem Shape.isCurrent {d : Cell} (shape : Shape loose kind ws) (mem : .cell d ∈ ws) :
    d.isCurrent = true := by
  obtain ⟨t, ran, -⟩ := shape
  obtain ⟨us, vs, rfl⟩ := List.append_of_mem mem
  obtain ⟨m, -, ran⟩ := run_append_eq_some.mp ran
  obtain ⟨m', stepped, -⟩ := run_cons_eq_some.mp ran
  obtain ⟨d, status⟩ := d
  cases status with
  | deleted => cases stepped
  | kept => rfl
  | inserted => rfl

theorem step_typed {c : Cell} (current : c.isCurrent = true) :
    step loose kind s.typed (.cell c) = step loose kind s (.cell c) := by
  obtain ⟨c, status⟩ := c
  cases status with
  | kept =>
    cases s with
    | inside gap => cases gap <;> first | rfl | exact stepKept_inside
    | start | atom content | quoted | closed => rfl
  | inserted =>
    cases s with
    | inside gap => cases gap <;> rfl
    | start | atom content | quoted | closed => rfl
  | deleted => cases current

/-- A character can be typed ahead of a current one. -/
theorem Shape.type {c : Char} {d : Cell} (current : d.isCurrent = true)
    (shape : Shape loose kind (us ++ .cell d :: ws)) :
    Shape loose kind (us ++ .cell ⟨c, .inserted⟩ :: .cell d :: ws) := by
  obtain ⟨t, ran, complete⟩ := shape
  obtain ⟨m, before, ran⟩ := run_append_eq_some.mp ran
  refine ⟨t, run_append_eq_some.mpr ⟨m, before, ?_⟩, complete⟩
  rw [run_cons, step, Option.bind_some, run_cons, step_typed current]
  exact ran

/-- A character can be typed behind the last part. -/
theorem Shape.typeLast {c : Char} (shape : Shape loose kind ws) :
    Shape loose kind (ws ++ [.cell ⟨c, .inserted⟩]) := by
  obtain ⟨t, ran, complete⟩ := shape
  refine ⟨t.typed, run_append_eq_some.mpr ⟨t, ran, rfl⟩, ?_⟩
  cases t with
  | inside gap => cases kind <;> cases complete
  | start | atom content | quoted | closed => exact complete

theorem Good.loosen (good : Good loose w) : Good true w := by
  cases good with
  | cell => exact .cell
  | changed lost => exact .changed lost
  | @shaped _ kind parts shape each =>
    refine .shaped ?_ each
    obtain ⟨t, ran, complete⟩ := shape
    refine ⟨t, ?_, complete⟩
    have lax (s t : Stage) (w : Weave) (stepped : step loose kind s w = some t) :
        step true kind s w = some t := by
      cases w with
      | node k parts => exact stepped
      | cell c =>
        obtain ⟨c, status⟩ := c
        cases status with
        | inserted => exact stepped
        | deleted => exact stepped
        | kept =>
          simp only [step] at stepped ⊢
          cases loose with
          | true => exact stepped
          | false => cases kind <;> cases s <;> grind [stepKept]
    have each_lax (s : Stage) (ws : List Weave) (ran : run loose kind s ws = some t) :
        run true kind s ws = some t := by
      induction ws generalizing s with
      | nil => exact ran
      | cons w ws ih =>
        obtain ⟨m, stepped, ran⟩ := run_cons_eq_some.mp ran
        rw [run_cons, lax s m w stepped]
        exact ih m ran
    exact each_lax _ _ ran

end FormEdit.Weave
