/-!
# Trees with any number of branches

`Rose` is a value with a list of subtrees. Everything read off such a tree goes through `fold`,
whose one equation is `fold_node`.
-/

namespace FormEdit

/-- A value and the trees under it, in order. -/
inductive Rose (α : Type) where
  | node (value : α) (children : List (Rose α))

namespace Rose

variable {α β : Type}

def value : Rose α → α
  | .node a _ => a

def children : Rose α → List (Rose α)
  | .node _ cs => cs

@[simp] theorem value_node (a : α) (cs : List (Rose α)) : (node a cs).value = a := rfl

@[simp] theorem children_node (a : α) (cs : List (Rose α)) : (node a cs).children = cs := rfl

mutual

/-- Trees are compared value by value. -/
def decideEq [DecidableEq α] : (s t : Rose α) → Decidable (s = t)
  | .node a cs, .node b ds =>
    if h : a = b then
      match decideEach cs ds with
      | .isTrue hs => .isTrue (by rw [h, hs])
      | .isFalse hs => .isFalse (by simp [hs])
    else .isFalse (by simp [h])

/-- Lists of trees are compared one by one. -/
def decideEach [DecidableEq α] : (cs ds : List (Rose α)) → Decidable (cs = ds)
  | [], [] => .isTrue rfl
  | [], _ :: _ => .isFalse (by simp)
  | _ :: _, [] => .isFalse (by simp)
  | c :: cs, d :: ds =>
    match decideEq c d, decideEach cs ds with
    | .isTrue h, .isTrue hs => .isTrue (by rw [h, hs])
    | .isFalse h, _ => .isFalse (by simp [h])
    | _, .isFalse hs => .isFalse (by simp [hs])

end

instance [DecidableEq α] : DecidableEq (Rose α) := decideEq

/-- A tree without branches. -/
def leaf (a : α) : Rose α := .node a []

mutual

/-- Combines each value with the results of its subtrees. -/
def fold (f : α → List β → β) : Rose α → β
  | .node a cs => f a (foldEach f cs)

/-- `fold` of each tree. -/
def foldEach (f : α → List β → β) : List (Rose α) → List β
  | [] => []
  | c :: cs => fold f c :: foldEach f cs

end

theorem foldEach_eq_map (f : α → List β → β) (cs : List (Rose α)) :
    foldEach f cs = cs.map (fold f) := by
  induction cs with
  | nil => rfl
  | cons c cs ih => simp [foldEach, ih]

@[simp] theorem fold_node (f : α → List β → β) (a : α) (cs : List (Rose α)) :
    fold f (node a cs) = f a (cs.map (fold f)) := by
  rw [fold, foldEach_eq_map]

/-- What holds of a node whenever it holds of its subtrees holds of every tree. -/
@[elab_as_elim]
theorem induction {motive : Rose α → Prop}
    (node : ∀ a cs, (∀ c ∈ cs, motive c) → motive (.node a cs)) (t : Rose α) : motive t := by
  refine Rose.rec (motive_1 := motive) (motive_2 := fun cs => ∀ c ∈ cs, motive c) node ?_ ?_ t
  · intro c hc
    cases hc
  · intro c cs hc hcs d hd
    rcases List.mem_cons.1 hd with rfl | hd
    · exact hc
    · exact hcs d hd

/-- Changes every value and keeps the shape. -/
def map (f : α → β) (t : Rose α) : Rose β := t.fold fun a cs => .node (f a) cs

/-- The values, each before those under it. -/
def preorder (t : Rose α) : List α := t.fold fun a lists => a :: lists.flatten

/-- The values in preorder, each with its depth. -/
def levels (t : Rose α) : List (α × Nat) :=
  t.fold (fun a lists depth => (a, depth) :: (lists.map (· (depth + 1))).flatten) 0

/-- The number of nodes. -/
def size (t : Rose α) : Nat := t.fold fun _ sizes => sizes.foldr (· + ·) 0 + 1

mutual

/-- The tree and all trees under it, each before those under it. -/
def subtrees : Rose α → List (Rose α)
  | .node a cs => .node a cs :: subtreesEach cs

/-- `subtrees` of each tree, one after the other. -/
def subtreesEach : List (Rose α) → List (Rose α)
  | [] => []
  | c :: cs => subtrees c ++ subtreesEach cs

end

/-- The numbers of consecutive blocks of the given sizes: where each block starts, counted from
`first`. -/
def blockStarts : Nat → List Nat → List Nat
  | _, [] => []
  | first, size :: sizes => first :: blockStarts (first + size) sizes

/-- A block of rows of known size that can be numbered from any row on and put before others. -/
structure Block (α : Type) where
  size : Nat
  rows : Nat → List (α × List Nat) → List (α × List Nat)

/-- The rows of a node over the blocks of its subtrees. -/
def Block.over (a : α) (blocks : List (Block α)) : Block α where
  size := (blocks.map Block.size).foldr (· + ·) 0 + 1
  rows first rest :=
    let starts := blockStarts (first + 1) (blocks.map Block.size)
    (a, starts) :: (blocks.zip starts).foldr (fun entry rest => entry.1.rows entry.2 rest) rest

/-- The tree as a table: the values in preorder, each with the row numbers of its subtrees. -/
def table (t : Rose α) : List (α × List Nat) := (t.fold Block.over).rows 0 []

end Rose

end FormEdit
