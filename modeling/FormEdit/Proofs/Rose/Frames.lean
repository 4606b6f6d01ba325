import FormEdit.Rose
import Mathlib.Data.List.Nodup

/-!
# Trees around a hole

A frame is a node with one of its subtrees left out. A list of frames, the innermost one first, is
a tree with a hole; `plug` fills it. The frames say where a subtree stands and what stands around
it, so a change of the subtree leaves them alone.
-/

namespace FormEdit.Rose

open scoped List

variable {α β γ : Type}

@[simp] theorem map_node (f : α → β) (a : α) (cs : List (Rose α)) :
    (node a cs).map f = node (f a) (cs.map (map f)) := by
  simp [map]

@[simp] theorem value_map (f : α → β) (t : Rose α) : (t.map f).value = f t.value := by
  cases t
  simp

@[simp] theorem children_map (f : α → β) (t : Rose α) :
    (t.map f).children = t.children.map (map f) := by
  cases t
  simp

theorem map_map (f : α → β) (g : β → γ) (t : Rose α) : (t.map f).map g = t.map (g ∘ f) := by
  induction t using Rose.induction with
  | node a cs ih =>
    simp only [map_node, List.map_map, Function.comp_apply, node.injEq, true_and]
    exact List.map_congr_left fun c hc => ih c hc

theorem map_eq_of_map {f : α → β} {g : α → γ} {as bs : List α}
    (each : ∀ a ∈ as, ∀ b, f a = f b → g a = g b) (same : as.map f = bs.map f) :
    as.map g = bs.map g := by
  induction as generalizing bs with
  | nil =>
    obtain rfl := List.map_eq_nil_iff.mp same.symm
    rfl
  | cons a as ih =>
    obtain ⟨b, bs, rfl, first, rest⟩ := List.map_eq_cons_iff.mp same.symm
    obtain ⟨each_a, each⟩ := List.forall_mem_cons.mp each
    rw [List.map_cons, List.map_cons, each_a b first.symm, ih each rest.symm]

/-- Trees that look alike through `f` fold alike if the fold goes by what is seen through `f`. -/
theorem fold_eq_of_map {f : α → β} {g : α → List γ → γ} (only : ∀ a b, f a = f b → g a = g b)
    {s t : Rose α} (same : s.map f = t.map f) : s.fold g = t.fold g := by
  induction s using Rose.induction generalizing t with
  | node a cs ih =>
    obtain ⟨b, ds⟩ := t
    rw [map_node, map_node, node.injEq] at same
    have parts : cs.map (fold g) = ds.map (fold g) := map_eq_of_map (fun c mem d => ih c mem) same.2
    rw [fold_node, fold_node, only a b same.1, parts]

@[simp] theorem preorder_node (a : α) (cs : List (Rose α)) :
    (node a cs).preorder = a :: cs.flatMap preorder := by
  simp only [preorder, fold_node]
  rfl

theorem map_congr_left {f g : α → β} {t : Rose α} (same : ∀ a ∈ t.preorder, f a = g a) :
    t.map f = t.map g := by
  induction t using Rose.induction with
  | node a cs ih =>
    simp only [preorder_node, List.mem_cons, List.mem_flatMap, forall_eq_or_imp] at same
    simp only [map_node, same.1, node.injEq, true_and]
    exact List.map_congr_left fun c hc => ih c hc fun a ha => same.2 a ⟨c, hc, ha⟩

protected theorem map_id (t : Rose α) : t.map id = t := by
  induction t using Rose.induction with
  | node a cs ih =>
    rw [map_node, List.map_congr_left ih, List.map_id']
    rfl

theorem map_eq_self {f : α → α} {t : Rose α} (same : ∀ a ∈ t.preorder, f a = a) : t.map f = t :=
  (map_congr_left same).trans (Rose.map_id t)

theorem preorder_map (f : α → β) (t : Rose α) : (t.map f).preorder = t.preorder.map f := by
  induction t using Rose.induction with
  | node a cs ih =>
    simp only [map_node, preorder_node, List.map_cons, List.map_flatMap, List.flatMap_map,
      List.cons.injEq, true_and]
    exact List.flatMap_congr fun c hc => ih c hc

theorem value_mem_preorder (t : Rose α) : t.value ∈ t.preorder := by
  cases t
  simp

/-- A node with one of its subtrees left out. -/
structure Frame (α : Type) where
  value : α
  before : List (Rose α)
  after : List (Rose α)

namespace Frame

/-- The node with a tree in the place left out. -/
def fill (f : Frame α) (t : Rose α) : Rose α := .node f.value (f.before ++ t :: f.after)

def map (g : α → β) (f : Frame α) : Frame β :=
  ⟨g f.value, f.before.map (Rose.map g), f.after.map (Rose.map g)⟩

/-- Everything around the hole. -/
def around (f : Frame α) : List α :=
  f.value :: (f.before.flatMap preorder ++ f.after.flatMap preorder)

end Frame

/-- Fills the hole of a tree given by its frames, the innermost one first. -/
def plug : List (Frame α) → Rose α → Rose α
  | [], t => t
  | f :: fs, t => plug fs (f.fill t)

@[simp] theorem plug_nil (t : Rose α) : plug [] t = t := rfl

@[simp] theorem plug_cons (f : Frame α) (fs : List (Frame α)) (t : Rose α) :
    plug (f :: fs) t = plug fs (f.fill t) := rfl

theorem plug_append (fs gs : List (Frame α)) (t : Rose α) :
    plug (fs ++ gs) t = plug gs (plug fs t) := by
  induction fs generalizing t with
  | nil => rfl
  | cons f fs ih => exact ih (f.fill t)

/-- What is in a hole does not show at the root. -/
theorem value_plug_cons (f : Frame α) (fs : List (Frame α)) (s t : Rose α) :
    (plug (f :: fs) s).value = (plug (f :: fs) t).value := by
  induction fs generalizing f s t with
  | nil => rfl
  | cons g fs ih => exact ih g (f.fill s) (f.fill t)

theorem map_fill (g : α → β) (f : Frame α) (t : Rose α) :
    (f.fill t).map g = (f.map g).fill (t.map g) := by
  simp [Frame.fill, Frame.map]

theorem map_plug (g : α → β) (fs : List (Frame α)) (t : Rose α) :
    (plug fs t).map g = plug (fs.map (Frame.map g)) (t.map g) := by
  induction fs generalizing t with
  | nil => rfl
  | cons f fs ih => rw [plug_cons, ih, map_fill, List.map_cons, plug_cons]

/-- Everything around the hole of a tree. -/
def around (fs : List (Frame α)) : List α := fs.flatMap Frame.around

@[simp] theorem around_nil : around ([] : List (Frame α)) = [] := rfl

@[simp] theorem around_cons (f : Frame α) (fs : List (Frame α)) :
    around (f :: fs) = f.around ++ around fs := rfl

theorem preorder_fill (f : Frame α) (t : Rose α) :
    (f.fill t).preorder.Perm (t.preorder ++ f.around) := by
  simp only [Frame.fill, preorder_node, Frame.around, List.flatMap_append, List.flatMap_cons]
  calc f.value :: (f.before.flatMap preorder ++ (t.preorder ++ f.after.flatMap preorder))
    _ = (f.value :: (f.before.flatMap preorder ++ t.preorder)) ++ f.after.flatMap preorder := by
      simp
    _ ~ (f.value :: (t.preorder ++ f.before.flatMap preorder)) ++ f.after.flatMap preorder :=
      List.Perm.append_right _ (List.Perm.cons _ List.perm_append_comm)
    _ = f.value :: (t.preorder ++ (f.before.flatMap preorder ++ f.after.flatMap preorder)) := by
      simp
    _ ~ t.preorder ++ f.value :: (f.before.flatMap preorder ++ f.after.flatMap preorder) :=
      List.perm_middle.symm

/-- A tree consists of what is in the hole and what is around it. -/
theorem preorder_plug (fs : List (Frame α)) (t : Rose α) :
    (plug fs t).preorder.Perm (t.preorder ++ around fs) := by
  induction fs generalizing t with
  | nil => simp
  | cons f fs ih =>
    refine (ih (f.fill t)).trans ?_
    rw [around_cons, ← List.append_assoc]
    exact List.Perm.append_right _ (preorder_fill f t)

/-- What comes ahead of the hole in preorder. -/
def ahead : List (Frame α) → List α
  | [] => []
  | f :: fs => ahead fs ++ f.value :: f.before.flatMap preorder

/-- What comes behind the hole in preorder. -/
def behind : List (Frame α) → List α
  | [] => []
  | f :: fs => f.after.flatMap preorder ++ behind fs

/-- What is in the hole is one block of the whole. -/
theorem preorder_plug_eq (fs : List (Frame α)) (t : Rose α) :
    (plug fs t).preorder = ahead fs ++ t.preorder ++ behind fs := by
  induction fs generalizing t with
  | nil => simp [ahead, behind]
  | cons f fs ih => simp [ih, ahead, behind, Frame.fill]

theorem size_eq_length (t : Rose α) : t.size = t.preorder.length := by
  induction t using Rose.induction with
  | node a cs ih =>
    have sizes : cs.map size = cs.map fun c => c.preorder.length := List.map_congr_left ih
    have total : (cs.flatMap preorder).length = ((cs.map size).foldr (· + ·) 0) := by
      rw [sizes, List.length_flatMap]
      rfl
    rw [preorder_node, List.length_cons, total]
    simp only [size, fold_node]
    rfl

@[simp] theorem size_map (f : α → β) (t : Rose α) : (t.map f).size = t.size := by
  rw [size_eq_length, size_eq_length, preorder_map, List.length_map]

/-- Every value of a tree is the value of a subtree in its place. -/
theorem exists_plug {t : Rose α} {a : α} (mem : a ∈ t.preorder) :
    ∃ fs s, t = plug fs s ∧ s.value = a := by
  induction t using Rose.induction with
  | node b cs ih =>
    rw [preorder_node, List.mem_cons] at mem
    rcases mem with rfl | mem
    · exact ⟨[], node a cs, rfl, rfl⟩
    · obtain ⟨c, listed, inside⟩ := List.mem_flatMap.mp mem
      obtain ⟨before, after, rfl⟩ := List.append_of_mem listed
      obtain ⟨fs, s, rfl, value_eq⟩ := ih c listed inside
      refine ⟨fs ++ [⟨b, before, after⟩], s, ?_, value_eq⟩
      rw [plug_append]
      rfl

theorem length_le_around (fs : List (Frame α)) : fs.length ≤ (around fs).length := by
  induction fs with
  | nil => simp
  | cons f fs ih =>
    simp only [List.length_cons, around_cons, List.length_append, Frame.around]
    omega

end FormEdit.Rose
