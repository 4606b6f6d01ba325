import FormEdit.Fault

/-!
# Stores with handles that go stale

A store keeps values in numbered slots. Removing a value frees its slot for the next one, the slot
freed last being taken first; each time the slot is taken its generation rises, so a handle never
resolves to a value other than its own. Generations and places are counted on without end. Both of
them fit into 32 bits as long as fewer than 2^32 values have been stored (`Slots.Narrow`).
-/

namespace FormEdit

/-- A place for a value, and how often it has been taken anew. -/
structure Slot (α : Type) where
  generation : Nat
  value : Option α
  deriving DecidableEq, Repr

/-- Slots in order, the free ones with the last freed first, and the number of values. -/
structure Slots (α : Type) where
  slots : Array (Slot α)
  free : List Nat
  size : Nat
  deriving DecidableEq, Repr

namespace Slots

variable {α : Type}

def empty : Slots α := ⟨#[], [], 0⟩

/-- The value of a handle, unless it has been removed. -/
def get? (s : Slots α) (h : Handle) : Option α :=
  match s.slots[h.index]? with
  | some slot => if slot.generation = h.generation then slot.value else none
  | none => none

def contains (s : Slots α) (h : Handle) : Bool := (s.get? h).isSome

/-- The value of a handle that has to resolve. -/
def get (s : Slots α) (h : Handle) : Checked α :=
  match s.get? h with
  | some value => .ok value
  | none => .error (.stale h)

/-- How often a slot has been taken anew. -/
def generationOf (s : Slots α) (index : Nat) : Nat :=
  match s.slots[index]? with
  | some slot => slot.generation
  | none => 0

/-- Stores a value and issues its handle. -/
def insert (s : Slots α) (value : α) : Handle × Slots α :=
  match s.free with
  | index :: free =>
    let generation := s.generationOf index + 1
    (⟨index, generation⟩, ⟨s.slots.setIfInBounds index ⟨generation, some value⟩, free, s.size + 1⟩)
  | [] => (⟨s.slots.size, 0⟩, ⟨s.slots.push ⟨0, some value⟩, [], s.size + 1⟩)

/-- Removes a value and frees its slot. Nothing happens if it has been removed before. -/
def remove? (s : Slots α) (h : Handle) : Option (α × Slots α) :=
  (s.get? h).map fun value =>
    (value,
      ⟨s.slots.setIfInBounds h.index ⟨h.generation, none⟩, h.index :: s.free, s.size - 1⟩)

/-- Stores another value under a handle. Nothing happens if the handle is stale. -/
def set (s : Slots α) (h : Handle) (value : α) : Slots α :=
  if s.contains h then
    { s with slots := s.slots.setIfInBounds h.index ⟨h.generation, some value⟩ }
  else s

/-- Changes the value of a handle that has to resolve. -/
def modify (s : Slots α) (h : Handle) (f : α → α) : Checked (Slots α) := do
  let value ← s.get h
  pure (s.set h (f value))

/-- The values with their handles, in the order of the slots. -/
def entries (s : Slots α) : List (Handle × α) :=
  s.slots.toList.zipIdx.filterMap fun (slot, index) =>
    slot.value.map fun value => (⟨index, slot.generation⟩, value)

end Slots

end FormEdit
