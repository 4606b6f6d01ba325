import FormEdit.Proofs.Tree.Room
import Mathlib.Logic.Relation

/-!
# What becomes of handles and numbers

A store of nodes changes in four ways only: a node is stored under the next number, a node is
removed, a node is stored again with its number and kind, or nodes are moved (`Change`). From this
alone follows what handles and numbers are worth: as long as a source that counts has numbers left,
a handle keeps its number and kind through any changes or goes stale for good, and no number is
given to a second node (`Evolves`).
-/

namespace FormEdit

namespace Tree

open Slots

/-- One change of a store and of the source of its numbers. -/
inductive Change : Slots Node × IdSource → Slots Node × IdSource → Prop
  | insert {s : Slots Node} {ids : IdSource} {n : Node} (drawn : n.id = ids.draw.1) :
      Change (s, ids) ((s.insert n).2, ids.draw.2)
  | remove {s s' : Slots Node} {ids : IdSource} {h : Handle} {n : Node}
      (removed : s.remove? h = some (n, s')) : Change (s, ids) (s', ids)
  | set {s : Slots Node} {ids : IdSource} {h : Handle} {n : Node}
      (same : ∀ m, s.get? h = some m → n.id = m.id ∧ n.kind = m.kind) :
      Change (s, ids) (s.set h n, ids)
  | respan {s s' : Slots Node} {ids : IdSource} (same : s'.bare = s.bare) :
      Change (s, ids) (s', ids)

/-- Any number of changes. -/
abbrev Changes := Relation.ReflTransGen Change

/-- A store whose nodes have different numbers, all of them below the next one. Neither are there
more slots than numbers so far. -/
structure Numbered (s : Slots Node) (next : Nat) : Prop where
  sound : s.Sound
  below : ∀ h n, s.get? h = some n → n.id < next
  distinct : ∀ h k n m, s.get? h = some n → s.get? k = some m → n.id = m.id → h = k
  narrow : s.Narrow next

/-- What any changes leave: handles that were issued stay so, and those that resolve have kept their
node's number and kind. Handles issued since have later numbers. -/
structure Evolves (s : Slots Node) (next : Nat) (s' : Slots Node) (next' : Nat) : Prop where
  issued : ∀ h, s.Issued h → s'.Issued h
  kept : ∀ h, s.Issued h → ∀ n', s'.get? h = some n' →
    ∃ n, s.get? h = some n ∧ n'.id = n.id ∧ n'.kind = n.kind
  later : next ≤ next'
  fresh : ∀ h n', s'.get? h = some n' → ¬s.Issued h → next ≤ n'.id

variable {s s' s'' : Slots Node} {next next' next'' : Nat} {h : Handle} {n : Node}

theorem Evolves.refl (s : Slots Node) (next : Nat) : Evolves s next s next where
  issued := fun _ issued => issued
  kept := fun _ _ n' found => ⟨n', found, rfl, rfl⟩
  later := Nat.le_refl next
  fresh := fun _ _ found unissued => absurd (issued_of_get? found) unissued

theorem Evolves.trans (first : Evolves s next s' next') (second : Evolves s' next' s'' next'') :
    Evolves s next s'' next'' where
  issued := fun h issued => second.issued h (first.issued h issued)
  kept := by
    intro h issued n'' found
    obtain ⟨n', found', id', kind'⟩ := second.kept h (first.issued h issued) n'' found
    obtain ⟨n, found, id, kind⟩ := first.kept h issued n' found'
    exact ⟨n, found, id'.trans id, kind'.trans kind⟩
  later := Nat.le_trans first.later second.later
  fresh := by
    intro h n'' found unissued
    by_cases between : s'.Issued h
    · obtain ⟨n', found', id, -⟩ := second.kept h between n'' found
      rw [id]
      exact first.fresh h n' found' unissued
    · exact Nat.le_trans first.later (second.fresh h n'' found between)

/-- A number that has been given stays with its handle. -/
theorem Evolves.same_handle (evolves : Evolves s next s' next') (numbered : Numbered s next)
    {k : Handle} {m : Node} (found : s.get? h = some n) (found' : s'.get? k = some m)
    (same : m.id = n.id) : k = h := by
  by_cases issued : s.Issued k
  · obtain ⟨m', before, id, -⟩ := evolves.kept k issued m found'
    exact numbered.distinct k h m' n before found (id.symm.trans same)
  · have early := numbered.below h n found
    have late := evolves.fresh k m found' issued
    omega

/-! ## The four changes -/

theorem Numbered.insert (numbered : Numbered s next) (drawn : n.id = next) :
    Numbered (s.insert n).2 (next + 1) ∧ Evolves s next (s.insert n).2 (next + 1) := by
  have inserted := insert_spec numbered.sound n
  have unissued := not_issued_insert s n
  have narrow := numbered.narrow.insert n
  have issued {h : Handle} (issued : s.Issued h) := issued.insert n
  generalize (s.insert n).1 = new, (s.insert n).2 = s' at *
  have old_or_new {h : Handle} {m : Node} (found : s'.get? h = some m) :
      h = new ∧ m = n ∨ h ≠ new ∧ s.get? h = some m := by
    by_cases same : h = new
    · subst same
      rw [inserted.found] at found
      exact .inl ⟨rfl, (Option.some.inj found).symm⟩
    · exact .inr ⟨same, by rwa [inserted.others h same] at found⟩
  refine ⟨⟨inserted.sound, ?_, ?_, narrow⟩, ⟨fun _ => issued, ?_, Nat.le_succ next, ?_⟩⟩
  · intro h m found
    rcases old_or_new found with ⟨-, rfl⟩ | ⟨-, before⟩
    · omega
    · exact Nat.lt_succ_of_lt (numbered.below h m before)
  · intro h k m m' found found' same
    rcases old_or_new found with ⟨rfl, rfl⟩ | ⟨-, before⟩
    · rcases old_or_new found' with ⟨rfl, -⟩ | ⟨-, before'⟩
      · rfl
      · have below := numbered.below k m' before'
        omega
    · rcases old_or_new found' with ⟨rfl, rfl⟩ | ⟨-, before'⟩
      · have below := numbered.below h m before
        omega
      · exact numbered.distinct h k m m' before before' same
  · intro h was m found
    rcases old_or_new found with ⟨rfl, -⟩ | ⟨-, before⟩
    · exact absurd was unissued
    · exact ⟨m, before, rfl, rfl⟩
  · intro h m found was_not
    rcases old_or_new found with ⟨-, rfl⟩ | ⟨-, before⟩
    · omega
    · exact absurd (issued_of_get? before) was_not

theorem Numbered.remove (numbered : Numbered s next) (removed : s.remove? h = some (n, s')) :
    Numbered s' next ∧ Evolves s next s' next := by
  obtain ⟨s₁, removed', sound, gone, others⟩ := remove?_spec numbered.sound (of_remove? removed).1
  rw [removed] at removed'
  cases removed'
  have before {k : Handle} {m : Node} (found' : s'.get? k = some m) :
      k ≠ h ∧ s.get? k = some m := by
    by_cases same : k = h
    · rw [same, gone] at found'
      cases found'
    · exact ⟨same, by rwa [others k same] at found'⟩
  refine ⟨⟨sound, ?_, ?_, numbered.narrow.remove? removed⟩,
    ⟨fun k issued => issued.remove? removed, ?_, Nat.le_refl next, ?_⟩⟩
  · exact fun k m found' => numbered.below k m (before found').2
  · exact fun k k' m m' first second =>
      numbered.distinct k k' m m' (before first).2 (before second).2
  · exact fun k _ m found' => ⟨m, (before found').2, rfl, rfl⟩
  · exact fun k m found' unissued => absurd (issued_of_get? (before found').2) unissued

/-- A store with no other handles, each with a node of the same number and kind. -/
theorem Numbered.retained (numbered : Numbered s next) (sound : s'.Sound) (narrow : s'.Narrow next)
    (issued : ∀ k, s.Issued k → s'.Issued k)
    (before : ∀ k m, s'.get? k = some m → ∃ m', s.get? k = some m' ∧ m.id = m'.id ∧
      m.kind = m'.kind) :
    Numbered s' next ∧ Evolves s next s' next := by
  refine ⟨⟨sound, ?_, ?_, narrow⟩, ⟨issued, ?_, Nat.le_refl next, ?_⟩⟩
  · intro k m found
    obtain ⟨m', was, id, -⟩ := before k m found
    rw [id]
    exact numbered.below k m' was
  · intro k k' m m' found found' equal
    obtain ⟨l, was, id, -⟩ := before k m found
    obtain ⟨l', was', id', -⟩ := before k' m' found'
    exact numbered.distinct k k' l l' was was' (by rw [← id, ← id', equal])
  · exact fun k _ m found => before k m found
  · intro k m found unissued
    obtain ⟨m', was, -⟩ := before k m found
    exact absurd (issued_of_get? was) unissued

theorem Numbered.set (numbered : Numbered s next)
    (same : ∀ m, s.get? h = some m → n.id = m.id ∧ n.kind = m.kind) :
    Numbered (s.set h n) next ∧ Evolves s next (s.set h n) next := by
  apply numbered.retained (numbered.sound.set h n) (numbered.narrow.set h n) fun k issued =>
    issued.set h n
  intro k m found
  obtain ⟨m', live⟩ := live_of_set found
  by_cases here : k = h
  · subst here
    rw [get?_set_self live n] at found
    cases found
    exact ⟨m', live, same m' live⟩
  · rw [get?_set_ne here] at found
    exact ⟨m, found, rfl, rfl⟩

/-- Stores that differ in spans only have the same slots otherwise. -/
theorem slot_of_bare {index : Nat} {slot : Slot Node} (same : s'.bare = s.bare)
    (found : s.slots[index]? = some slot) :
    ∃ slot', s'.slots[index]? = some slot' ∧ slot'.generation = slot.generation := by
  have both := congrArg (fun t : Slots Node => t.slots[index]?.map Slot.generation) same
  simp only [Slots.bare, Array.getElem?_map, Option.map_map, found, Option.map_some] at both
  obtain ⟨slot', found', generation⟩ := Option.map_eq_some_iff.mp both
  exact ⟨slot', found', generation⟩

theorem issued_of_bare (same : s'.bare = s.bare) (issued : s.Issued h) : s'.Issued h := by
  obtain ⟨slot, found, bound⟩ := issued
  obtain ⟨slot', found', equal⟩ := slot_of_bare same found
  exact ⟨slot', found', by rwa [equal]⟩

theorem narrow_of_bare {bound : Nat} (same : s'.bare = s.bare) (narrow : s.Narrow bound) :
    s'.Narrow bound where
  size := by
    have sizes := congrArg (fun t : Slots Node => t.slots.size) same
    simp only [Slots.bare, Array.size_map] at sizes
    exact sizes ▸ narrow.size
  generation := by
    intro index slot found
    obtain ⟨slot', found', equal⟩ := slot_of_bare same.symm found
    exact equal ▸ narrow.generation index slot' found'

/-- Stores that differ in spans only have the same nodes otherwise. -/
theorem get?_of_bare (same : s'.bare = s.bare) (found : s'.get? h = some n) :
    ∃ m, s.get? h = some m ∧ n.bare = m.bare := by
  have both := bare_get? s h
  rw [← same, bare_get?, found, Option.map_some] at both
  obtain ⟨m, live, equal⟩ := Option.map_eq_some_iff.mp both.symm
  exact ⟨m, live, equal.symm⟩

theorem Numbered.respan (numbered : Numbered s next) (same : s'.bare = s.bare) :
    Numbered s' next ∧ Evolves s next s' next := by
  apply numbered.retained (sound_of_bare same numbered.sound) (narrow_of_bare same numbered.narrow)
    fun k => issued_of_bare same
  intro k m found
  obtain ⟨m', live, equal⟩ := get?_of_bare same found
  have id : m.bare.id = m'.bare.id := congrArg Node.id equal
  have kind : m.bare.kind = m'.bare.kind := congrArg Node.kind equal
  exact ⟨m', live, id, kind⟩

/-- A store keeps count of its nodes through any change. -/
theorem Change.counted {p q : Slots Node × IdSource} (change : Change p q) (sound : p.1.Sound)
    (counted : p.1.Counted) : q.1.Sound ∧ q.1.Counted := by
  cases change with
  | @insert s ids n drawn => exact ⟨(insert_spec sound n).sound, counted.insert sound n⟩
  | remove removed =>
    obtain ⟨_, removed', sound', -⟩ := remove?_spec sound (of_remove? removed).1
    cases removed.symm.trans removed'
    exact ⟨sound', counted.remove? sound removed⟩
  | @set s ids h n same => exact ⟨sound.set h n, counted.set h n⟩
  | @respan s s' ids same =>
    have size : s'.bare.size = s.bare.size := congrArg Slots.size same
    refine ⟨sound_of_bare same sound, counted.congr size fun k => ⟨?_, ?_⟩⟩
    · rintro ⟨m, found⟩
      obtain ⟨m', live, -⟩ := get?_of_bare same found
      exact ⟨m', live⟩
    · rintro ⟨m, found⟩
      obtain ⟨m', live, -⟩ := get?_of_bare same.symm found
      exact ⟨m', live⟩

theorem Changes.counted {p q : Slots Node × IdSource} (changes : Changes p q) (sound : p.1.Sound)
    (counted : p.1.Counted) : q.1.Sound ∧ q.1.Counted := by
  induction changes with
  | refl => exact ⟨sound, counted⟩
  | tail _ change ih => exact change.counted ih.1 ih.2

/-- A source that counts goes on counting. -/
theorem Change.counts {p q : Slots Node × IdSource} (change : Change p q)
    (counting : p.2 = .counting next) : ∃ next', q.2 = .counting next' ∧ next ≤ next' := by
  cases change with
  | insert drawn =>
    subst counting
    exact ⟨next + 1, rfl, Nat.le_succ next⟩
  | remove removed => exact ⟨next, counting, Nat.le_refl next⟩
  | set same => exact ⟨next, counting, Nat.le_refl next⟩
  | respan same => exact ⟨next, counting, Nat.le_refl next⟩

theorem Changes.counts {p q : Slots Node × IdSource} (changes : Changes p q)
    (counting : p.2 = .counting next) : ∃ next', q.2 = .counting next' ∧ next ≤ next' := by
  induction changes with
  | refl => exact ⟨next, counting, Nat.le_refl next⟩
  | tail _ change ih =>
    obtain ⟨next', counting', le⟩ := ih
    obtain ⟨next'', counting'', le'⟩ := change.counts counting'
    exact ⟨next'', counting'', Nat.le_trans le le'⟩

/-- A change keeps the numbers apart, and handles to their nodes, while there are numbers left. -/
theorem Change.evolves {p q : Slots Node × IdSource} (change : Change p q)
    (counting : p.2 = .counting next) (counting' : q.2 = .counting next')
    (left : next' ≤ IdSource.cycle) (numbered : Numbered p.1 next) :
    Numbered q.1 next' ∧ Evolves p.1 next q.1 next' := by
  cases change with
  | insert drawn =>
    subst counting
    cases counting'
    apply numbered.insert
    rw [drawn]
    exact Nat.mod_eq_of_lt left
  | remove removed =>
    cases counting.symm.trans counting'
    exact numbered.remove removed
  | set same =>
    cases counting.symm.trans counting'
    exact numbered.set same
  | respan same =>
    cases counting.symm.trans counting'
    exact numbered.respan same

theorem Changes.evolves {p q : Slots Node × IdSource} (changes : Changes p q)
    (counting : p.2 = .counting next) (counting' : q.2 = .counting next')
    (left : next' ≤ IdSource.cycle) (numbered : Numbered p.1 next) :
    Numbered q.1 next' ∧ Evolves p.1 next q.1 next' := by
  induction changes generalizing next' with
  | refl =>
    cases counting.symm.trans counting'
    exact ⟨numbered, Evolves.refl p.1 next⟩
  | tail before change ih =>
    obtain ⟨between, counted, -⟩ := Changes.counts before counting
    obtain ⟨last, counted', le⟩ := change.counts counted
    cases counting'.symm.trans counted'
    obtain ⟨numbered', evolves⟩ := ih counted (Nat.le_trans le left)
    obtain ⟨numbered'', evolves'⟩ := change.evolves counted counting' left numbered'
    exact ⟨numbered'', evolves.trans evolves'⟩

end Tree

end FormEdit
