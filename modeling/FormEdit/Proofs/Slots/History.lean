import FormEdit.Proofs.Slots

/-!
# The history of a store

A store is used in four ways: a value is stored, removed, looked up or written over. What happened
says what the store holds: a handle resolves just if it was issued and not removed since, and then
to the value that was stored under it last (`Stored`). The store itself only knows slots,
generations and a list of free slots; `Kept` is what each use preserves of them, and `Follows` is
what this means for whoever uses the store.
-/

namespace FormEdit.Slots

variable {α : Type} {s s' : Slots α} {h k : Handle} {a b : α}

/-- A use of a store. -/
inductive Use (α : Type) where
  | insert (value : α)
  | remove (h : Handle)
  | look (h : Handle)
  | write (h : Handle) (value : α)
  deriving DecidableEq, Repr

/-- A use and what the store answered: the handle that it issued, or the value that it found. -/
inductive Event (α : Type) where
  | inserted (value : α) (h : Handle)
  | removed (h : Handle) (found : Option α)
  | looked (h : Handle) (found : Option α)
  | wrote (h : Handle) (value : α) (found : Option α)
  deriving DecidableEq, Repr

def Use.run (s : Slots α) : Use α → Event α × Slots α
  | .insert value => (.inserted value (s.insert value).1, (s.insert value).2)
  | .remove h =>
    match s.remove? h with
    | some (value, s') => (.removed h (some value), s')
    | none => (.removed h none, s)
  | .look h => (.looked h (s.get? h), s)
  | .write h value => (.wrote h value (s.get? h), s.set h value)

/-- What happens in a run of uses, and the store after it. -/
def replay : List (Use α) → Slots α → List (Event α) × Slots α
  | [], s => ([], s)
  | use :: uses, s =>
    let rest := replay uses (use.run s).2
    ((use.run s).1 :: rest.1, rest.2)

/-! ## What a history says -/

/-- The handle that was issued. -/
def Event.issued? : Event α → Option Handle
  | .inserted _ h => some h
  | _ => none

/-- The handles that were issued, in order. -/
def issued (events : List (Event α)) : List Handle := events.filterMap Event.issued?

/-- The value that was written over the one of a handle. -/
def Event.written? (h : Handle) : Event α → Option α
  | .wrote k value _ => if k = h then some value else none
  | _ => none

/-- The handle was issued and has not been removed since, and this value was stored under it
last. -/
def Stored (events : List (Event α)) (h : Handle) (a : α) : Prop :=
  ∃ past first since, events = past ++ .inserted first h :: since ∧
    (∀ found, .removed h found ∉ since) ∧
    a = ((since.filterMap (Event.written? h)).getLast?).getD first

variable {events : List (Event α)} {e : Event α}

/-- What one more event makes of the values stored before it. -/
theorem stored_concat : Stored (events ++ [e]) h a ↔ e = .inserted a h ∨
    ∃ b, Stored events h b ∧ (∀ found, e ≠ .removed h found) ∧ a = (e.written? h).getD b := by
  constructor
  · rintro ⟨past, first, since, split, kept, rfl⟩
    rcases List.eq_nil_or_concat since with rfl | ⟨since, last, rfl⟩
    · obtain ⟨-, same⟩ := List.append_inj' split rfl
      exact .inl (List.singleton_inj.mp same)
    · rw [List.concat_eq_append, ← List.cons_append, ← List.append_assoc] at split
      obtain ⟨rfl, same⟩ := List.append_inj' split rfl
      obtain rfl := List.singleton_inj.mp same
      refine .inr ⟨_, ⟨past, first, since, rfl, fun found mem => kept found (by simp [mem]), rfl⟩,
        fun found same => kept found (by simp [same]), ?_⟩
      rw [List.concat_eq_append, List.filterMap_append, List.getLast?_append]
      cases written : e.written? h <;> simp [written]
  · rintro (rfl | ⟨b, ⟨past, first, since, rfl, kept, rfl⟩, stays, rfl⟩)
    · exact ⟨events, a, [], rfl, by simp, rfl⟩
    · refine ⟨past, first, since ++ [e], by simp, fun found mem => ?_, ?_⟩
      · rcases List.mem_append.mp mem with mem | mem
        · exact kept found mem
        · exact stays found (List.mem_singleton.mp mem).symm
      · rw [List.filterMap_append, List.getLast?_append]
        cases written : e.written? h <;> simp [written]

/-! ## What a store keeps -/

/-- Every empty slot is there to be taken. -/
def Reclaims (s : Slots α) : Prop :=
  ∀ index generation, s.slots[index]? = some ⟨generation, none⟩ → index ∈ s.free

theorem Reclaims.insert (reclaims : s.Reclaims) (a : α) : (s.insert a).2.Reclaims := by
  intro index generation empty
  unfold Slots.insert at empty ⊢
  split at empty
  next first free listed =>
    by_cases same : first = index
    · subst same
      have inside := (Array.getElem?_eq_some_iff.mp empty).1
      rw [Array.size_setIfInBounds] at inside
      simp [inside] at empty
    · have before := reclaims index generation (by simpa [same] using empty)
      rw [listed, List.mem_cons] at before
      exact before.resolve_left (Ne.symm same)
  next listed =>
    rw [Array.getElem?_push] at empty
    split at empty
    · simp at empty
    · exact listed ▸ reclaims index generation empty

theorem Reclaims.remove? (reclaims : s.Reclaims) (removed : s.remove? h = some (a, s')) :
    s'.Reclaims := by
  obtain ⟨b, -, equal⟩ := Option.map_eq_some_iff.mp removed
  cases equal
  intro index generation empty
  by_cases same : h.index = index
  · exact List.mem_cons.mpr (.inl same.symm)
  · exact List.mem_cons_of_mem _ (reclaims index generation (by simpa [same] using empty))

theorem Reclaims.set (reclaims : s.Reclaims) (h : Handle) (a : α) : (s.set h a).Reclaims := by
  intro index generation empty
  unfold Slots.set at empty ⊢
  split at empty
  next live =>
    rw [if_pos live]
    by_cases same : h.index = index
    · obtain ⟨b, found⟩ := Option.isSome_iff_exists.mp live
      simp [← same, index_lt found] at empty
    · exact reclaims index generation (by simpa [same] using empty)
  next stale =>
    rw [if_neg stale]
    exact reclaims index generation empty

/-- What a store has kept of what happened. -/
structure Kept (events : List (Event α)) (s : Slots α) : Prop where
  sound : s.Sound
  reclaims : s.Reclaims
  counted : s.Counted
  issued : ∀ h ∈ issued events, s.Issued h
  once : (Slots.issued events).Nodup
  stored : ∀ h a, s.get? h = some a ↔ Stored events h a
  spent : ∀ h a, .removed h (some a) ∈ events → s.Issued h ∧ s.get? h = none

theorem kept_empty : Kept [] (empty : Slots α) where
  sound := sound_empty
  reclaims := by simp [Reclaims, empty]
  counted := counted_empty
  issued := by simp [Slots.issued]
  once := .nil
  stored := by simp [Stored, get?, empty]
  spent := by simp

theorem issued_concat : issued (events ++ [e]) = issued events ++ e.issued?.toList := by
  rw [issued, List.filterMap_append, issued]
  cases taken : e.issued? <;> simp [taken]

/-- A value is stored under a handle that was never issued. -/
theorem Kept.insert (kept : Kept events s) (value : α) :
    Kept (events ++ [.inserted value (s.insert value).1]) (s.insert value).2 := by
  have inserted := insert_spec kept.sound value
  have unissued := not_issued_insert s value
  refine ⟨inserted.sound, kept.reclaims.insert value, kept.counted.insert kept.sound value, ?_, ?_,
    ?_, ?_⟩
  · intro h mem
    rw [issued_concat, List.mem_append] at mem
    rcases mem with mem | mem
    · exact (kept.issued h mem).insert value
    · obtain rfl := List.mem_singleton.mp mem
      exact issued_of_get? inserted.found
  · rw [issued_concat, List.nodup_append]
    refine ⟨kept.once, List.nodup_singleton _, ?_⟩
    rintro h mem _ mem' rfl
    obtain rfl := List.mem_singleton.mp mem'
    exact unissued (kept.issued _ mem)
  · intro h a
    rw [stored_concat]
    simp only [← kept.stored, Event.written?, Option.getD_none, reduceCtorEq, ne_eq,
      not_false_eq_true, implies_true, true_and]
    by_cases new : h = (s.insert value).1
    · simp [new, inserted.found, inserted.fresh]
    · simp [inserted.others h new, Ne.symm new]
  · intro h a mem
    rw [List.mem_append, List.mem_singleton] at mem
    obtain ⟨issued, gone⟩ := kept.spent h a (mem.resolve_right nofun)
    refine ⟨issued.insert value, ?_⟩
    rw [inserted.others h, gone]
    rintro rfl
    exact unissued issued

/-- A use that issues no handle and revives none. -/
theorem Kept.retained (kept : Kept events s) (none_issued : e.issued? = none) (sound : s'.Sound)
    (reclaims : s'.Reclaims) (counted : s'.Counted) (issued : ∀ h, s.Issued h → s'.Issued h)
    (stored : ∀ h a, s'.get? h = some a ↔ Stored (events ++ [e]) h a)
    (stale : ∀ h, s.get? h = none → s'.get? h = none)
    (spent : ∀ h a, e = .removed h (some a) → s.Issued h ∧ s'.get? h = none) :
    Kept (events ++ [e]) s' := by
  have same : Slots.issued (events ++ [e]) = Slots.issued events := by
    rw [issued_concat, none_issued, Option.toList_none, List.append_nil]
  refine ⟨sound, reclaims, counted, ?_, same ▸ kept.once, stored, ?_⟩
  · rw [same]
    exact fun h mem => issued h (kept.issued h mem)
  · intro h a mem
    rw [List.mem_append, List.mem_singleton] at mem
    rcases mem with mem | rfl
    · obtain ⟨was, gone⟩ := kept.spent h a mem
      exact ⟨issued h was, stale h gone⟩
    · obtain ⟨was, gone⟩ := spent h a rfl
      exact ⟨issued h was, gone⟩

theorem Kept.remove (kept : Kept events s) (h : Handle) :
    Kept (events ++ [(Use.run s (.remove h)).1]) (Use.run s (.remove h)).2 := by
  cases found : s.get? h with
  | none =>
    have stays : Use.run s (.remove h) = (.removed h none, s) := by
      simp [Use.run, Slots.remove?, found]
    rw [stays]
    refine kept.retained rfl kept.sound kept.reclaims kept.counted (fun _ => id) ?_ (fun _ => id) ?_
    · intro k a
      rw [stored_concat]
      simp only [← kept.stored, Event.written?, Option.getD_none, reduceCtorEq, false_or]
      by_cases same : k = h
      · simp [same, found]
      · simp [Ne.symm same]
    · intro k a same
      cases same
  | some value =>
    obtain ⟨s', removed, sound, gone, others⟩ := remove?_spec kept.sound found
    have goes : Use.run s (.remove h) = (.removed h (some value), s') := by simp [Use.run, removed]
    rw [goes]
    refine kept.retained rfl sound (kept.reclaims.remove? removed)
      (kept.counted.remove? kept.sound removed) (fun k issued => issued.remove? removed) ?_ ?_ ?_
    · intro k a
      rw [stored_concat]
      simp only [← kept.stored, Event.written?, Option.getD_none, reduceCtorEq, false_or]
      by_cases same : k = h
      · simp [same, gone]
      · simp [others k same, Ne.symm same]
    · intro k stale
      by_cases same : k = h
      · rw [same, gone]
      · rw [others k same, stale]
    · rintro k a ⟨⟩
      exact ⟨issued_of_get? found, gone⟩

theorem Kept.look (kept : Kept events s) (h : Handle) :
    Kept (events ++ [.looked h (s.get? h)]) s := by
  refine kept.retained rfl kept.sound kept.reclaims kept.counted (fun _ => id) ?_
    (fun _ => id) nofun
  intro k a
  rw [stored_concat]
  simp [← kept.stored, Event.written?]

/-- A value that is written under a stale handle is lost. -/
theorem Kept.write (kept : Kept events s) (h : Handle) (value : α) :
    Kept (events ++ [.wrote h value (s.get? h)]) (s.set h value) := by
  refine kept.retained rfl (kept.sound.set h value) (kept.reclaims.set h value)
    (kept.counted.set h value) (fun k issued => issued.set h value) ?_ ?_ nofun
  · intro k a
    rw [stored_concat]
    simp only [← kept.stored, Event.written?, reduceCtorEq, ne_eq, not_false_eq_true, implies_true,
      true_and, false_or]
    by_cases same : k = h
    · subst same
      cases found : s.get? k with
      | none => simp [set, contains, found]
      | some b => simp [get?_set_self found, eq_comm]
    · simp [get?_set_ne same, Ne.symm same]
  · intro k stale
    cases found : (s.set h value).get? k with
    | none => rfl
    | some a =>
      obtain ⟨b, live⟩ := live_of_set found
      rw [stale] at live
      cases live

theorem Kept.run (kept : Kept events s) (use : Use α) :
    Kept (events ++ [(use.run s).1]) (use.run s).2 := by
  cases use with
  | insert value => exact kept.insert value
  | remove h => exact kept.remove h
  | look h => exact kept.look h
  | write h value => exact kept.write h value

/-- A store keeps what it has kept, whatever it is used for. -/
theorem Kept.replay (kept : Kept events s) (uses : List (Use α)) :
    Kept (events ++ (replay uses s).1) (replay uses s).2 := by
  induction uses generalizing events s with
  | nil => simpa [Slots.replay] using kept
  | cons use uses ih =>
    have rest := ih (kept.run use)
    rwa [List.append_assoc, List.singleton_append] at rest

/-! ## Going through a store -/

theorem mem_entries : (h, a) ∈ s.entries ↔ s.get? h = some a := by
  rw [get?_eq_some]
  simp only [entries, List.mem_filterMap, List.mem_zipIdx_iff_getElem?, Option.map_eq_some_iff,
    Array.getElem?_toList, Prod.exists]
  constructor
  · rintro ⟨slot, index, found, b, value, same⟩
    cases same
    rw [found, ← value]
  · intro found
    exact ⟨⟨h.generation, some a⟩, h.index, found, a, rfl, rfl⟩

/-- The entries stand in the order of their slots, one for each slot at most. -/
theorem entries_ascending (s : Slots α) : s.entries.Pairwise fun x y => x.1.index < y.1.index := by
  have indices : s.slots.toList.zipIdx.Pairwise fun x y => x.2 < y.2 := by
    rw [← List.pairwise_map, List.zipIdx_map_snd]
    exact List.pairwise_lt_range'
  refine List.pairwise_filterMap.mpr (indices.imp ?_)
  rintro ⟨slot, i⟩ ⟨slot', j⟩ before x found y found'
  obtain ⟨a, -, rfl⟩ := Option.map_eq_some_iff.mp found
  obtain ⟨b, -, rfl⟩ := Option.map_eq_some_iff.mp found'
  exact before

theorem Counted.eq_length (counted : s.Counted) : s.size = s.entries.length := by
  obtain ⟨hs, nodup, live, length⟩ := counted
  have once : (s.entries.map Prod.fst).Nodup := by
    refine List.pairwise_map.mpr (s.entries_ascending.imp ?_)
    intro x y before same
    rw [same] at before
    exact Nat.lt_irrefl _ before
  have perm : hs.Perm (s.entries.map Prod.fst) := by
    refine (List.perm_ext_iff_of_nodup nodup once).mpr fun h => ?_
    rw [live, List.mem_map]
    constructor
    · rintro ⟨a, found⟩
      exact ⟨(h, a), mem_entries.mpr found, rfl⟩
    · rintro ⟨⟨k, a⟩, mem, rfl⟩
      exact ⟨a, mem_entries.mp mem⟩
  rw [← length, perm.length_eq, List.length_map]

/-! ## What a store is worth -/

/-- What a history says of the store after it. -/
structure Follows (events : List (Event α)) (s : Slots α) : Prop where
  /-- No handle is issued twice. -/
  once : (issued events).Nodup
  /-- A handle resolves just if it was issued and not removed since, to what was stored last. -/
  stored : ∀ h a, s.get? h = some a ↔ Stored events h a
  /-- What has been removed cannot be removed again; trying to changes nothing. -/
  spent : ∀ h a, .removed h (some a) ∈ events → Use.run s (.remove h) = (.removed h none, s)
  /-- The entries are the live handles with their values, … -/
  entries : ∀ h a, (h, a) ∈ s.entries ↔ s.get? h = some a
  /-- … each once, in the order of the slots, … -/
  ascending : s.entries.Pairwise fun x y => x.1.index < y.1.index
  /-- … and the size is the number of them. -/
  size : s.size = s.entries.length
  /-- The free slots are the empty ones, each listed once. -/
  free : s.free.Nodup ∧
    ∀ index, index ∈ s.free ↔ ∃ generation, s.slots[index]? = some ⟨generation, none⟩

/-- A store is a map whose handles are good for one value each: whatever it is used for, from the
first use on, it holds what its history says. -/
theorem store_follows_its_history (uses : List (Use α)) :
    Follows (replay uses empty).1 (replay uses (empty : Slots α)).2 := by
  have kept : Kept (replay uses empty).1 (replay uses (empty : Slots α)).2 := by
    simpa using kept_empty.replay uses
  refine ⟨kept.once, kept.stored, ?_, fun h a => mem_entries, entries_ascending _,
    kept.counted.eq_length, kept.sound.nodup, fun index => ⟨kept.sound.vacant index, ?_⟩⟩
  · intro h a mem
    have gone := (kept.spent h a mem).2
    simp [Use.run, Slots.remove?, gone]
  · rintro ⟨generation, empty⟩
    exact kept.reclaims index generation empty

/-- A value is removed, its slot is taken anew, and the handle of the older value is used again. -/
def slotReused : List (Use Nat) :=
  [.insert 5, .insert 6, .remove ⟨0, 0⟩, .insert 7, .write ⟨0, 0⟩ 8, .write ⟨1, 0⟩ 9]

theorem slotReused_keeps_values_apart :
    (replay slotReused empty).2.entries = [(⟨0, 1⟩, 7), (⟨1, 0⟩, 9)] ∧
    Event.removed ⟨0, 0⟩ (some 5) ∈ (replay slotReused empty).1 ∧
    Use.run (replay slotReused empty).2 (.remove ⟨0, 0⟩) =
      (.removed ⟨0, 0⟩ none, (replay slotReused empty).2) :=
  ⟨by decide, by decide, (store_follows_its_history slotReused).spent ⟨0, 0⟩ 5 (by decide)⟩

end FormEdit.Slots
