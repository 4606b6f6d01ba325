import FormEdit.Slots
import Mathlib.Data.List.Nodup
import Mathlib.Data.List.Perm.Subperm

/-!
# What a store holds

`get?` after each of the operations that change a store, and `Sound`, the invariant they keep: the
free slots are listed once each and hold nothing, so a fresh handle never resolved before. A handle
that was issued stays so (`Issued`) and is not issued again, places and generations rise no further
than the number of values stored (`Narrow`), and the size of a store is the number of its live
handles (`Counted`).
-/

namespace FormEdit.Slots

variable {α : Type} {s s' : Slots α} {h k : Handle} {a b : α}

theorem get_eq_ok : s.get h = .ok a ↔ s.get? h = some a := by
  simp only [get]
  cases s.get? h <;> simp

theorem get?_eq_some : s.get? h = some a ↔ s.slots[h.index]? = some ⟨h.generation, some a⟩ := by
  simp only [get?]
  cases s.slots[h.index]? with
  | none => simp
  | some slot =>
    obtain ⟨generation, value⟩ := slot
    simp only [Option.some.injEq, Slot.mk.injEq]
    split <;> simp_all

theorem index_lt (found : s.get? h = some a) : h.index < s.slots.size := by
  obtain ⟨bound, -⟩ := Array.getElem?_eq_some_iff.mp (get?_eq_some.mp found)
  exact bound

/-- Two live handles to the same slot are the same handle. -/
theorem eq_of_index (hh : s.get? h = some a) (hk : s.get? k = some b)
    (same : h.index = k.index) : h = k := by
  rw [get?_eq_some] at hh hk
  rw [same, hk] at hh
  cases h
  cases k
  simp_all

/-- A slot that is rewritten for one handle resolves no other. -/
theorem get?_setIfInBounds_ne {slots : Array (Slot α)} {free : List Nat} {size : Nat}
    {value : Option α} (ne : k ≠ h) (old : s.get? k = none ∨ k.index ≠ h.index)
    (slots_eq : slots = s.slots.setIfInBounds h.index ⟨h.generation, value⟩) :
    (Slots.mk slots free size).get? k = s.get? k := by
  subst slots_eq
  by_cases same : h.index = k.index
  · have dead : s.get? k = none := old.resolve_right (fun other => other same.symm)
    have other : h.generation ≠ k.generation := by
      intro generation
      apply ne
      cases h
      cases k
      simp_all
    rw [dead]
    simp only [get?, Array.getElem?_setIfInBounds, same, if_true]
    split
    next slot found =>
      split at found
      next => cases found; simp [other]
      next => cases found
    next => rfl
  · simp only [get?, Array.getElem?_setIfInBounds, same, if_false]

theorem set_eq (found : s.get? h = some a) (b : α) :
    s.set h b = { s with slots := s.slots.setIfInBounds h.index ⟨h.generation, some b⟩ } := by
  simp [set, contains, found]

theorem get?_set_self (found : s.get? h = some a) (b : α) : (s.set h b).get? h = some b := by
  rw [set_eq found, get?_eq_some]
  simp [index_lt found]

theorem get?_set_ne (ne : k ≠ h) (b : α) : (s.set h b).get? k = s.get? k := by
  by_cases live : s.contains h = true
  · obtain ⟨a, found⟩ := Option.isSome_iff_exists.mp live
    rw [set_eq found]
    refine get?_setIfInBounds_ne ne ?_ rfl
    by_cases same : k.index = h.index
    · left
      cases other : s.get? k with
      | none => rfl
      | some c => exact absurd (eq_of_index other found same) ne
    · exact .inr same
  · simp [set, live]

/-- Storing another value under a handle makes no other handle live. -/
theorem live_of_set {b : α} (found : (s.set h b).get? k = some a) : ∃ a, s.get? k = some a := by
  by_cases same : k = h
  · subst same
    cases live : s.get? k with
    | some a => exact ⟨a, rfl⟩
    | none =>
      rw [set, if_neg (by simp [contains, live]), live] at found
      cases found
  · exact ⟨a, (get?_set_ne same b).symm.trans found⟩

theorem live_set {b : α} : (∃ a, (s.set h b).get? k = some a) ↔ ∃ a, s.get? k = some a := by
  constructor
  · rintro ⟨a, found⟩
    exact live_of_set found
  · rintro ⟨a, found⟩
    by_cases same : k = h
    · subst same
      exact ⟨b, get?_set_self found b⟩
    · exact ⟨a, (get?_set_ne same b).trans found⟩

@[simp] theorem count_set (s : Slots α) (h : Handle) (b : α) : (s.set h b).size = s.size := by
  simp only [set]
  split <;> rfl

theorem modify_eq_ok (found : s.get? h = some a) (f : α → α) :
    s.modify h f = .ok (s.set h (f a)) := by
  rw [modify, get_eq_ok.mpr found]
  rfl

/-- The free slots are listed once each, and nothing is in them. -/
structure Sound (s : Slots α) : Prop where
  nodup : s.free.Nodup
  vacant : ∀ index ∈ s.free, ∃ generation, s.slots[index]? = some ⟨generation, none⟩

theorem sound_empty : (empty : Slots α).Sound := ⟨List.nodup_nil, by simp [empty]⟩

theorem Sound.set (sound : s.Sound) (h : Handle) (b : α) : (s.set h b).Sound := by
  by_cases live : s.contains h = true
  · obtain ⟨a, found⟩ := Option.isSome_iff_exists.mp live
    rw [set_eq found]
    refine ⟨sound.nodup, ?_⟩
    intro index free
    obtain ⟨generation, slot⟩ := sound.vacant index free
    have apart : h.index ≠ index := by
      rintro rfl
      rw [get?_eq_some.mp found] at slot
      cases slot
    exact ⟨generation, by simpa [apart] using slot⟩
  · simpa [Slots.set, live] using sound

/-- What `insert` does to a sound store. -/
structure Inserted (s : Slots α) (a : α) (h : Handle) (s' : Slots α) : Prop where
  sound : s'.Sound
  fresh : s.get? h = none
  found : s'.get? h = some a
  others : ∀ k, k ≠ h → s'.get? k = s.get? k
  size : s.slots.size ≤ s'.slots.size

theorem insert_spec (sound : s.Sound) (a : α) :
    Inserted s a (s.insert a).1 (s.insert a).2 := by
  unfold insert
  split
  next index free listed =>
    obtain ⟨generation, slot⟩ := sound.vacant index (by simp [listed])
    obtain ⟨bound, -⟩ := Array.getElem?_eq_some_iff.mp slot
    have count : s.generationOf index = generation := by simp [generationOf, slot]
    have nodup : index ∉ free ∧ free.Nodup := by
      simpa [listed] using sound.nodup
    have none_at (k : Handle) (at_index : k.index = index) : s.get? k = none := by
      simp only [get?, at_index, slot]
      split <;> rfl
    refine ⟨⟨nodup.2, ?_⟩, none_at _ rfl, ?_, ?_, by simp⟩
    · intro other mem
      obtain ⟨g, hg⟩ := sound.vacant other (by simp [listed, mem])
      have apart : index ≠ other := by
        rintro rfl
        exact nodup.1 mem
      exact ⟨g, by simpa [apart] using hg⟩
    · rw [get?_eq_some]
      simp [bound]
    · intro k ne
      refine get?_setIfInBounds_ne (h := ⟨index, s.generationOf index + 1⟩) ne ?_ rfl
      by_cases same : k.index = index
      · exact .inl (none_at k same)
      · exact .inr same
  next listed =>
    refine ⟨⟨List.nodup_nil, by simp⟩, by simp [get?], ?_, ?_, by simp⟩
    · rw [get?_eq_some]
      simp
    · intro k ne
      simp only [get?, Array.getElem?_push]
      by_cases at_end : k.index = s.slots.size
      · have other : k.generation ≠ 0 := by
          intro zero
          apply ne
          cases k
          simp_all
        simp [at_end, Ne.symm other]
      · rw [if_neg at_end]

/-- What `remove?` does to a sound store. -/
theorem remove?_spec (sound : s.Sound) (found : s.get? h = some a) :
    ∃ s', s.remove? h = some (a, s') ∧ s'.Sound ∧ s'.get? h = none ∧
      ∀ k, k ≠ h → s'.get? k = s.get? k := by
  refine ⟨⟨s.slots.setIfInBounds h.index ⟨h.generation, none⟩, h.index :: s.free, s.size - 1⟩,
    by simp [remove?, found], ⟨?_, ?_⟩, ?_, ?_⟩
  · refine List.nodup_cons.mpr ⟨?_, sound.nodup⟩
    intro free
    obtain ⟨generation, slot⟩ := sound.vacant _ free
    rw [get?_eq_some.mp found] at slot
    cases slot
  · intro index free
    by_cases same : h.index = index
    · exact ⟨h.generation, by simp [← same, index_lt found]⟩
    · obtain ⟨generation, slot⟩ := sound.vacant index (by simpa [Ne.symm same] using free)
      exact ⟨generation, by simpa [same] using slot⟩
  · simp [get?, index_lt found]
  · intro k ne
    refine get?_setIfInBounds_ne ne ?_ rfl
    by_cases same : k.index = h.index
    · left
      cases other : s.get? k with
      | none => rfl
      | some c => exact absurd (eq_of_index other found same) ne
    · exact .inr same

/-- Only a live handle is removed, and the size goes down by one. -/
theorem of_remove? (removed : s.remove? h = some (a, s')) :
    s.get? h = some a ∧ s'.size = s.size - 1 := by
  obtain ⟨b, found, equal⟩ := Option.map_eq_some_iff.mp removed
  cases equal
  exact ⟨found, rfl⟩

/-- A list of live handles without repetition is no longer than the store. -/
theorem length_le_size {hs : List Handle} (nodup : hs.Nodup)
    (live : ∀ h ∈ hs, ∃ a, s.get? h = some a) : hs.length ≤ s.slots.size := by
  have indices : (hs.map Handle.index).Nodup := by
    refine (List.nodup_map_iff_inj_on nodup).mpr ?_
    intro h hh k hk same
    obtain ⟨a, ha⟩ := live h hh
    obtain ⟨b, hb⟩ := live k hk
    exact eq_of_index ha hb same
  have below : ∀ i ∈ hs.map Handle.index, i < s.slots.size := by
    intro i hi
    obtain ⟨h, hh, rfl⟩ := List.mem_map.mp hi
    obtain ⟨a, ha⟩ := live h hh
    exact index_lt ha
  have sub : hs.map Handle.index ⊆ List.range s.slots.size := fun i hi =>
    List.mem_range.mpr (below i hi)
  simpa using (indices.subperm sub).length_le

/-! ## Handles that were issued, and how many are live -/

/-- The handle has been issued by the store, whether or not it still resolves. -/
def Issued (s : Slots α) (h : Handle) : Prop :=
  ∃ slot, s.slots[h.index]? = some slot ∧ h.generation ≤ slot.generation

theorem issued_of_get? (found : s.get? h = some a) : s.Issued h :=
  ⟨_, get?_eq_some.mp found, Nat.le_refl _⟩

/-- A slot that is rewritten without lowering its generation. -/
theorem Issued.rewritten {index : Nat} {slot : Slot α} (issued : s.Issued h)
    (rises : ∀ old, s.slots[index]? = some old → old.generation ≤ slot.generation)
    (slots : s'.slots = s.slots.setIfInBounds index slot) : s'.Issued h := by
  obtain ⟨old, found, bound⟩ := issued
  by_cases same : h.index = index
  · subst same
    obtain ⟨inside, -⟩ := Array.getElem?_eq_some_iff.mp found
    exact ⟨slot, by simp [slots, inside], Nat.le_trans bound (rises old found)⟩
  · exact ⟨old, by simpa [slots, Ne.symm same] using found, bound⟩

theorem Issued.insert (issued : s.Issued h) (a : α) : (s.insert a).2.Issued h := by
  unfold Slots.insert
  split
  next index free listed =>
    refine issued.rewritten ?_ rfl
    intro old found
    simp [generationOf, found]
  next =>
    obtain ⟨slot, found, bound⟩ := issued
    obtain ⟨inside, -⟩ := Array.getElem?_eq_some_iff.mp found
    refine ⟨slot, ?_, bound⟩
    simpa [Array.getElem?_push, Nat.ne_of_lt inside] using found

/-- A handle is issued only once. -/
theorem not_issued_insert (s : Slots α) (a : α) : ¬s.Issued (s.insert a).1 := by
  rintro ⟨slot, found, bound⟩
  cases listed : s.free with
  | nil => simp [Slots.insert, listed] at found
  | cons index free =>
    simp only [Slots.insert, listed] at found bound
    simp only [generationOf, found] at bound
    omega

theorem size_insert (s : Slots α) (a : α) : (s.insert a).2.size = s.size + 1 := by
  unfold Slots.insert
  split <;> rfl

theorem Issued.remove? (removed : s.remove? k = some (a, s')) (issued : s.Issued h) :
    s'.Issued h := by
  rw [Slots.remove?, Option.map_eq_some_iff] at removed
  obtain ⟨_, found, same⟩ := removed
  cases same
  refine issued.rewritten ?_ rfl
  intro old there
  rw [get?_eq_some.mp found] at there
  cases there
  exact Nat.le_refl _

theorem Issued.set (issued : s.Issued h) (k : Handle) (b : α) : (s.set k b).Issued h := by
  unfold Slots.set
  split
  next live =>
    obtain ⟨a, found⟩ := Option.isSome_iff_exists.mp live
    refine issued.rewritten ?_ rfl
    intro old there
    rw [get?_eq_some.mp found] at there
    cases there
    exact Nat.le_refl _
  next => exact issued

/-- There are no more slots than the bound, and none has been taken anew as often. -/
structure Narrow (s : Slots α) (bound : Nat) : Prop where
  size : s.slots.size ≤ bound
  generation : ∀ (index : Nat) (slot : Slot α), s.slots[index]? = some slot →
    slot.generation < bound

theorem narrow_empty (bound : Nat) : (empty : Slots α).Narrow bound :=
  ⟨by simp [empty], by simp [empty]⟩

theorem Narrow.mono {bound bound' : Nat} (narrow : s.Narrow bound) (le : bound ≤ bound') :
    s.Narrow bound' where
  size := Nat.le_trans narrow.size le
  generation := fun index slot found => Nat.lt_of_lt_of_le (narrow.generation index slot found) le

theorem Narrow.rewritten {bound index : Nat} {slot : Slot α} (narrow : s.Narrow bound)
    (below : ∀ old, s.slots[index]? = some old → slot.generation < bound)
    (slots : s'.slots = s.slots.setIfInBounds index slot) : s'.Narrow bound where
  size := by simpa [slots] using narrow.size
  generation := by
    intro other old found
    rw [slots, Array.getElem?_setIfInBounds] at found
    split at found
    next =>
      split at found
      next inside =>
        cases found
        exact below _ (Array.getElem?_eq_getElem inside)
      next => cases found
    next => exact narrow.generation other old found

/-- What is stored moves the bound by one. -/
theorem Narrow.insert {bound : Nat} (narrow : s.Narrow bound) (a : α) :
    (s.insert a).2.Narrow (bound + 1) := by
  unfold Slots.insert
  split
  next index free listed =>
    refine (narrow.mono (Nat.le_succ bound)).rewritten ?_ rfl
    intro old found
    rw [generationOf, found]
    exact Nat.succ_lt_succ (narrow.generation index old found)
  next =>
    refine ⟨by simpa using narrow.size, ?_⟩
    intro index slot found
    rw [Array.getElem?_push] at found
    split at found
    · cases found
      exact Nat.succ_pos bound
    · exact Nat.lt_succ_of_lt (narrow.generation index slot found)

theorem Narrow.remove? {bound : Nat} (narrow : s.Narrow bound)
    (removed : s.remove? h = some (a, s')) :
    s'.Narrow bound := by
  obtain ⟨b, found, same⟩ := Option.map_eq_some_iff.mp removed
  cases same
  have below : h.generation < bound := narrow.generation h.index _ (get?_eq_some.mp found)
  exact narrow.rewritten (fun _ _ => below) rfl

theorem Narrow.set {bound : Nat} (narrow : s.Narrow bound) (h : Handle) (b : α) :
    (s.set h b).Narrow bound := by
  unfold Slots.set
  split
  next live =>
    obtain ⟨a, found⟩ := Option.isSome_iff_exists.mp live
    have below : h.generation < bound := narrow.generation h.index _ (get?_eq_some.mp found)
    exact narrow.rewritten (fun _ _ => below) rfl
  next => exact narrow

/-- The handles that resolve, and their number. -/
def Counted (s : Slots α) : Prop :=
  ∃ hs : List Handle, hs.Nodup ∧ (∀ h, h ∈ hs ↔ ∃ a, s.get? h = some a) ∧ hs.length = s.size

theorem counted_empty : (empty : Slots α).Counted := ⟨[], .nil, by simp [get?, empty], rfl⟩

theorem Counted.insert (counted : s.Counted) (sound : s.Sound) (a : α) :
    (s.insert a).2.Counted := by
  obtain ⟨hs, nodup, live, length⟩ := counted
  have inserted := insert_spec sound a
  refine ⟨(s.insert a).1 :: hs, List.nodup_cons.mpr ⟨?_, nodup⟩, ?_, by simp [size_insert, length]⟩
  · intro mem
    obtain ⟨b, found⟩ := (live _).mp mem
    rw [inserted.fresh] at found
    cases found
  · intro k
    rw [List.mem_cons, live]
    by_cases new : k = (s.insert a).1
    · simp only [new, inserted.found, true_or, true_iff]
      exact ⟨a, rfl⟩
    · simp only [new, false_or, inserted.others k new]

theorem Counted.remove? (counted : s.Counted) (sound : s.Sound)
    (removed : s.remove? h = some (a, s')) :
    s'.Counted := by
  obtain ⟨found, size⟩ := of_remove? removed
  obtain ⟨s₁, removed', -, gone, others⟩ := remove?_spec sound found
  cases removed.symm.trans removed'
  obtain ⟨hs, nodup, live, length⟩ := counted
  have listed : h ∈ hs := (live h).mpr ⟨a, found⟩
  refine ⟨hs.erase h, nodup.erase h, ?_, by rw [List.length_erase_of_mem listed, length, size]⟩
  intro k
  rw [nodup.mem_erase_iff, live]
  by_cases same : k = h
  · simp [same, gone]
  · simp only [ne_eq, same, not_false_eq_true, true_and, others k same]

/-- A store of the same size that has the same live handles. -/
theorem Counted.congr (counted : s.Counted) (size : s'.size = s.size)
    (live : ∀ k, (∃ a, s'.get? k = some a) ↔ ∃ a, s.get? k = some a) : s'.Counted := by
  obtain ⟨hs, nodup, listed, length⟩ := counted
  exact ⟨hs, nodup, fun k => (listed k).trans (live k).symm, by rw [length, size]⟩

/-- Two stores that have all but some of their handles in common. -/
theorem Counted.size_exchange {gone fresh : List Handle} (counted : s.Counted)
    (counted' : s'.Counted) (nodup : gone.Nodup) (nodup' : fresh.Nodup)
    (was : ∀ k ∈ gone, ∃ a, s.get? k = some a) (new : ∀ k ∈ fresh, s.get? k = none)
    (live : ∀ k, (∃ a, s'.get? k = some a) ↔ k ∈ fresh ∨ (∃ a, s.get? k = some a) ∧ k ∉ gone) :
    s'.size + gone.length = s.size + fresh.length := by
  obtain ⟨hs, distinct, listed, length⟩ := counted
  obtain ⟨hs', distinct', listed', length'⟩ := counted'
  have left : (hs' ++ gone).Nodup := by
    refine List.nodup_append.mpr ⟨distinct', nodup, ?_⟩
    rintro k mem _ gone' rfl
    rcases (live k).mp ((listed' k).mp mem) with mem | mem
    · obtain ⟨a, found⟩ := was k gone'
      cases found.symm.trans (new k mem)
    · exact mem.2 gone'
  have right : (hs ++ fresh).Nodup := by
    refine List.nodup_append.mpr ⟨distinct, nodup', ?_⟩
    rintro k mem _ fresh' rfl
    obtain ⟨a, found⟩ := (listed k).mp mem
    cases found.symm.trans (new k fresh')
  have same : (hs' ++ gone).Perm (hs ++ fresh) := by
    refine (List.perm_ext_iff_of_nodup left right).mpr fun k => ?_
    rw [List.mem_append, List.mem_append, listed', listed, live]
    by_cases mem : k ∈ gone
    · simp [mem, was k mem]
    · simp [mem, or_comm]
  have total := same.length_eq
  rwa [List.length_append, List.length_append, length, length'] at total

theorem Counted.set (counted : s.Counted) (h : Handle) (b : α) : (s.set h b).Counted :=
  counted.congr (count_set s h b) fun _ => live_set

end FormEdit.Slots
