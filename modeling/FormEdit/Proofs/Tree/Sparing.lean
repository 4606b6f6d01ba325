import FormEdit.Proofs.Tree.Replacing

/-!
# What planting and freeing leave alone

Planting and freeing nodes changes none that was there: a handle that had been issued before
resolves afterwards to what it resolved to then, or to nothing (`Spares`). This asks nothing of the
store, neither that its links agree nor that its free slots are free. So what takes the place of a
node without a parent has no parent either (`parent_substitute`).
-/

namespace FormEdit

namespace Slots

variable {α : Type} {s s' s'' : Slots α} {h : Handle} {a : α}

/-- Handles that had been issued resolve to what they resolved to, or to nothing. -/
structure Spares (s s' : Slots α) : Prop where
  issued : ∀ {k}, s.Issued k → s'.Issued k
  same : ∀ {k a}, s.Issued k → s'.get? k = some a → s.get? k = some a

theorem Spares.refl (s : Slots α) : Spares s s := ⟨id, fun _ => id⟩

theorem Spares.trans (first : Spares s s') (second : Spares s' s'') : Spares s s'' where
  issued issued := second.issued (first.issued issued)
  same issued found := first.same issued (second.same (first.issued issued) found)

theorem insert_spares (s : Slots α) (a : α) : Spares s (s.insert a).2 where
  issued issued := issued.insert a
  same := by
    intro k b issued found
    have bound := issued
    obtain ⟨slot, old, generation⟩ := bound
    rw [get?_eq_some] at found ⊢
    unfold Slots.insert at found
    split at found
    next index free listed =>
      by_cases same : index = k.index
      · subst same
        have inside := (Array.getElem?_eq_some_iff.mp old).1
        simp only [generationOf, old, Array.getElem?_setIfInBounds_self_of_lt, inside,
          Option.some.injEq, Slot.mk.injEq] at found
        omega
      · simpa [same] using found
    next =>
      have inside := (Array.getElem?_eq_some_iff.mp old).1
      simpa [Array.getElem?_push, Nat.ne_of_lt inside] using found

/-- A value that is stored under a newer handle is not in the way of the older ones. -/
theorem Spares.set (spares : Spares s s') (fresh : ¬s.Issued h) (a : α) :
    Spares s (s'.set h a) where
  issued issued := (spares.issued issued).set h a
  same := by
    intro k b issued found
    have ne : k ≠ h := by
      rintro rfl
      exact fresh issued
    rw [get?_set_ne ne] at found
    exact spares.same issued found

theorem remove?_spares (removed : s.remove? h = some (a, s')) : Spares s s' where
  issued issued := issued.remove? removed
  same := by
    intro k b issued found
    obtain ⟨m, live, equal⟩ := Option.map_eq_some_iff.mp removed
    cases equal
    have other : k.index ≠ h.index := by
      intro same
      rw [get?_eq_some, same] at found
      simp [index_lt live] at found
    rw [get?_eq_some] at found ⊢
    simpa [Ne.symm other] using found

end Slots

namespace Tree

open Slots

variable {t t' : Tree} {old new : Handle}

theorem plantEach_spares {parts : List Form}
    (each : ∀ f ∈ parts, ∀ parent s ids, Spares s (plantUnder parent f (s, ids)).2.1)
    (h : Handle) (s : Slots Node) (ids : IdSource) : Spares s (plantEach h parts (s, ids)).2.1 := by
  induction parts generalizing s ids with
  | nil => exact .refl s
  | cons f parts ih =>
    have first := each f (by simp) (some h) s ids
    have rest := ih (fun g mem => each g (by simp [mem])) (plantUnder (some h) f (s, ids)).2.1
      (plantUnder (some h) f (s, ids)).2.2
    exact first.trans rest

theorem plantUnder_spares (f : Form) (parent : Option Handle) (s : Slots Node) (ids : IdSource) :
    Spares s (plantUnder parent f (s, ids)).2.1 := by
  induction f using Rose.induction generalizing parent s ids with
  | node tag parts ih =>
    let bare : Node := ⟨ids.draw.1, tag.kind, tag.span, parent, []⟩
    have children := plantEach_spares ih (s.insert bare).1 (s.insert bare).2 ids.draw.2
    exact ((insert_spares s bare).trans children).set (not_issued_insert s bare) _

theorem freeUnder_spares (steps : Nat) (s : Slots Node) (h : Handle) :
    Spares s (freeUnder steps s h) := by
  induction steps generalizing s h with
  | zero => exact .refl s
  | succ steps ih =>
    have each (hs : List Handle) (s : Slots Node) :
        Spares s (hs.foldl (fun nodes child => freeUnder steps nodes child) s) := by
      induction hs generalizing s with
      | nil => exact .refl s
      | cons c hs ihs => exact (ih s c).trans (ihs _)
    rw [freeUnder]
    split
    next node freed removed => exact (remove?_spares removed).trans (each _ freed)
    next => exact .refl s

/-- Planting gives no parent to a node that was there without one. -/
theorem parent_plant {f : Form} {ids : IdSource} (top : t.parent old = .ok none) (p : Handle) :
    (t.plant f ids).2.1.parent old ≠ .ok (some p) := by
  obtain ⟨n, found, orphan⟩ := bind_eq_ok.mp top
  have live := get_eq_ok.mp found
  intro above
  obtain ⟨m, stored, child⟩ := bind_eq_ok.mp above
  have kept : t.nodes.get? old = some m :=
    (plantUnder_spares f none t.nodes ids).same (issued_of_get? live) (get_eq_ok.mp stored)
  rw [live] at kept
  cases kept
  have both := orphan.symm.trans child
  cases both

/-- What takes the place of a node without a parent has none either. -/
theorem parent_substitute (top : ∀ p, t.parent old ≠ .ok (some p))
    (done : t.substitute old new = .ok t') (p : Handle) : t'.parent new ≠ .ok (some p) := by
  obtain ⟨t₁, seated, freed⟩ := bind_eq_ok.mp done
  cases freed
  obtain ⟨seat, is_seat, seated⟩ := bind_eq_ok.mp seated
  obtain ⟨parent, above, place⟩ := bind_eq_ok.mp is_seat
  cases parent with
  | some q => exact absurd above (top q)
  | none =>
    cases place
    obtain ⟨nodes, modified, seated⟩ := bind_eq_ok.mp seated
    cases seated
    obtain ⟨n, found, modified⟩ := bind_eq_ok.mp modified
    cases modified
    have stored := get?_set_self (get_eq_ok.mp found) ({ n with parent := none } : Node)
    intro above
    obtain ⟨m, found', child⟩ := bind_eq_ok.mp above
    have kept := (freeUnder_spares _ _ old).same (issued_of_get? stored) (get_eq_ok.mp found')
    rw [stored] at kept
    cases kept
    cases child

end Tree

end FormEdit
