import FormEdit.Proofs.Checked
import FormEdit.Proofs.Slots
import FormEdit.Tree.Shift

/-!
# Moving nodes there and back

Which nodes a move visits depends on the links alone. So when one store is moved by a distance and
another with the same links by the opposite distance, each visit adds to a span of the one what it
takes from that of the other: the sums stay (`Balanced`). Moving the result of a move back therefore
restores the store, whatever its links are: `moveSuccessors_back`.
-/

namespace FormEdit

/-- The node without its place in the text. -/
def Node.bare (n : Node) : Node := { n with span := Span.empty 0 }

theorem Node.eq_of_bare {n m : Node} (h : n.bare = m.bare) (span : n.span = m.span) : n = m := by
  cases n
  cases m
  simp_all [Node.bare]

namespace Slots

/-- The store without the places of its nodes. -/
def bare (s : Slots Node) : Slots Node :=
  { s with slots := s.slots.map fun slot => { slot with value := slot.value.map Node.bare } }

/-- Where the node in a slot starts or stops. -/
def edgeAt (edge : Span → Nat) (s : Slots Node) (index : Nat) : Nat :=
  ((s.slots[index]?.bind Slot.value).map fun n => edge n.span).getD 0

theorem bare_get? (s : Slots Node) (h : Handle) : s.bare.get? h = (s.get? h).map Node.bare := by
  simp only [get?, bare, Array.getElem?_map]
  cases s.slots[h.index]? with
  | none => rfl
  | some slot =>
    simp only [Option.map_some]
    split <;> rfl

/-- Storing a node with another span changes that span only. -/
theorem bare_set {s : Slots Node} {h : Handle} {n : Node} (found : s.get? h = some n)
    (span : Span) : (s.set h { n with span := span }).bare = s.bare := by
  have slot := get?_eq_some.mp found
  simp only [set, contains, found, Option.isSome_some, if_true, bare, Slots.mk.injEq, and_self,
    and_true]
  apply Array.ext_getElem?
  intro i
  simp only [Array.getElem?_map, Array.getElem?_setIfInBounds]
  split
  next hi =>
    subst hi
    split
    next bound => simp [slot, Node.bare]
    next bound => simp [Array.getElem?_eq_none (Nat.le_of_not_lt bound)] at slot
  next => rfl

/-- Where a node starts or stops once it is stored with another span. -/
theorem edgeAt_set (edge : Span → Nat) {s : Slots Node} {h : Handle} {n : Node}
    (found : s.get? h = some n) (span : Span) (i : Nat) :
    (s.set h { n with span := span }).edgeAt edge i =
      if i = h.index then edge span else s.edgeAt edge i := by
  obtain ⟨bound, -⟩ := Array.getElem?_eq_some_iff.mp (get?_eq_some.mp found)
  simp only [set, contains, found, Option.isSome_some, if_true, edgeAt,
    Array.getElem?_setIfInBounds]
  by_cases hi : i = h.index
  · simp [hi, bound]
  · simp [hi, Ne.symm hi]

theorem edgeAt_of_get? (edge : Span → Nat) {s : Slots Node} {h : Handle} {n : Node}
    (found : s.get? h = some n) : s.edgeAt edge h.index = edge n.span := by
  simp [edgeAt, get?_eq_some.mp found]

/-- A store is known by its links and the places of its nodes. -/
theorem eq_of_bare {s t : Slots Node} (links : s.bare = t.bare)
    (starts : ∀ i, s.edgeAt Span.start i = t.edgeAt Span.start i)
    (stops : ∀ i, s.edgeAt Span.stop i = t.edgeAt Span.stop i) : s = t := by
  obtain ⟨slots, free, size⟩ := s
  obtain ⟨slots', free', size'⟩ := t
  simp only [bare, Slots.mk.injEq] at links
  obtain ⟨hslots, rfl, rfl⟩ := links
  simp only [Slots.mk.injEq, and_self, and_true]
  apply Array.ext_getElem?
  intro i
  have same := congrArg (fun a => a[i]?) hslots
  have start := starts i
  have stop := stops i
  simp only [Array.getElem?_map, edgeAt] at same start stop
  cases hs : slots[i]? with
  | none => simpa [hs] using same.symm
  | some slot =>
    cases ht : slots'[i]? with
    | none => simp [hs, ht] at same
    | some slot' =>
      obtain ⟨generation, value⟩ := slot
      obtain ⟨generation', value'⟩ := slot'
      simp only [hs, ht, Option.map_some, Option.bind_some, Option.some.injEq, Slot.mk.injEq]
        at same start stop ⊢
      refine ⟨same.1, ?_⟩
      cases value with
      | none => simpa [eq_comm] using same.2
      | some n =>
        cases value' with
        | none => simp at same
        | some m =>
          simp only [Option.map_some, Option.some.injEq, Option.getD_some] at same start stop ⊢
          apply Node.eq_of_bare same.2
          cases hn : n.span
          cases hm : m.span
          simp_all

/-- Two stores of the same links, moved to two others: what a span of the one gains, the span in
the same slot of the other loses. -/
structure Balanced (s t s' t' : Slots Node) : Prop where
  left : s'.bare = s.bare
  right : t'.bare = t.bare
  start : ∀ i, s'.edgeAt Span.start i + t'.edgeAt Span.start i =
    s.edgeAt Span.start i + t.edgeAt Span.start i
  stop : ∀ i, s'.edgeAt Span.stop i + t'.edgeAt Span.stop i =
    s.edgeAt Span.stop i + t.edgeAt Span.stop i

theorem Balanced.refl (s t : Slots Node) : Balanced s t s t :=
  ⟨rfl, rfl, fun _ => rfl, fun _ => rfl⟩

theorem Balanced.trans {s t s' t' s'' t'' : Slots Node} (h : Balanced s t s' t')
    (h' : Balanced s' t' s'' t'') : Balanced s t s'' t'' :=
  ⟨h'.left.trans h.left, h'.right.trans h.right, fun i => (h'.start i).trans (h.start i),
    fun i => (h'.stop i).trans (h.stop i)⟩

/-- Moved there and back, a store is what it was. -/
theorem Balanced.back {s s' s'' : Slots Node} (h : Balanced s s' s' s'') : s'' = s := by
  apply eq_of_bare (h.right.trans h.left)
  · intro i
    have := h.start i
    omega
  · intro i
    have := h.stop i
    omega

theorem balanced_set {s t : Slots Node} {h : Handle} {n m : Node} {a b : Span}
    (hs : s.get? h = some n) (ht : t.get? h = some m)
    (start : a.start + b.start = n.span.start + m.span.start)
    (stop : a.stop + b.stop = n.span.stop + m.span.stop) :
    Balanced s t (s.set h { n with span := a }) (t.set h { m with span := b }) := by
  refine ⟨bare_set hs a, bare_set ht b, ?_, ?_⟩
  · intro i
    rw [edgeAt_set _ hs, edgeAt_set _ ht]
    by_cases hi : i = h.index
    · simp only [hi, if_true, edgeAt_of_get? _ hs, edgeAt_of_get? _ ht]
      omega
    · simp only [hi, if_false]
  · intro i
    rw [edgeAt_set _ hs, edgeAt_set _ ht]
    by_cases hi : i = h.index
    · simp only [hi, if_true, edgeAt_of_get? _ hs, edgeAt_of_get? _ ht]
      omega
    · simp only [hi, if_false]

end Slots

/-! ## Spans -/

theorem shiftPosition_eq_ok {position moved : Nat} {distance : Int}
    (h : shiftPosition position distance = .ok moved) : (moved : Int) = position + distance := by
  simp only [shiftPosition] at h
  split at h
  next bounds =>
    cases h
    omega
  next => cases h

theorem Span.make_eq_ok {start stop : Nat} {s : Span} (h : Span.make start stop = .ok s) :
    s.start = start ∧ s.stop = stop := by
  simp only [Span.make] at h
  split at h
  next => cases h; exact ⟨rfl, rfl⟩
  next => cases h

theorem Span.shift_eq_ok {s t : Span} {distance : Int} (h : s.shift distance = .ok t) :
    (t.start : Int) = s.start + distance ∧ (t.stop : Int) = s.stop + distance := by
  obtain ⟨start, hstart, h⟩ := bind_eq_ok.mp h
  obtain ⟨stop, hstop, h⟩ := bind_eq_ok.mp h
  obtain ⟨rfl, rfl⟩ := Span.make_eq_ok h
  exact ⟨shiftPosition_eq_ok hstart, shiftPosition_eq_ok hstop⟩

theorem Span.stretch_eq_ok {s t : Span} {distance : Int} (h : s.stretch distance = .ok t) :
    t.start = s.start ∧ (t.stop : Int) = s.stop + distance := by
  obtain ⟨stop, hstop, h⟩ := bind_eq_ok.mp h
  obtain ⟨hstart, rfl⟩ := Span.make_eq_ok h
  exact ⟨hstart, shiftPosition_eq_ok hstop⟩

/-! ## Links stay -/

namespace Tree

open Slots

/-- Only spans differ between the two trees. -/
def Alike (t u : Tree) : Prop := t.nodes.bare = u.nodes.bare ∧ t.root = u.root

theorem Alike.trans {t u v : Tree} (h : Alike t u) (h' : Alike u v) : Alike t v :=
  ⟨h.1.trans h'.1, h.2.trans h'.2⟩

theorem moveAll_kept {distance : Int} {steps : Nat} {waiting : List Handle} {s s' : Slots Node}
    (moved : moveAll distance steps s waiting = .ok s') : s'.bare = s.bare := by
  induction steps generalizing s waiting with
  | zero =>
    cases waiting with
    | nil => cases moved; rfl
    | cons h waiting => cases moved
  | succ steps ih =>
    cases waiting with
    | nil => cases moved; rfl
    | cons h waiting =>
      obtain ⟨n, hn, moved⟩ := bind_eq_ok.mp moved
      obtain ⟨a, ha, moved⟩ := bind_eq_ok.mp moved
      exact (ih moved).trans (bare_set (get_eq_ok.mp hn) a)

theorem move_kept {distance : Int} {t t' : Tree} {h : Handle}
    (moved : t.move h distance = .ok t') : Alike t' t := by
  obtain ⟨s, hs, moved⟩ := bind_eq_ok.mp moved
  cases moved
  exact ⟨moveAll_kept hs, rfl⟩

theorem moveEach_kept {distance : Int} {t t' : Tree} {hs : List Handle}
    (moved : hs.foldlM (fun t h => t.move h distance) t = .ok t') : Alike t' t := by
  induction hs generalizing t with
  | nil => cases moved; exact ⟨rfl, rfl⟩
  | cons h hs ih =>
    obtain ⟨t₁, one, moved⟩ := bind_eq_ok.mp moved
    exact (ih moved).trans (move_kept one)

theorem stretch_kept {distance : Int} {t t' : Tree} {h : Handle}
    (moved : t.stretch h distance = .ok t') : Alike t' t := by
  obtain ⟨n, hn, moved⟩ := bind_eq_ok.mp moved
  obtain ⟨a, ha, moved⟩ := bind_eq_ok.mp moved
  simp only [node] at hn
  simp only [setSpan, Slots.modify, hn, ok_bind, pure_eq_ok, Except.ok.injEq] at moved
  subst moved
  exact ⟨bare_set (get_eq_ok.mp hn) a, rfl⟩

theorem moveAround_kept {distance : Int} {steps : Nat} {t t' : Tree} {h : Handle}
    (moved : moveAround distance steps t h = .ok t') : Alike t' t := by
  induction steps generalizing t h with
  | zero => cases moved
  | succ steps ih =>
    obtain ⟨seat, hseat, moved⟩ := bind_eq_ok.mp moved
    cases seat with
    | none => cases moved; exact ⟨rfl, rfl⟩
    | some seat =>
      dsimp only at moved
      obtain ⟨siblings, hsiblings, moved⟩ := bind_eq_ok.mp moved
      obtain ⟨t₁, first, moved⟩ := bind_eq_ok.mp moved
      obtain ⟨t₂, second, moved⟩ := bind_eq_ok.mp moved
      exact ((ih moved).trans (stretch_kept second)).trans (moveEach_kept first)

/-! ## Opposite moves -/

theorem bare_of_get? {s t : Slots Node} (same : s.bare = t.bare) {h : Handle} {n m : Node}
    (hs : s.get? h = some n) (ht : t.get? h = some m) : n.bare = m.bare := by
  have hs' := bare_get? s h
  have ht' := bare_get? t h
  rw [same, ht', hs, ht] at hs'
  simpa using hs'.symm

theorem moveAll_balanced {distance : Int} {steps : Nat} {waiting : List Handle}
    {s t s' t' : Slots Node} (same : s.bare = t.bare)
    (hs : moveAll distance steps s waiting = .ok s')
    (ht : moveAll (-distance) steps t waiting = .ok t') : Balanced s t s' t' := by
  induction steps generalizing s t waiting with
  | zero =>
    cases waiting with
    | nil => cases hs; cases ht; exact .refl _ _
    | cons h waiting => cases hs
  | succ steps ih =>
    cases waiting with
    | nil => cases hs; cases ht; exact .refl _ _
    | cons h waiting =>
      obtain ⟨n, hn, hs⟩ := bind_eq_ok.mp hs
      obtain ⟨a, ha, hs⟩ := bind_eq_ok.mp hs
      obtain ⟨m, hm, ht⟩ := bind_eq_ok.mp ht
      obtain ⟨b, hb, ht⟩ := bind_eq_ok.mp ht
      rw [get_eq_ok] at hn hm
      have alike := bare_of_get? same hn hm
      have children : m.children = n.children := (congrArg Node.children alike).symm
      have one : Balanced s t (s.set h { n with span := a }) (t.set h { m with span := b }) := by
        have ha := Span.shift_eq_ok ha
        have hb := Span.shift_eq_ok hb
        apply balanced_set hn hm
        · omega
        · omega
      have next : m.children.reverse ++ waiting = n.children.reverse ++ waiting := by rw [children]
      rw [next] at ht
      exact one.trans (ih (by rw [one.left, one.right, same]) hs ht)

theorem size_of_bare {s t : Slots Node} (same : s.bare = t.bare) :
    s.slots.size = t.slots.size := by
  simpa [bare] using congrArg (fun s => s.slots.size) same

theorem movingReach_back {s t : Slots Node} (same : s.bare = t.bare) (distance : Int) :
    movingReach t (-distance) = movingReach s distance := by
  simp [movingReach, reach, size_of_bare same]

theorem move_balanced {distance : Int} {t u t' u' : Tree} {h : Handle}
    (same : t.nodes.bare = u.nodes.bare) (ht : t.move h distance = .ok t')
    (hu : u.move h (-distance) = .ok u') : Balanced t.nodes u.nodes t'.nodes u'.nodes := by
  obtain ⟨s, hs, ht⟩ := bind_eq_ok.mp ht
  obtain ⟨s', hs', hu⟩ := bind_eq_ok.mp hu
  cases ht
  cases hu
  rw [movingReach_back same] at hs'
  exact moveAll_balanced same hs hs'

/-- Links are all that the place of a node among its siblings depends on. -/
theorem seat_bare (t : Tree) (h : Handle) : seat ⟨t.nodes.bare, t.root⟩ h = t.seat h := by
  have get_bare (k : Handle) : t.nodes.bare.get k = (t.nodes.get k).map Node.bare := by
    simp only [Slots.get, bare_get?]
    cases t.nodes.get? k <;> rfl
  simp only [seat, parent, children, node, get_bare]
  cases t.nodes.get h with
  | error fault => rfl
  | ok n =>
    simp only [Except.map, ok_bind, pure_eq_ok, Node.bare]
    cases n.parent with
    | none => rfl
    | some p =>
      dsimp only
      cases t.nodes.get p <;> rfl

theorem seat_congr {t u : Tree} (same : t.nodes.bare = u.nodes.bare) (h : Handle) :
    t.seat h = u.seat h := by
  rw [← seat_bare t, ← seat_bare u, same]
  rfl

theorem moveEach_balanced {distance : Int} {t u t' u' : Tree} {hs : List Handle}
    (same : t.nodes.bare = u.nodes.bare)
    (ht : hs.foldlM (fun t h => t.move h distance) t = .ok t')
    (hu : hs.foldlM (fun t h => t.move h (-distance)) u = .ok u') :
    Balanced t.nodes u.nodes t'.nodes u'.nodes := by
  induction hs generalizing t u with
  | nil => cases ht; cases hu; exact .refl _ _
  | cons h hs ih =>
    obtain ⟨t₁, ht₁, ht⟩ := bind_eq_ok.mp ht
    obtain ⟨u₁, hu₁, hu⟩ := bind_eq_ok.mp hu
    have one := move_balanced same ht₁ hu₁
    exact one.trans (ih (by rw [one.left, one.right, same]) ht hu)

theorem stretch_balanced {distance : Int} {t u t' u' : Tree} {h : Handle}
    (ht : t.stretch h distance = .ok t') (hu : u.stretch h (-distance) = .ok u') :
    Balanced t.nodes u.nodes t'.nodes u'.nodes := by
  obtain ⟨n, hn, ht⟩ := bind_eq_ok.mp ht
  obtain ⟨a, ha, ht⟩ := bind_eq_ok.mp ht
  obtain ⟨m, hm, hu⟩ := bind_eq_ok.mp hu
  obtain ⟨b, hb, hu⟩ := bind_eq_ok.mp hu
  simp only [node] at hn hm
  simp only [setSpan, Slots.modify, hn, hm, ok_bind, pure_eq_ok, Except.ok.injEq] at ht hu
  subst ht hu
  have ha := Span.stretch_eq_ok ha
  have hb := Span.stretch_eq_ok hb
  apply balanced_set (get_eq_ok.mp hn) (get_eq_ok.mp hm)
  · omega
  · omega

theorem moveAround_balanced {distance : Int} {steps : Nat} {t u t' u' : Tree} {h : Handle}
    (same : t.nodes.bare = u.nodes.bare) (ht : moveAround distance steps t h = .ok t')
    (hu : moveAround (-distance) steps u h = .ok u') :
    Balanced t.nodes u.nodes t'.nodes u'.nodes := by
  induction steps generalizing t u h with
  | zero => cases ht
  | succ steps ih =>
    obtain ⟨seat, hseat, ht⟩ := bind_eq_ok.mp ht
    obtain ⟨seat', hseat', hu⟩ := bind_eq_ok.mp hu
    rw [seat_congr same, hseat'] at hseat
    cases hseat
    cases seat with
    | none => cases ht; cases hu; exact .refl _ _
    | some seat =>
      obtain ⟨parent, index⟩ := seat
      dsimp only at ht hu
      obtain ⟨siblings, hsiblings, ht⟩ := bind_eq_ok.mp ht
      obtain ⟨t₁, ht₁, ht⟩ := bind_eq_ok.mp ht
      obtain ⟨t₂, ht₂, ht⟩ := bind_eq_ok.mp ht
      obtain ⟨siblings', hsiblings', hu⟩ := bind_eq_ok.mp hu
      obtain ⟨u₁, hu₁, hu⟩ := bind_eq_ok.mp hu
      obtain ⟨u₂, hu₂, hu⟩ := bind_eq_ok.mp hu
      have list : siblings' = siblings := by
        obtain ⟨n, hn, h₁⟩ := bind_eq_ok.mp hsiblings
        obtain ⟨m, hm, h₂⟩ := bind_eq_ok.mp hsiblings'
        cases h₁
        cases h₂
        exact (congrArg Node.children
          (bare_of_get? same (get_eq_ok.mp hn) (get_eq_ok.mp hm)) :).symm
      rw [list] at hu₁
      have both := (moveEach_balanced same ht₁ hu₁).trans (stretch_balanced ht₂ hu₂)
      exact both.trans (ih (by rw [both.left, both.right, same]) ht hu)

/-- Making room behind a node and taking it away again restores the tree. -/
theorem moveSuccessors_back {distance : Int} {t t' t'' : Tree} {h : Handle}
    (there : t.moveSuccessors h distance = .ok t')
    (back : t'.moveSuccessors h (-distance) = .ok t'') : t'' = t := by
  obtain ⟨links, root⟩ := moveAround_kept there
  obtain ⟨-, root'⟩ := moveAround_kept back
  rw [moveSuccessors, movingReach_back links.symm] at back
  have nodes := (moveAround_balanced links.symm there back).back
  cases t''
  cases t
  simp_all

end Tree

end FormEdit
