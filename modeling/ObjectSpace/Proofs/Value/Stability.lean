import ObjectSpace.Proofs.Value.Coherence
import ObjectSpace.Proofs.Value.Sorting

/-!
# Stable order

**Theorem (`Legible.sortsStably`).** Sorting puts values in their stable order, as long as `<`
answers on the values at any two places and values that tie with one value tie with each other
(`Sortable`). The values may contain themselves.

There is one stable order of the places of a list (`StableOrder.unique`): of two places, either the
value at one of them is less or the values tie, and then the places themselves decide. That it is an
order depends on `<` being asymmetric and transitive, which the verdicts show (`less_asymm`,
`less_trans`). Merging never asks about the places, but it does not have to: the left run is from
places before those of the right run, and it is preferred unless the right value is less.
-/

namespace ObjectSpace

namespace Heap

/-- One value is less than another. -/
def Less (heap : Heap) (x y : Handle) : Prop := lessThan x y heap = .ok true

/-- Neither of two values is less than the other. -/
def Ties (heap : Heap) (x y : Handle) : Prop := ¬ heap.Less x y ∧ ¬ heap.Less y x

/-- `<` answers on the values at any two places of a list, in both orders of the arguments, and ties
are transitive among the values. -/
structure Sortable (heap : Heap) (items : List Handle) : Prop where
  answers : items.Pairwise fun x y =>
    (∃ r, lessThan x y heap = .ok r) ∧ ∃ r, lessThan y x heap = .ok r
  ties : ∀ x ∈ items, ∀ y ∈ items, ∀ z ∈ items, heap.Ties x y → heap.Ties y z → heap.Ties x z

/-- An order of the places of a list in which no value is less than an earlier one, and values that
tie stay in the order they had. -/
structure StableOrder (heap : Heap) (items : List Handle) (order : List (Fin items.length)) :
    Prop where
  perm : order.Perm (List.finRange items.length)
  ascending : order.Pairwise fun i j => ¬ heap.Less (items.get j) (items.get i)
  stable : order.Pairwise fun i j => heap.Ties (items.get i) (items.get j) → i < j

/-- Sorting puts the values of a list in their only stable order. -/
def SortsStably (heap : Heap) (items : List Handle) : Prop :=
  ∃ order, heap.StableOrder items order ∧
    (∀ order', heap.StableOrder items order' → order' = order) ∧
    sort items heap = .ok (order.map items.get)

variable {heap : Heap} {items : List Handle}

/-- There is at most one stable order. -/
theorem StableOrder.unique {order order' : List (Fin items.length)}
    (h : heap.StableOrder items order) (h' : heap.StableOrder items order') : order' = order := by
  refine (h'.perm.trans h.perm.symm).eq_of_pairwise (fun i j _ _ hij hji => ?_)
    (h'.ascending.and h'.stable) (h.ascending.and h.stable)
  have hlt := hij.2 ⟨hji.1, hij.1⟩
  exact absurd (hji.2 ⟨hij.1, hji.1⟩) hlt.asymm

/-! ## Sorting by an order -/

/-- `<` orders the values of a list, but for ties. -/
structure Orders (heap : Heap) (items : List Handle) : Prop extends Sortable heap items where
  asymm : ∀ x ∈ items, ∀ y ∈ items, heap.Less x y → ¬ heap.Less y x
  trans : ∀ x ∈ items, ∀ y ∈ items, ∀ z ∈ items, heap.Less x y → heap.Less y z → heap.Less x z

/-- One place comes before another in a stable order, or it is the other. -/
def Precedes (heap : Heap) (items : List Handle) (i j : Fin items.length) : Prop :=
  heap.Less (items.get i) (items.get j) ∨ heap.Ties (items.get i) (items.get j) ∧ i ≤ j

namespace Orders

variable (h : Orders heap items) {x y z : Handle} {i j k : Fin items.length}

include h

theorem less_of_ties (hx : x ∈ items) (hy : y ∈ items) (hz : z ∈ items) (hxy : heap.Less x y)
    (hyz : heap.Ties y z) : heap.Less x z := by
  by_contra hxz
  by_cases hzx : heap.Less z x
  · exact hyz.2 (h.trans z hz x hx y hy hzx hxy)
  · exact (h.ties x hx z hz y hy ⟨hxz, hzx⟩ hyz.symm).1 hxy

theorem ties_less (hx : x ∈ items) (hy : y ∈ items) (hz : z ∈ items) (hxy : heap.Ties x y)
    (hyz : heap.Less y z) : heap.Less x z := by
  by_contra hxz
  by_cases hzx : heap.Less z x
  · exact hxy.2 (h.trans y hy z hz x hx hyz hzx)
  · exact (h.ties y hy x hx z hz hxy.symm ⟨hxz, hzx⟩).1 hyz

theorem precedes_trans (hij : heap.Precedes items i j) (hjk : heap.Precedes items j k) :
    heap.Precedes items i k := by
  have hmem : ∀ i : Fin items.length, items.get i ∈ items := fun i => List.get_mem _ _
  rcases hij with hij | ⟨hij, hle⟩ <;> rcases hjk with hjk | ⟨hjk, hle'⟩
  · exact .inl (h.trans _ (hmem i) _ (hmem j) _ (hmem k) hij hjk)
  · exact .inl (h.less_of_ties (hmem i) (hmem j) (hmem k) hij hjk)
  · exact .inl (h.ties_less (hmem i) (hmem j) (hmem k) hij hjk)
  · exact .inr ⟨h.ties _ (hmem i) _ (hmem j) _ (hmem k) hij hjk, hle.trans hle'⟩

omit h in
theorem precedes_total (i j : Fin items.length) :
    heap.Precedes items i j ∨ heap.Precedes items j i := by
  by_cases hij : heap.Less (items.get i) (items.get j)
  · exact .inl (.inl hij)
  · by_cases hji : heap.Less (items.get j) (items.get i)
    · exact .inr (.inl hji)
    · exact (le_total i j).imp (fun hle => .inr ⟨⟨hij, hji⟩, hle⟩) fun hle => .inr ⟨⟨hji, hij⟩, hle⟩

open Classical in
/-- Of an earlier and a later place, the later one comes first only if its value is less. -/
theorem mirrors (hij : i < j) : heap.Mirrors (fun v i => v = items.get i)
    (fun i j => decide (heap.Precedes items i j)) i j := by
  rintro _ _ rfl rfl
  obtain ⟨-, r, hr⟩ := List.pairwise_iff_get.1 h.answers i j hij
  have hless : r = true ↔ heap.Less (items.get j) (items.get i) := by rw [Less, hr, Except.ok.injEq]
  rw [hr, ← decide_not, Except.ok.injEq, Bool.eq_iff_iff, hless, decide_eq_true_iff]
  constructor
  · rintro hji (hij | ⟨hties, -⟩)
    · exact h.asymm _ (List.get_mem _ _) _ (List.get_mem _ _) hij hji
    · exact hties.2 hji
  · intro hnot
    by_contra hji
    by_cases hless' : heap.Less (items.get i) (items.get j)
    · exact hnot (.inl hless')
    · exact hnot (.inr ⟨⟨hless', hji⟩, hij.le⟩)

/-- **Stability.** Where `<` orders the values but for ties, sorting puts them in their only stable
order. -/
theorem sortsStably : heap.SortsStably items := by
  classical
  have hplaces : List.Forall₂ (fun v i => v = items.get i) items (List.finRange items.length) := by
    conv in items => rw [← List.map_get_finRange items]
    exact List.forall₂_map_left_iff.2 (List.forall₂_same.2 fun i _ => rfl)
  obtain ⟨out, order, hout, hvalues, hperm, hsorted⟩ := sort_mirrored
    (fun i j => decide (heap.Precedes items i j))
    (fun i j k hij hjk =>
      decide_eq_true (h.precedes_trans (of_decide_eq_true hij) (of_decide_eq_true hjk)))
    (fun i j => by simpa using precedes_total i j)
    ((List.pairwise_lt_finRange items.length).imp h.mirrors) hplaces
  obtain rfl : out = order.map items.get := by
    rw [← List.forall₂_eq_eq_eq]
    exact List.forall₂_map_right_iff.2 hvalues
  have hprecedes := hsorted.imp of_decide_eq_true
  have hstable : heap.StableOrder items order := by
    refine ⟨hperm, hprecedes.imp fun {i j} hij => ?_, ?_⟩
    · rcases hij with hij | ⟨hties, -⟩
      · exact h.asymm _ (List.get_mem _ _) _ (List.get_mem _ _) hij
      · exact hties.2
    · have hne : order.Pairwise (· ≠ ·) := hperm.nodup_iff.2 (List.nodup_finRange _)
      refine (hprecedes.and hne).imp fun {i j} hij hties => ?_
      rcases hij.1 with hless | ⟨-, hle⟩
      · exact absurd hless hties.1
      · exact lt_of_le_of_ne hle hij.2
  exact ⟨order, hstable, fun order' h' => hstable.unique h', hout⟩

end Orders

end Heap

/-! ## The order of values -/

namespace Legible

open Heap (bind_of_ok)

variable {heap : Heap} {see : Handle → Option Object} (L : Legible heap see) {P : Handle → Prop}
  (hP : Readable see P) {a b c : Handle} {r : Bool}

include L hP

/-- `<` answers as the verdict says. -/
theorem lessThan_verdict (ha : P a) (hb : P b) (h : Heap.lessThan a b heap = .ok r) :
    ∃ v, heap.verdict see (heap.capacity + 1) a b = some v ∧ v.holds .lt = r := by
  have hdepth : Heap.lessThan a b heap = Heap.orderedWithin (heap.capacity + 1) .lt a b heap :=
    bind_of_ok (Heap.depth_eq_ok.2 rfl)
  have hlt : Comparison.lt.Orders := ⟨nofun, nofun⟩
  exact orderedWithin_verdict L hP hlt ha hb (hdepth ▸ h)

theorem verdict_of_less (ha : P a) (hb : P b) (h : heap.Less a b) :
    heap.verdict see (heap.capacity + 1) a b = some .less := by
  obtain ⟨v, hv, hholds⟩ := lessThan_verdict L hP ha hb h
  rw [hv, beq_iff_eq.1 hholds]

theorem less_asymm (ha : P a) (hb : P b) (h : heap.Less a b) : ¬ heap.Less b a := by
  intro h'
  have hswap := (L.coherent_verdict hP (heap.capacity + 1)).swap a b ha hb
  rw [verdict_of_less L hP ha hb h, verdict_of_less L hP hb ha h'] at hswap
  cases hswap

theorem less_trans (ha : P a) (hb : P b) (hc : P c) (hab : heap.Less a b) (hbc : heap.Less b c)
    (hac : Heap.lessThan a c heap = .ok r) : heap.Less a c := by
  have hless := (L.coherent_verdict hP (heap.capacity + 1)).trans a b c ha hb hc
    (verdict_of_less L hP ha hb hab) (verdict_of_less L hP hb hc hbc)
  obtain ⟨v, hv, rfl⟩ := lessThan_verdict L hP ha hc hac
  rw [hless, Option.some.injEq] at hv
  rw [Heap.Less, hac, ← hv]
  rfl

/-- `<` orders values that can be read through and through, but for ties, as long as it answers and
ties are transitive. -/
theorem orders {items : List Handle} (hitems : ∀ x ∈ items, P x) (h : heap.Sortable items) :
    heap.Orders items := by
  have hasymm : ∀ x ∈ items, ∀ y ∈ items, heap.Less x y → ¬ heap.Less y x := fun x hx y hy =>
    less_asymm L hP (hitems x hx) (hitems y hy)
  refine ⟨h, hasymm, fun x hx y hy z hz hxy hyz => ?_⟩
  by_cases hxz : x = z
  · subst hxz
    exact absurd hyz (hasymm x hx y hy hxy)
  · have : Std.Symm fun x y =>
        (∃ r, Heap.lessThan x y heap = .ok r) ∧ ∃ r, Heap.lessThan y x heap = .ok r :=
      ⟨fun _ _ => And.symm⟩
    obtain ⟨⟨r, hr⟩, -⟩ := h.answers.forall hx hz hxz
    exact less_trans L hP (hitems x hx) (hitems y hy) (hitems z hz) hxy hyz hr

/-- **Sorting** is stable on values that can be read through and through, as long as `<` answers and
ties are transitive. -/
theorem sortsStably {items : List Handle} (hitems : ∀ x ∈ items, P x)
    (h : heap.Sortable items) : heap.SortsStably items :=
  (orders L hP hitems h).sortsStably

end Legible

end ObjectSpace
