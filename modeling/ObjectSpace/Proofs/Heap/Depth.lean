import ObjectSpace.Heap
import ObjectSpace.Proofs.Arena.Cells
import Mathlib.Data.List.Forall2
import Mathlib.Data.Set.Card
import Mathlib.Logic.Relation

/-!
# Depth

How deep a computation can go that follows handles from object to object. Where a relation between
handles has no endless chain from `v`, it is `Nested` to some depth there.

**Theorem (`nested_of_acc`).** If all handles on the way can be read, that depth is at most the
number of cells of the heap. Those handles are all different, and different handles that can be read
name different cells.

A value is grounded when its handle can be read, and so can the handles of its parts, of their
parts, and so on, without end only if there are none left: it does not contain itself.

**Theorem (`Grounded.within`).** A grounded value is nested at most as deep as the heap has cells.
-/

namespace ObjectSpace

/-! ## Different handles in different cells -/

namespace Arena

variable {α : Type}

theorem capacity_eq (a : Arena α) : a.capacity = ∑ c : SizeClass, (a.pool c).cells.size :=
  SizeClass.total_eq_sum _

/-- The cell of a handle that can be read. -/
def cellOf (a : Arena α) (h : Handle) : (_ : SizeClass) × Nat := ⟨h.sizeClass, a.position h⟩

theorem cellOf_injOn (a : Arena α) : Set.InjOn a.cellOf {h | a.isCurrent h = true} := by
  intro g hg h hh he
  obtain ⟨v, hv⟩ := isCurrent_iff.1 hg
  obtain ⟨w, hw⟩ := isCurrent_iff.1 hh
  obtain ⟨x, hx, -⟩ := get?_eq_some.1 hv
  obtain ⟨y, hy, -⟩ := get?_eq_some.1 hw
  obtain ⟨hc, hp⟩ := Sigma.mk.inj he
  exact eq_of_cell? hx hy hc (eq_of_heq hp)

/-- There are no more handles that can be read than cells. -/
theorem ncard_current_le (a : Arena α) :
    {h | a.isCurrent h = true}.Finite ∧ {h | a.isCurrent h = true}.ncard ≤ a.capacity := by
  let cells : Finset ((_ : SizeClass) × Nat) :=
    Finset.univ.sigma fun c => Finset.range (a.pool c).cells.size
  have hcard : cells.card = a.capacity := by
    rw [capacity_eq, Finset.card_sigma]
    simp
  have hmaps : Set.MapsTo a.cellOf {h | a.isCurrent h = true} (cells : Set _) := by
    intro h hh
    obtain ⟨v, hv⟩ := isCurrent_iff.1 hh
    obtain ⟨x, hx, -⟩ := get?_eq_some.1 hv
    have hat := cellAt?_of_cell? hx
    refine Finset.mem_coe.2 (Finset.mem_sigma.2 ⟨Finset.mem_univ _, Finset.mem_range.2 ?_⟩)
    exact (Array.getElem?_eq_some_iff.1 hat).1
  have hinj := a.cellOf_injOn
  refine ⟨Set.Finite.of_injOn hmaps hinj cells.finite_toSet, ?_⟩
  rw [← hcard, ← Set.ncard_coe_finset]
  exact Set.ncard_le_ncard_of_injOn _ hmaps hinj cells.finite_toSet

theorem length_le_capacity (a : Arena α) {l : List Handle} (hl : l.Nodup)
    (hc : ∀ h ∈ l, a.isCurrent h = true) : l.length ≤ a.capacity := by
  obtain ⟨hfin, hcard⟩ := a.ncard_current_le
  have hsub : (l.toFinset : Set Handle) ⊆ {h | a.isCurrent h = true} := fun h hh =>
    hc h (List.mem_toFinset.1 (Finset.mem_coe.1 hh))
  rw [← List.toFinset_card_of_nodup hl, ← Set.ncard_coe_finset]
  exact (Set.ncard_le_ncard hsub hfin).trans hcard

end Arena

/-! ## Depth -/

section Depth

open Relation (ReflTransGen TransGen)

variable {α : Type} {r r' : α → α → Prop} {v : α}

/-- Every chain of the relation from here has fewer than `n` steps. -/
def Nested (r : α → α → Prop) : Nat → α → Prop
  | 0, _ => False
  | n + 1, v => ∀ p, r v p → Nested r n p

theorem Nested.mono {n m : Nat} (h : Nested r n v) (hnm : n ≤ m)
    (hr : ∀ w p, ReflTransGen r' v w → r' w p → r w p) : Nested r' m v := by
  induction n generalizing m v with
  | zero => exact h.elim
  | succ n ih =>
    obtain ⟨m, rfl⟩ : ∃ k, m = k + 1 := ⟨m - 1, by omega⟩
    exact fun p hp => ih (h p (hr v p .refl hp)) (Nat.le_of_succ_le_succ hnm)
      fun w q hw => hr w q (.head hp hw)

theorem Nested.le {n m : Nat} (h : Nested r n v) (hnm : n ≤ m) : Nested r m v :=
  h.mono hnm fun _ _ _ => id

theorem not_transGen_self (h : Acc (flip r) v) : ¬ TransGen r v v := by
  induction h with
  | intro v _ ih =>
    intro hv
    obtain ⟨p, hp, hrest⟩ := TransGen.head'_iff.1 hv
    exact ih p hp (.tail' hrest hp)

/-- Where the relation reaches finitely much from here and nothing there comes after itself, there
is no endless chain. -/
theorem acc_of_finite (hfin : {p | ReflTransGen r v p}.Finite)
    (h : ∀ w, ReflTransGen r v w → ¬ TransGen r w w) : Acc (flip r) v := by
  induction hn : {p | ReflTransGen r v p}.ncard using Nat.strong_induction_on generalizing v with
  | _ n ih =>
    refine .intro v fun p hp => ?_
    have hsub : {q | ReflTransGen r p q} ⊆ {q | ReflTransGen r v q} := fun q hq => .head hp hq
    have hlt : {q | ReflTransGen r p q}.ncard < n := hn ▸
      Set.ncard_lt_ncard ⟨hsub, fun hback => h v .refl (.head' hp (hback ReflTransGen.refl))⟩ hfin
    exact ih _ hlt (hfin.subset hsub) (fun w hw => h w (.head hp hw)) rfl

/-- Chains from here are no longer than what they reach has elements. -/
theorem nested_ncard (h : Acc (flip r) v)
    (hfin : ∀ w, ReflTransGen r v w → {p | ReflTransGen r w p}.Finite) :
    Nested r {p | ReflTransGen r v p}.ncard v := by
  induction h with
  | intro v hacc ih =>
    have hlt : ∀ p, r v p → {q | ReflTransGen r p q}.ncard < {q | ReflTransGen r v q}.ncard :=
      fun p hp => Set.ncard_lt_ncard ⟨fun q hq => .head hp hq, fun hsub =>
        not_transGen_self (.intro v hacc) (.head' hp (hsub ReflTransGen.refl))⟩ (hfin v .refl)
    obtain ⟨k, hk⟩ : ∃ k, {q | ReflTransGen r v q}.ncard = k + 1 := by
      refine Nat.exists_eq_succ_of_ne_zero fun hzero => ?_
      rw [Set.ncard_eq_zero (hfin v .refl)] at hzero
      exact Set.eq_empty_iff_forall_notMem.1 hzero v .refl
    rw [hk]
    intro p hp
    refine (ih p hp fun w hw => hfin w (.head hp hw)).le ?_
    have := hlt p hp
    omega

/-- **Depth.** Without endless chains, a relation between handles that can be read is nested at most
as deep as the heap has cells. -/
theorem nested_of_acc {heap : Heap} {r : Handle → Handle → Prop} {v : Handle}
    (h : Acc (flip r) v) (hc : ∀ w, ReflTransGen r v w → heap.isCurrent w = true) :
    Nested r heap.capacity v := by
  obtain ⟨hfin, hcard⟩ := Arena.ncard_current_le heap
  have hsub : ∀ w, ReflTransGen r v w → {p | ReflTransGen r w p} ⊆
      {h | heap.isCurrent h = true} := fun w hw p hp => hc p (hw.trans hp)
  refine (nested_ncard h fun w hw => hfin.subset (hsub w hw)).le ?_
  exact (Set.ncard_le_ncard (hsub v .refl) hfin).trans hcard

end Depth

/-! ## Grounded values -/

/-- The values that an object consists of. -/
def Object.parts : Object → List Handle
  | list items => items.toList
  | tuple items => items.toList
  | dict t => t.toList.flatMap fun (k, v) => [k, v]
  | set t => t.toList
  | _ => []

theorem Object.parts_subset (o : Object) : o.parts ⊆ o.children := by
  intro p hp
  cases o with
  | list | tuple | dict | set => exact hp
  | _ => cases hp

theorem Object.entries_of_parts {P : Handle → Prop} {t : Table (Handle × Handle)}
    (h : ∀ p ∈ (Object.dict t).parts, P p) : ∀ e ∈ t.toList, P e.1 ∧ P e.2 := fun e hm =>
  ⟨h _ (List.mem_flatMap.2 ⟨e, hm, by simp⟩), h _ (List.mem_flatMap.2 ⟨e, hm, by simp⟩)⟩

section Lists

variable {α β : Type} {R S : α → β → Prop} {xs : List α} {ys : List β}

theorem forall₂_mono (h : List.Forall₂ R xs ys) (hRS : ∀ x ∈ xs, ∀ y ∈ ys, R x y → S x y) :
    List.Forall₂ S xs ys := by
  induction h with
  | nil => exact .nil
  | cons h _ ih =>
    refine .cons (hRS _ List.mem_cons_self _ List.mem_cons_self h) (ih fun x hx y hy => ?_)
    exact hRS x (List.mem_cons_of_mem _ hx) y (List.mem_cons_of_mem _ hy)

theorem exists_of_forall₂ (h : List.Forall₂ R xs ys) {x : α} (hx : x ∈ xs) : ∃ y ∈ ys, R x y := by
  induction h with
  | nil => cases hx
  | @cons a b xs ys hab _ ih =>
    rcases List.mem_cons.1 hx with rfl | hx
    · exact ⟨b, List.mem_cons_self, hab⟩
    · obtain ⟨y, hy, hxy⟩ := ih hx
      exact ⟨y, List.mem_cons_of_mem _ hy, hxy⟩

/-- Two lists are equal where what corresponds to one element is. -/
theorem eq_of_forall₂ {zs : List β} (h : List.Forall₂ R xs ys) (h' : List.Forall₂ S xs zs)
    (hRS : ∀ x ∈ xs, ∀ y z, R x y → S x z → y = z) : ys = zs := by
  induction h generalizing zs with
  | nil =>
    cases h'
    rfl
  | cons hab _ ih =>
    obtain _ | ⟨hac, h'⟩ := h'
    rw [hRS _ List.mem_cons_self _ _ hab hac,
      ih h' fun x hx => hRS x (List.mem_cons_of_mem _ hx)]

end Lists

/-- A value that can be read through and through, so it does not contain itself. -/
inductive Grounded (see : Handle → Option Object) : Handle → Prop
  | intro {v : Handle} {o : Object} : see v = some o → (∀ p ∈ o.parts, Grounded see p) →
      Grounded see v

/-- A value that is nested at most the given depth. -/
def Within (see : Handle → Option Object) : Nat → Handle → Prop
  | 0, _ => False
  | n + 1, v => ∃ o, see v = some o ∧ ∀ p ∈ o.parts, Within see n p

theorem Within.mono {see : Handle → Option Object} {n m : Nat} (hnm : n ≤ m) {v : Handle}
    (h : Within see n v) : Within see m v := by
  induction n generalizing m v with
  | zero => exact h.elim
  | succ n ih =>
    obtain ⟨m, rfl⟩ : ∃ k, m = k + 1 := ⟨m - 1, by omega⟩
    obtain ⟨o, ho, hp⟩ := h
    exact ⟨o, ho, fun p hm => ih (Nat.le_of_succ_le_succ hnm) (hp p hm)⟩

namespace Grounded

variable {heap : Heap} {see : Handle → Option Object} {v p : Handle}

/-- One value is a part of another. -/
def Part (see : Handle → Option Object) (v p : Handle) : Prop :=
  ∃ o, see v = some o ∧ p ∈ o.parts

theorem part (g : Grounded see v) (h : Part see v p) : Grounded see p := by
  obtain ⟨ho, hp⟩ := g
  obtain ⟨o, ho', hm⟩ := h
  rw [ho, Option.some.injEq] at ho'
  exact hp p (ho' ▸ hm)

theorem parts (g : Grounded see v) (h : Relation.ReflTransGen (Part see) v p) :
    Grounded see p := by
  induction h with
  | refl => exact g
  | tail _ hp ih => exact ih.part hp

theorem acc (g : Grounded see v) : Acc (flip (Part see)) v := by
  induction g with
  | @intro v o ho _ ih =>
    refine .intro v fun p ⟨o', ho', hm⟩ => ?_
    rw [ho, Option.some.injEq] at ho'
    exact ih p (ho' ▸ hm)

theorem irrefl (g : Grounded see v) : ¬ Relation.TransGen (Part see) v v :=
  not_transGen_self g.acc

theorem within_of_nested {n : Nat} (g : Grounded see v) (h : Nested (Part see) n v) :
    Within see n v := by
  induction n generalizing v with
  | zero => exact h.elim
  | succ n ih =>
    obtain ⟨ho, hp⟩ := g
    exact ⟨_, ho, fun p hm => ih (hp p hm) (h p ⟨_, ho, hm⟩)⟩

/-- **Depth.** A grounded value is nested at most as deep as the heap has cells. -/
theorem within (hs : ∀ v o, see v = some o → heap.get? v = some o) (g : Grounded see v) :
    Within see heap.capacity v := by
  refine g.within_of_nested (nested_of_acc g.acc fun p hp => ?_)
  obtain ⟨ho, -⟩ := g.parts hp
  exact Arena.isCurrent_iff.2 ⟨_, hs p _ ho⟩

end Grounded

end ObjectSpace
