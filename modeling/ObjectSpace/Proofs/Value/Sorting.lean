import ObjectSpace.Ordering
import ObjectSpace.Proofs.Heap.Query
import Mathlib.Data.Char
import Mathlib.Data.List.Forall2
import Mathlib.Data.List.Lex
import Mathlib.Data.Prod.Lex

/-!
# Sorting

Whatever `<` says, merging and sorting only put values in another order, if they end (`merge_perm`,
`sort_perm`).

In which order is said by values that stand for data. Merging two runs does on the values what
`List.merge` does on the data, if `<` answers on a value of the right run and one of the left as an
order on the data says (`Mirrors`). It does not have to answer on any others.

**Theorem (`sort_mirrored`).** Sorting values of which each mirrors the data with all later ones
gives the values of a permutation of the data in ascending order.

Where the data have keys from a linear order, the keys say everything (`sort_ranked`).
-/

namespace ObjectSpace.Heap

variable {heap : Heap}

/-! ## Permutations -/

theorem merge_perm {left right sorted : List Handle} (h : merge left right heap = .ok sorted) :
    sorted.Perm (left ++ right) := by
  fun_induction merge left right generalizing sorted with
  | case1 right =>
    obtain rfl := pure_eq_ok.1 h
    exact .refl _
  | case2 left =>
    obtain rfl := pure_eq_ok.1 h
    rw [List.append_nil]
  | case3 l ls r rs ih₁ ih₂ =>
    obtain ⟨b, -, h⟩ := bind_eq_ok.1 h
    cases b with
    | true =>
      obtain ⟨m, hm, h⟩ := bind_eq_ok.1 h
      obtain rfl := pure_eq_ok.1 h
      exact ((ih₁ hm).cons r).trans List.perm_middle.symm
    | false =>
      obtain ⟨m, hm, h⟩ := bind_eq_ok.1 h
      obtain rfl := pure_eq_ok.1 h
      exact (ih₂ hm).cons l

theorem sort_perm {items sorted : List Handle} (h : sort items heap = .ok sorted) :
    sorted.Perm items := by
  fun_induction sort items generalizing sorted with
  | case1 items =>
    obtain rfl := pure_eq_ok.1 h
    exact .refl _
  | case2 items _ half ih₁ =>
    rename_i ih₂
    obtain ⟨left, hleft, h⟩ := bind_eq_ok.1 h
    obtain ⟨right, hright, h⟩ := bind_eq_ok.1 h
    have hhalves := (ih₁ hleft).append (ih₂ hright)
    rw [List.take_append_drop] at hhalves
    exact (merge_perm h).trans hhalves

/-! ## Order -/

section Mirrors

variable {α : Type} {r : Handle → α → Prop} {le : α → α → Bool} {l l' items : List Handle}
  {as as' : List α}

/-- On values that stand for `b` and `a`, in this order, `<` answers whether `a` does not come
first. -/
def Mirrors (heap : Heap) (r : Handle → α → Prop) (le : α → α → Bool) (a b : α) : Prop :=
  ∀ x y, r x a → r y b → lessThan y x heap = .ok !le a b

/-- Merging mirrors `List.merge`. -/
theorem merge_mirrored (h : ∀ a ∈ as, ∀ b ∈ as', heap.Mirrors r le a b)
    (hl : List.Forall₂ r l as) (hl' : List.Forall₂ r l' as') :
    ∃ out, merge l l' heap = .ok out ∧ List.Forall₂ r out (as.merge as' le) := by
  induction hl generalizing l' as' with
  | nil => exact ⟨l', by rw [merge]; rfl, by simpa using hl'⟩
  | @cons x a l as hx hl ih =>
    induction hl' with
    | nil => exact ⟨x :: l, by rw [merge]; rfl; simp, by simpa using hl.cons hx⟩
    | @cons y b l' as' hy hl' ih' =>
      have hless := h a List.mem_cons_self b List.mem_cons_self x y hx hy
      by_cases hab : le a b = true
      · obtain ⟨out, hout, hr⟩ := ih (fun c hc => h c (List.mem_cons_of_mem _ hc)) (.cons hy hl')
        refine ⟨x :: out, ?_, ?_⟩
        · rw [merge, bind_of_ok hless, hab]
          exact bind_of_ok hout
        · rw [List.cons_merge_cons_pos _ _ _ hab]
          exact .cons hx hr
      · obtain ⟨out, hout, hr⟩ := ih' fun c hc d hd => h c hc d (List.mem_cons_of_mem _ hd)
        refine ⟨y :: out, ?_, ?_⟩
        · rw [merge, bind_of_ok hless, Bool.eq_false_of_not_eq_true hab]
          exact bind_of_ok hout
        · rw [List.cons_merge_cons_neg _ _ _ hab]
          exact .cons hy hr

/-- **Sorting** mirrors an order on the data, as long as `<` does on the data at any two places. -/
theorem sort_mirrored (le : α → α → Bool)
    (htrans : ∀ a b c, le a b = true → le b c = true → le a c = true)
    (htotal : ∀ a b, (le a b || le b a) = true) (h : as.Pairwise (heap.Mirrors r le))
    (hl : List.Forall₂ r items as) :
    ∃ out bs, sort items heap = .ok out ∧ List.Forall₂ r out bs ∧ bs.Perm as ∧
      bs.Pairwise fun a b => le a b = true := by
  induction hn : items.length using Nat.strong_induction_on generalizing items as with
  | _ n ih =>
    subst hn
    by_cases hone : items.length ≤ 1
    · refine ⟨items, as, ?_, hl, .refl as, ?_⟩
      · rw [sort, dif_pos hone]
        rfl
      · rw [hl.length_eq] at hone
        match as with
        | [] => exact .nil
        | [a] => exact List.pairwise_singleton _ a
    · rw [← List.take_append_drop (items.length / 2) as, List.pairwise_append] at h
      obtain ⟨hleft, hright, hacross⟩ := h
      obtain ⟨out₁, bs₁, h₁, r₁, p₁, s₁⟩ := ih _ (by simp; omega) hleft
        (List.forall₂_take (items.length / 2) hl) rfl
      obtain ⟨out₂, bs₂, h₂, r₂, p₂, s₂⟩ := ih _ (by simp; omega) hright
        (List.forall₂_drop (items.length / 2) hl) rfl
      obtain ⟨out, hout, hr⟩ := merge_mirrored
        (fun a ha b hb => hacross a (p₁.subset ha) b (p₂.subset hb)) r₁ r₂
      refine ⟨out, _, ?_, hr, ?_, List.pairwise_merge htrans htotal _ _ s₁ s₂⟩
      · rw [sort, dif_neg hone, bind_of_ok h₁, bind_of_ok h₂, hout]
      · have hperm := p₁.append p₂
        rw [List.take_append_drop] at hperm
        exact (List.merge_perm_append _).trans hperm

end Mirrors

/-! ## Keys -/

section Ranked

variable {α κ : Type} [LinearOrder κ] {r : Handle → α → Prop} {key : α → κ} {items : List Handle}
  {as : List α}

/-- Values that stand for data are compared by the keys of the data. -/
def Ranked (heap : Heap) (r : Handle → α → Prop) (key : α → κ) : Prop :=
  ∀ x y a b, r x a → r y b → lessThan x y heap = .ok (decide (key a < key b))

/-- Sorting gives the values of the same data in ascending order. -/
theorem sort_ranked (h : Ranked heap r key) (hl : List.Forall₂ r items as) :
    ∃ out bs, sort items heap = .ok out ∧ List.Forall₂ r out bs ∧ bs.Perm as ∧
      bs.Pairwise fun a b => key a ≤ key b := by
  have hmirrors : ∀ a b, heap.Mirrors r (fun a b => decide (key a ≤ key b)) a b := by
    intro a b x y hx hy
    rw [h y x b a hy hx, ← decide_not]
    simp only [not_le]
  obtain ⟨out, bs, hout, hr, hperm, hsorted⟩ := sort_mirrored
    (fun a b => decide (key a ≤ key b))
    (fun a b c hab hbc => decide_eq_true ((of_decide_eq_true hab).trans (of_decide_eq_true hbc)))
    (fun a b => by simpa using le_total (key a) (key b))
    (List.pairwise_of_forall hmirrors) hl
  exact ⟨out, bs, hout, hr, hperm, hsorted.imp of_decide_eq_true⟩

end Ranked

end ObjectSpace.Heap
