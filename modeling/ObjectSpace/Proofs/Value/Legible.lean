import ObjectSpace.Proofs.Heap.Depth
import ObjectSpace.Proofs.Value.Filed
import Mathlib.Data.List.Nodup

/-!
# Legible heaps

What can be read of a heap is legible when its tables are trim and filed. Then a look-up that ends
has found the entry with the same key, if there is one (`Legible.found_iff`).

Comparing two tables comes to look-ups for all entries of one in the other: it tells that the keys
of one are among those of the other (`Covers`). Keys are different within each table, so for tables
of one size the keys of the other are among those of the one as well (`Covers.symm`).
-/

namespace ObjectSpace

/-! ## Queries over lists -/

namespace Heap

variable {α : Type} {heap : Heap} {test : α → Query Bool} {l : List α} {r : Bool}

theorem allM_ok (h : ∀ x ∈ l, ∃ r, test x heap = .ok r) : ∃ r, l.allM test heap = .ok r := by
  induction l with
  | nil => exact ⟨true, rfl⟩
  | cons x l ih =>
    rw [List.forall_mem_cons] at h
    obtain ⟨⟨b, hb⟩, h⟩ := h
    cases b with
    | false => exact ⟨false, bind_eq_ok.2 ⟨false, hb, rfl⟩⟩
    | true =>
      obtain ⟨r, hr⟩ := ih h
      exact ⟨r, bind_eq_ok.2 ⟨true, hb, hr⟩⟩

theorem of_allM_eq_ok (h : ∀ x ∈ l, ∀ r, test x heap = .ok r → r = true)
    (hl : l.allM test heap = .ok r) : r = true := by
  induction l with
  | nil => exact (pure_eq_ok.1 hl).symm
  | cons x l ih =>
    rw [List.forall_mem_cons] at h
    obtain ⟨b, hb, hl⟩ := bind_eq_ok.1 hl
    obtain rfl := h.1 b hb
    exact ih h.2 hl

theorem findM?_ok (h : ∀ x ∈ l, ∃ r, test x heap = .ok r) :
    ∃ o, l.findM? test heap = .ok o := by
  induction l with
  | nil => exact ⟨none, rfl⟩
  | cons x l ih =>
    rw [List.forall_mem_cons] at h
    obtain ⟨⟨b, hb⟩, h⟩ := h
    cases b with
    | true => exact ⟨some x, bind_eq_ok.2 ⟨true, hb, rfl⟩⟩
    | false =>
      obtain ⟨o, ho⟩ := ih h
      exact ⟨o, bind_eq_ok.2 ⟨false, hb, ho⟩⟩

theorem of_findM?_eq_some {x : α} (h : l.findM? test heap = .ok (some x)) :
    x ∈ l ∧ test x heap = .ok true := by
  induction l with
  | nil => cases h
  | cons y l ih =>
    obtain ⟨b, hb, h⟩ := bind_eq_ok.1 h
    cases b with
    | true =>
      obtain rfl : y = x := by simpa using h
      exact ⟨List.mem_cons_self, hb⟩
    | false => exact ⟨List.mem_cons_of_mem _ (ih h).1, (ih h).2⟩

theorem of_findM?_eq_none (h : l.findM? test heap = .ok none) :
    ∀ x ∈ l, test x heap = .ok false := by
  induction l with
  | nil => exact List.forall_mem_nil _
  | cons x l ih =>
    obtain ⟨b, hb, h⟩ := bind_eq_ok.1 h
    cases b with
    | true => cases h
    | false => exact List.forall_mem_cons.2 ⟨hb, ih h⟩

theorem findM?_of_anyM (h : l.anyM test heap = .ok r) :
    ∃ o, l.findM? test heap = .ok o ∧ o.isSome = r := by
  induction l with
  | nil => exact ⟨none, rfl, pure_eq_ok.1 h⟩
  | cons x l ih =>
    obtain ⟨b, hb, h⟩ := bind_eq_ok.1 h
    cases b with
    | true => exact ⟨some x, bind_eq_ok.2 ⟨true, hb, rfl⟩, pure_eq_ok.1 h⟩
    | false =>
      obtain ⟨o, ho, hr⟩ := ih h
      exact ⟨o, bind_eq_ok.2 ⟨false, hb, ho⟩, hr⟩

theorem anyM_ok (h : ∀ x ∈ l, ∃ r, test x heap = .ok r) : ∃ r, l.anyM test heap = .ok r := by
  induction l with
  | nil => exact ⟨false, rfl⟩
  | cons x l ih =>
    rw [List.forall_mem_cons] at h
    obtain ⟨⟨b, hb⟩, h⟩ := h
    cases b with
    | true => exact ⟨true, bind_eq_ok.2 ⟨true, hb, rfl⟩⟩
    | false =>
      obtain ⟨r, hr⟩ := ih h
      exact ⟨r, bind_eq_ok.2 ⟨false, hb, hr⟩⟩

theorem allPairs_ok {related : Handle → Handle → Query Bool} {xs ys : List Handle}
    (h : ∀ x ∈ xs, ∀ y ∈ ys, ∃ r, related x y heap = .ok r) :
    ∃ r, allPairs related xs ys heap = .ok r := by
  induction xs generalizing ys with
  | nil => cases ys <;> exact ⟨_, rfl⟩
  | cons x xs ih =>
    cases ys with
    | nil => exact ⟨_, rfl⟩
    | cons y ys =>
      obtain ⟨b, hb⟩ := h x List.mem_cons_self y List.mem_cons_self
      cases b with
      | false => exact ⟨false, bind_eq_ok.2 ⟨false, hb, rfl⟩⟩
      | true =>
        obtain ⟨r, hr⟩ := ih fun x hx y hy =>
          h x (List.mem_cons_of_mem _ hx) y (List.mem_cons_of_mem _ hy)
        exact ⟨r, bind_eq_ok.2 ⟨true, hb, hr⟩⟩

end Heap

/-! ## Covering -/

/-- Every element of one list has an element with the same key in another, to which it is
related. -/
def Covers {α κ : Type} (key : α → κ) (rel : α → α → Prop) (xs ys : List α) : Prop :=
  ∀ x ∈ xs, ∃ y ∈ ys, key y = key x ∧ rel x y

namespace Covers

variable {α κ : Type} {key : α → κ} {rel rel' rel'' : α → α → Prop} {xs ys zs : List α}

/-- A list with different keys that covers another one of the same length is covered by it. -/
theorem symm (hx : (xs.map key).Nodup) (hy : (ys.map key).Nodup) (hlen : xs.length = ys.length)
    (h : Covers key rel xs ys) (hrel : ∀ x ∈ xs, ∀ y ∈ ys, rel x y → rel' y x) :
    Covers key rel' ys xs := by
  have hsub : xs.map key ⊆ ys.map key := fun k hk => by
    obtain ⟨x, hx, rfl⟩ := List.mem_map.1 hk
    obtain ⟨y, hy, hyx, -⟩ := h x hx
    exact List.mem_map.2 ⟨y, hy, hyx⟩
  have hperm : (xs.map key).Perm (ys.map key) :=
    (hx.subperm hsub).perm_of_length_le (by simp [hlen])
  intro y hmem
  obtain ⟨x, hxm, hxy⟩ := List.mem_map.1 (hperm.mem_iff.2 (List.mem_map.2 ⟨y, hmem, rfl⟩))
  obtain ⟨y', hy', hyx, hr⟩ := h x hxm
  obtain rfl := List.inj_on_of_nodup_map hy hy' hmem (hyx.trans hxy)
  exact ⟨x, hxm, hxy, hrel x hxm y' hmem hr⟩

theorem trans (h₁ : Covers key rel xs ys) (h₂ : Covers key rel' ys zs)
    (hrel : ∀ x ∈ xs, ∀ y ∈ ys, ∀ z ∈ zs, rel x y → rel' y z → rel'' x z) :
    Covers key rel'' xs zs := by
  intro x hx
  obtain ⟨y, hy, hyx, hxy⟩ := h₁ x hx
  obtain ⟨z, hz, hzy, hyz⟩ := h₂ y hy
  exact ⟨z, hz, hzy.trans hyx, hrel x hx y hy z hz hxy hyz⟩

end Covers

/-! ## Tables with their keys -/

/-- A view of a heap whose texts carry their own hash and whose tables are trim and filed. -/
structure Legible (heap : Heap) (see : Handle → Option Object) : Prop where
  shows : Shows heap see
  texts : heap.TextsHashed
  trim : heap.TablesTrim
  filed : ∀ v o, see v = some o → Filed see o.filings

theorem key?_of_within {see : Handle → Option Object} {n : Nat} {v : Handle}
    (h : Within see n v) : ∃ κ, key? see n v = some κ := by
  induction n generalizing v with
  | zero => exact h.elim
  | succ n ih =>
    obtain ⟨o, ho, hp⟩ := h
    rw [key?, ho, Option.bind_some]
    cases o with
    | tuple items =>
      obtain ⟨ks, hks⟩ := mapM_of_forall fun p hm => ih (hp p hm)
      exact ⟨.tuple ks, Option.map_eq_some_iff.2 ⟨ks, hks, rfl⟩⟩
    | _ => exact ⟨_, rfl⟩

namespace Legible

variable {heap : Heap} {see : Handle → Option Object} {α : Type} {keyOf : α → Handle}
  {t : Table α}

/-- The key of a value that is grounded. -/
abbrev keyAt (heap : Heap) (see : Handle → Option Object) (v : Handle) : Option Key :=
  key? see heap.capacity v

/-- In a table whose keys are grounded every entry is in the bucket of its hash. -/
theorem keyed (L : Legible heap see) (f : Filed see (t.filings keyOf)) {x : α}
    (hx : x ∈ t.toList) (g : Grounded see (keyOf x)) :
    ∃ h κ, x ∈ t.bucket h ∧ keyAt heap see (keyOf x) = some κ ∧ κ.hash? = some h ∧
      Heap.hash (keyOf x) heap = .ok h := by
  obtain ⟨h, hm⟩ := Table.mem_toList.1 hx
  obtain ⟨κ, hκ⟩ := key?_of_within (g.within L.shows)
  have hmem : (h, keyOf x) ∈ t.filings keyOf :=
    Table.mem_filings.2 ⟨x, Table.mem_bucket.2 hm, rfl⟩
  have hh := f.hashed _ hmem _ κ hκ
  refine ⟨h, κ, Table.mem_bucket.2 hm, hκ, hh, Heap.bind_eq_ok.2 ⟨_, Heap.depth_eq_ok.2 rfl, ?_⟩⟩
  exact hashWithin_of_key L.shows L.texts hκ hh (Nat.le_succ _)

theorem nodup_keys (L : Legible heap see) (f : Filed see (t.filings keyOf))
    (g : ∀ x ∈ t.toList, Grounded see (keyOf x)) :
    (t.toList.map fun x => keyAt heap see (keyOf x)).Nodup := by
  have hpair := f.apart
  rw [Table.filings, List.pairwise_map] at hpair
  rw [Table.toList, List.map_map, List.Nodup, List.pairwise_map]
  refine hpair.imp_of_mem fun {x y} hx hy hne he => ?_
  obtain ⟨κ, hκ⟩ := key?_of_within ((g x.2 (Table.mem_toList.2 ⟨_, hx⟩)).within L.shows)
  exact hne _ κ hκ (he.symm.trans hκ)

/-- A look-up that ends has found the entry with the same key, or there is none. -/
theorem found_iff (L : Legible heap see) (f : Filed see (t.filings keyOf))
    (g : ∀ x ∈ t.toList, Grounded see (keyOf x)) {n : Nat} {k : Handle} {κ : Key} {h : UInt64}
    (hk : keyAt heap see k = some κ) (hκ : κ.hash? = some h) {o : Option α}
    (ho : (t.bucket h).findM? (fun x => Heap.equalWithin n (keyOf x) k) heap = .ok o) {x : α} :
    o = some x ↔ x ∈ t.toList ∧ keyAt heap see (keyOf x) = keyAt heap see k := by
  have hfound : ∀ {y}, o = some y →
      y ∈ t.toList ∧ keyAt heap see (keyOf y) = keyAt heap see k := by
    rintro y rfl
    obtain ⟨hb, heq⟩ := Heap.of_findM?_eq_some ho
    have hmem := Table.mem_of_mem_bucket hb
    obtain ⟨h', κ', -, hk', hκ', -⟩ := L.keyed f hmem (g y hmem)
    rw [hk, hk', (equal_iff_key L.shows hk' hk hκ' hκ heq).1 rfl]
    exact ⟨hmem, rfl⟩
  constructor
  · exact hfound
  · rintro ⟨hx, hkey⟩
    obtain ⟨h', κ', hb, hk', hκ', -⟩ := L.keyed f hx (g x hx)
    obtain rfl : κ' = κ := Option.some.inj (hk'.symm.trans (hkey.trans hk))
    obtain rfl : h' = h := Option.some.inj (hκ'.symm.trans hκ)
    cases o with
    | none =>
      have hfalse := Heap.of_findM?_eq_none ho x hb
      exact absurd ((equal_iff_key L.shows hk' hk hκ' hκ hfalse).2 rfl) nofun
    | some y =>
      obtain ⟨hy, hykey⟩ := hfound rfl
      rw [List.inj_on_of_nodup_map (L.nodup_keys f g) hy hx (hykey.trans hkey.symm)]

/-- Equal keys of two tables are the same key. -/
theorem keyAt_eq (L : Legible heap see) {d e : Table α}
    (fd : Filed see (d.filings keyOf)) (fe : Filed see (e.filings keyOf)) {x y : α} {n : Nat}
    (hx : x ∈ d.toList) (hy : y ∈ e.toList) (gx : Grounded see (keyOf x))
    (gy : Grounded see (keyOf y)) (h : Heap.equalWithin n (keyOf x) (keyOf y) heap = .ok true) :
    keyAt heap see (keyOf y) = keyAt heap see (keyOf x) := by
  obtain ⟨u, κ, -, hκ, hu, -⟩ := L.keyed fd hx gx
  obtain ⟨u', κ', -, hκ', hu', -⟩ := L.keyed fe hy gy
  obtain rfl := (equal_iff_key L.shows hκ hκ' hu hu' h).1 rfl
  exact hκ'.trans hκ.symm

end Legible

end ObjectSpace
