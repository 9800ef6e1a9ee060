import ObjectSpace.Proofs.Execution.Draining
import ObjectSpace.Proofs.Execution.Sorting

/-!
# The least and the greatest value

**Theorem (`extremes_sorted`).** In runs, of values that `<` orders without ordering sets, `min`
chooses the one that sorting puts first, and `max` the first one that no other exceeds. Sorting puts
that at the front of the values that are equal to it, which come last.

A tie is equality then: where no set takes part, a comparison that answers finds one value less or
the two equal (`order_cases`). So ties are transitive, and values are sorted by their places where
they tie. The two choices go through the values in one direction, and what they keep is better than
all before it and no worse than all after it (`best_eq`). Among the places of the values there is
one like that, for either direction of `<`, and a stable order has it where the theorem says
(`StableOrder.head_eq`, `StableOrder.final_run`).
-/

namespace ObjectSpace

namespace Heap

/-- Two values are found to be equal, however deep that goes. -/
def Equals (heap : Heap) (x y : Handle) : Prop := ∃ n, Yes heap (equalWithin n) x y

/-- Ordering two values comes down to ordering two sets. -/
inductive OrdersSets (heap : Heap) : Handle → Handle → Prop
  | sets {a b : Handle} {t u : Table Handle} : heap.get? a = some (.set t) →
      heap.get? b = some (.set u) → OrdersSets heap a b
  | list {a b p q : Handle} {xs ys : Array Handle} : heap.get? a = some (.list xs) →
      heap.get? b = some (.list ys) →
      firstDifference xs.toList ys.toList heap = .ok (some (p, q)) → OrdersSets heap p q →
      OrdersSets heap a b
  | tuple {a b p q : Handle} {xs ys : Array Handle} : heap.get? a = some (.tuple xs) →
      heap.get? b = some (.tuple ys) →
      firstDifference xs.toList ys.toList heap = .ok (some (p, q)) → OrdersSets heap p q →
      OrdersSets heap a b

/-- `<` answers on two values, and it does not order sets for that. -/
def Decides (heap : Heap) (x y : Handle) : Prop :=
  (∃ r, lessThan x y heap = .ok r) ∧ ¬ heap.OrdersSets x y

/-- `<` decides between the values at any two places, in both orders of the arguments. -/
def Comparable (heap : Heap) (items : List Handle) : Prop :=
  items.Pairwise fun x y => heap.Decides x y ∧ heap.Decides y x

/-- What `min` and `max` choose from values, and where it is among them and after sorting. -/
structure Extremes (heap : Heap) (first : Handle) (rest : List Handle)
    (least greatest : Handle) (sorted : List Handle) : Prop where
  min : best lessThan first rest heap = .ok least
  max : best (fun x b => lessThan b x) first rest heap = .ok greatest
  sorts : sort (first :: rest) heap = .ok sorted
  leads : sorted.head? = some least
  unexceeded : ∀ x ∈ first :: rest, ¬ heap.Less greatest x
  earliest : ∃ before after, first :: rest = before ++ greatest :: after ∧
    ∀ x ∈ before, heap.Less x greatest
  run : ∃ low run, sorted = low ++ greatest :: run ∧
    (∀ x ∈ greatest :: run, ∀ y ∈ greatest :: run, heap.Equals x y) ∧
    ∀ x ∈ low, ∀ y ∈ greatest :: run, ¬ heap.Equals x y

variable {heap : Heap} {a b p q : Handle} {xs ys items : List Handle} {x y : Object} {n : Nat}

/-! ## Ties -/

theorem equals_refl {o : Object} (h : heap.get? a = some o) : heap.Equals a a :=
  ⟨1, by rw [Yes, equalWithin_succ h h, if_pos rfl]⟩

theorem equals_of_same (hx : heap.get? a = some x) (hy : heap.get? b = some y)
    (h : Same heap (equalWithin n) x y) : heap.Equals a b := by
  refine ⟨n + 1, ?_⟩
  rw [Yes, equalWithin_succ hx hy, sameContent_eq_true.2 h, ite_self]

theorem firstDifference_some (h : firstDifference xs ys heap = .ok (some (p, q))) :
    equal p q heap = .ok false := by
  induction xs generalizing ys with
  | nil => cases ys <;> cases h
  | cons x xs ih =>
    cases ys with
    | nil => cases h
    | cons y ys =>
      obtain ⟨r, hr, h⟩ := bind_eq_ok.1 h
      cases r with
      | true => exact ih h
      | false =>
        obtain ⟨rfl, rfl⟩ := Prod.mk.inj (Option.some.inj (pure_eq_ok.1 h))
        exact hr

theorem firstDifference_none (hlen : xs.length = ys.length)
    (h : firstDifference xs ys heap = .ok none) :
    List.Forall₂ (Yes heap (equalWithin (heap.capacity + 1))) xs ys := by
  induction xs generalizing ys with
  | nil =>
    obtain rfl := List.eq_nil_of_length_eq_zero hlen.symm
    exact .nil
  | cons x xs ih =>
    cases ys with
    | nil => cases hlen
    | cons y ys =>
      obtain ⟨r, hr, h⟩ := bind_eq_ok.1 h
      cases r with
      | true =>
        have hdepth : equal x y heap = equalWithin (heap.capacity + 1) x y heap :=
          bind_of_ok (depth_eq_ok.2 rfl)
        exact .cons (hdepth.symm.trans hr) (ih (Nat.succ.inj hlen) h)
      | false => cases pure_eq_ok.1 h

end Heap

open Heap (bind_of_ok)

/-- By an order one of two values is less, or they are equal. -/
theorem cases_of_ordering {v : Option Verdict} {o : Ordering} {p q : Prop}
    (hv : v = some (.ofOrdering o)) (he : o = .eq → p) :
    v = some .less ∨ v = some .greater ∨ p ∨ q := by
  subst hv
  cases o with
  | lt => exact .inl rfl
  | gt => exact .inr (.inl rfl)
  | eq => exact .inr (.inr (.inl (he rfl)))

namespace Legible

variable {heap : Heap} {see : Handle → Option Object} (L : Legible heap see) {P : Handle → Prop}
  (hP : Readable see P) {a b : Handle} {n : Nat} {r : Bool}

include L hP

theorem resemble_of_equals (ha : P a) (hb : P b) (h : heap.Equals a b) :
    heap.Resemble see a b := by
  obtain ⟨n, hn⟩ := h
  exact (equalWithin_iff L hP n a b true ha hb hn).1 rfl

omit hP in
theorem equals_iff (ga : Grounded see a) (gb : Grounded see b) :
    heap.Equals a b ↔ Heap.equal a b heap = .ok true := by
  constructor
  · exact fun h => (L.equal_true_iff ga gb).2 (L.resemble_of_equals (readable_grounded see) ga gb h)
  · intro h
    obtain ⟨n, -, hn⟩ := Heap.bind_eq_ok.1 h
    exact ⟨n, hn⟩

/-- How a comparison of two sequences ends, given how one of their elements does. -/
theorem order_cases_items {xs ys : Array Handle} (hx : ∀ p ∈ xs.toList, P p)
    (hy : ∀ q ∈ ys.toList, P q)
    (hitems : ∀ p ∈ xs.toList, ∀ q ∈ ys.toList, ∀ r, Heap.orderedWithin n .lt p q heap = .ok r →
      heap.verdict see n p q = some .less ∨ heap.verdict see n p q = some .greater ∨
        heap.Equals p q ∨ heap.OrdersSets p q)
    (hequals : List.Forall₂ (Heap.Yes heap (Heap.equalWithin (heap.capacity + 1))) xs.toList
      ys.toList → heap.Equals a b)
    (hsets : ∀ {p q}, Heap.firstDifference xs.toList ys.toList heap = .ok (some (p, q)) →
      heap.OrdersSets p q → heap.OrdersSets a b)
    (h : (do
      match ← Heap.firstDifference xs.toList ys.toList with
      | some (x, y) => Heap.orderedWithin n .lt x y
      | none => return Comparison.lt.holds (compare xs.size ys.size) : Query Bool) heap = .ok r) :
    lexVerdict (heap.Resemble see) (heap.verdict see n) xs.toList ys.toList = some .less ∨
      lexVerdict (heap.Resemble see) (heap.verdict see n) xs.toList ys.toList = some .greater ∨
      heap.Equals a b ∨ heap.OrdersSets a b := by
  obtain ⟨d, hd, h⟩ := Heap.bind_eq_ok.1 h
  rcases Heap.firstDifference_verdict (heap.verdict see n) (fun p hp q hq _ =>
    L.equal_iff_resemble hP (hx p hp) (hy q hq)) hd with ⟨p, hp, q, hq, rfl, hv⟩ | ⟨rfl, hv⟩
  · rw [hv]
    refine (hitems p hp q hq r h).imp_right (Or.imp_right (Or.imp (fun h => ?_) (hsets hd)))
    -- what differs is not equal
    have hfalse := L.equal_iff_resemble hP (hx p hp) (hy q hq) (Heap.firstDifference_some hd)
    exact absurd (hfalse.2 (L.resemble_of_equals hP (hx p hp) (hy q hq) h)) nofun
  · refine cases_of_ordering hv fun he => hequals ?_
    exact Heap.firstDifference_none (Std.LawfulEqCmp.compare_eq_iff_eq.1 he) hd

/-- **Trichotomy.** Where `<` answers, one of two values is less, or they are equal, or it has
ordered sets. -/
theorem order_cases (ha : P a) (hb : P b) (h : Heap.orderedWithin n .lt a b heap = .ok r) :
    heap.verdict see n a b = some .less ∨ heap.verdict see n a b = some .greater ∨
      heap.Equals a b ∨ heap.OrdersSets a b := by
  induction n generalizing a b r with
  | zero => cases h
  | succ n ih =>
    have hlt : Comparison.lt.Orders := ⟨nofun, nofun⟩
    obtain ⟨v, hv, -⟩ := orderedWithin_verdict L hP hlt ha hb h
    obtain ⟨x, hx, ex⟩ := hP.entered L ha
    obtain ⟨y, hy, ey⟩ := hP.entered L hb
    have hgx := L.shows a x hx
    have hgy := L.shows b y hy
    rw [Heap.verdict, hx, hy, Option.bind_some, Option.bind_some] at hv ⊢
    obtain ⟨k, hk, hv⟩ := Option.bind_eq_some_iff.1 hv
    obtain ⟨k', hk', hv⟩ := Option.bind_eq_some_iff.1 hv
    rw [hk, hk', Option.bind_some, Option.bind_some]
    rw [Heap.orderedWithin, bind_of_ok (Heap.get_eq_ok.2 hgx),
      bind_of_ok (Heap.get_eq_ok.2 hgy)] at h
    cases Rank.kin_of_judge hv with
    | number i j =>
      refine cases_of_ordering rfl fun he => Heap.equals_of_same hgx hgy (n := 0) ?_
      obtain rfl := Std.LawfulEqCmp.compare_eq_iff_eq.1 he
      exact .number (Object.of_rank?_number hk) (Object.of_rank?_number hk')
    | text s t =>
      refine cases_of_ordering rfl fun he => Heap.equals_of_same hgx hgy (n := 0) ?_
      obtain rfl := Std.LawfulEqCmp.compare_eq_iff_eq.1 he
      obtain ⟨_, rfl⟩ := Object.of_rank?_text hk
      obtain ⟨_, rfl⟩ := Object.of_rank?_text hk'
      exact .str ..
    | bytes s t =>
      refine cases_of_ordering rfl fun he => Heap.equals_of_same hgx hgy (n := 0) ?_
      obtain rfl := Std.LawfulEqCmp.compare_eq_iff_eq.1 he
      obtain rfl := Object.of_rank?_bytes hk
      obtain rfl := Object.of_rank?_bytes hk'
      exact .bytes _
    | list xs ys =>
      obtain rfl := Object.of_rank?_list hk
      obtain rfl := Object.of_rank?_list hk'
      exact L.order_cases_items hP ex.parts ey.parts
        (fun p hp q hq r => ih (ex.parts p hp) (ey.parts q hq))
        (fun h => Heap.equals_of_same hgx hgy (.list h)) (.list hgx hgy) h
    | tuple xs ys =>
      obtain rfl := Object.of_rank?_tuple hk
      obtain rfl := Object.of_rank?_tuple hk'
      exact L.order_cases_items hP ex.parts ey.parts
        (fun p hp q hq r => ih (ex.parts p hp) (ey.parts q hq))
        (fun h => Heap.equals_of_same hgx hgy (.tuple h)) (.tuple hgx hgy) h
    | set s t =>
      obtain ⟨t, rfl, -⟩ := Object.of_rank?_set hk
      obtain ⟨u, rfl, -⟩ := Object.of_rank?_set hk'
      exact .inr (.inr (.inr (.sets hgx hgy)))

theorem equals_of_ties (ha : P a) (hb : P b) (hab : heap.Decides a b)
    (hba : ∃ r, Heap.lessThan b a heap = .ok r) (h : heap.Ties a b) : heap.Equals a b := by
  obtain ⟨⟨r, hr⟩, hno⟩ := hab
  obtain ⟨r', hr'⟩ := hba
  obtain ⟨v, hv, rfl⟩ := lessThan_verdict L hP ha hb hr
  obtain ⟨w, hw, rfl⟩ := lessThan_verdict L hP hb ha hr'
  have hdepth : Heap.lessThan a b heap = Heap.orderedWithin (heap.capacity + 1) .lt a b heap :=
    bind_of_ok (Heap.depth_eq_ok.2 rfl)
  rcases L.order_cases hP ha hb (hdepth ▸ hr) with hless | hgreater | heq | hsets
  · rw [hless, Option.some.injEq] at hv
    subst hv
    exact absurd hr h.1
  · have hswap := (L.coherent_verdict hP (heap.capacity + 1)).swap a b ha hb
    rw [hgreater, hw, Option.map_some, Option.some.injEq] at hswap
    subst hswap
    exact absurd hr' h.2
  · exact heq
  · exact absurd hsets hno

theorem not_equals_of_less (ha : P a) (hb : P b) (h : heap.Less a b) : ¬ heap.Equals a b :=
  fun he => (L.coherent_verdict hP _).not_same ha hb (verdict_of_less L hP ha hb h)
    (L.resemble_of_equals hP ha hb he)

theorem not_less_of_resemble (ha : P a) (hb : P b) (h : heap.Resemble see a b) :
    ¬ heap.Less a b := fun hless =>
  (L.coherent_verdict hP _).not_same ha hb (verdict_of_less L hP ha hb hless) h

section Comparable

variable {items : List Handle} (hitems : ∀ x ∈ items, P x) (h : heap.Comparable items)
  {x y : Handle}

omit L hP in
include h in
theorem decides_of_ne (hx : x ∈ items) (hy : y ∈ items) (hne : x ≠ y) :
    heap.Decides x y ∧ heap.Decides y x := by
  have : Std.Symm fun x y => heap.Decides x y ∧ heap.Decides y x := ⟨fun _ _ => And.symm⟩
  exact List.Pairwise.forall h hx hy hne

include hitems h

theorem equals_of_mem (hx : x ∈ items) (hy : y ∈ items) (ht : heap.Ties x y) :
    heap.Equals x y := by
  by_cases hne : x = y
  · subst hne
    obtain ⟨o, ho, -⟩ := hP.entered L (hitems x hx)
    exact Heap.equals_refl (L.shows x o ho)
  · obtain ⟨hxy, hyx⟩ := decides_of_ne h hx hy hne
    exact L.equals_of_ties hP (hitems x hx) (hitems y hy) hxy hyx.1 ht

/-- Values that `<` decides between are ordered by it, but for ties. -/
theorem orders_of_comparable : heap.Orders items := by
  refine L.orders hP hitems ⟨h.imp fun h => ⟨h.1.1, h.2.1⟩, fun x hx y hy z hz hxy hyz => ?_⟩
  have S := sameOn_resemble L hP
  have hrxy := L.resemble_of_equals hP (hitems x hx) (hitems y hy)
    (L.equals_of_mem hP hitems h hx hy hxy)
  have hryz := L.resemble_of_equals hP (hitems y hy) (hitems z hz)
    (L.equals_of_mem hP hitems h hy hz hyz)
  have hrxz := S.trans x y z (hitems x hx) (hitems y hy) (hitems z hz) hrxy hryz
  exact ⟨L.not_less_of_resemble hP (hitems x hx) (hitems z hz) hrxz,
    L.not_less_of_resemble hP (hitems z hz) (hitems x hx)
      (S.symm x z (hitems x hx) (hitems z hz) hrxz)⟩

end Comparable

end Legible

/-! ## Choosing -/

namespace Heap

variable {heap : Heap} {items rest : List Handle} {first : Handle}

/-- What is better than all before it, and than which nothing after it is better, is not
exceeded. -/
theorem unexceeded_of_split {R : Handle → Handle → Prop} {l before after : List Handle}
    {m : Handle} (hasymm : ∀ x ∈ l, ∀ y ∈ l, R x y → ¬ R y x) (hsplit : l = before ++ m :: after)
    (hbefore : ∀ x ∈ before, R m x) (hafter : ∀ x ∈ after, ¬ R x m) : ∀ x ∈ l, ¬ R x m := by
  intro x hx
  have hm : m ∈ l := hsplit ▸ List.mem_append_right _ List.mem_cons_self
  have hcases := hx
  rw [hsplit, List.mem_append, List.mem_cons] at hcases
  rcases hcases with hbef | rfl | haft
  · exact hasymm m hm x hx (hbefore x hbef)
  · exact fun hself => hasymm x hx x hx hself hself
  · exact hafter x haft

/-- **Choosing.** What is kept is better than all before it, and nothing after it is better, as long
as one of two values is answered to be better and what is better than another one is better than
anything that is not. -/
theorem best_eq (better : Handle → Handle → Query Bool)
    (hanswers : (first :: rest).Pairwise fun x y => ∃ r, better y x heap = .ok r)
    (hasymm : ∀ x ∈ items, ∀ y ∈ items, better x y heap = .ok true → better y x heap ≠ .ok true)
    (hcotrans : ∀ x ∈ items, ∀ y ∈ items, ∀ z ∈ items, better x z heap = .ok true →
      better x y heap = .ok true ∨ better y z heap = .ok true)
    (hitems : ∀ x ∈ first :: rest, x ∈ items) :
    ∃ before m after, first :: rest = before ++ m :: after ∧ best better first rest heap = .ok m ∧
      (∀ x ∈ before, better m x heap = .ok true) ∧ ∀ x ∈ after, better x m heap ≠ .ok true := by
  induction rest using List.reverseRecOn with
  | nil => exact ⟨[], first, [], rfl, rfl, List.forall_mem_nil _, List.forall_mem_nil _⟩
  | append_singleton rest x ih =>
    rw [← List.cons_append, List.pairwise_append] at hanswers
    obtain ⟨hinner, -, hacross⟩ := hanswers
    have hsub : ∀ y ∈ first :: rest, y ∈ items := fun y hy =>
      hitems y (List.mem_append_left [x] hy)
    obtain ⟨before, m, after, hsplit, hm, hbefore, hafter⟩ := ih hinner hsub
    have hmem : m ∈ first :: rest := hsplit ▸ List.mem_append_right _ List.mem_cons_self
    have hx : x ∈ items :=
      hitems x (List.mem_append_right (first :: rest) (List.mem_singleton_self x))
    obtain ⟨r, hr⟩ := hacross m hmem x (List.mem_singleton_self x)
    have hbest : best better first (rest ++ [x]) heap = .ok (if r then x else m) := by
      rw [best, List.foldlM_append]
      refine (bind_of_ok hm).trans ?_
      rw [List.foldlM_cons, bind_assoc]
      refine (bind_of_ok hr).trans ?_
      cases r <;> rfl
    cases r with
    | false =>
      refine ⟨before, m, after ++ [x], ?_, hbest, hbefore, ?_⟩
      · rw [← List.cons_append, hsplit, List.append_assoc, List.cons_append]
      · rw [List.forall_mem_append]
        refine ⟨hafter, List.forall_mem_singleton.2 ?_⟩
        rw [hr]
        nofun
    | true =>
      refine ⟨first :: rest, x, [], List.cons_append.symm, hbest, fun y hy => ?_,
        List.forall_mem_nil _⟩
      -- nothing before the new one is better than what was kept
      have hnone := unexceeded_of_split (R := fun x y => better x y heap = .ok true)
        (fun x hx y hy => hasymm x (hsub x hx) y (hsub y hy)) hsplit hbefore hafter
      exact (hcotrans x hx y (hsub y hy) m (hsub m hmem) hr).resolve_right (hnone y hy)

/-- What is less than another value is less than a third one, or that is less than the other. -/
theorem Orders.cotrans (h : heap.Orders items) {x y z : Handle} (hx : x ∈ items) (hy : y ∈ items)
    (hz : z ∈ items) (hxz : heap.Less x z) : heap.Less x y ∨ heap.Less y z := by
  by_contra hnot
  obtain ⟨hxy, hyz⟩ := not_or.1 hnot
  by_cases hyx : heap.Less y x
  · exact hyz (h.trans y hy x hx z hz hyx hxz)
  · exact hyz (h.ties_less hy hx hz ⟨hyx, hxy⟩ hxz)

/-! ## Places in a stable order -/

theorem exists_place {before after : List Handle} {m : Handle} (h : items = before ++ m :: after) :
    ∃ k : Fin items.length, items.get k = m ∧ (∀ i < k, items.get i ∈ before) ∧
      ∀ i, k < i → items.get i ∈ after := by
  subst h
  have hk : before.length < (before ++ m :: after).length := by simp
  refine ⟨⟨before.length, hk⟩, by simp, fun i hi => ?_, fun i hi => ?_⟩
  · have hlt : i.val < before.length := hi
    rw [List.get_eq_getElem, List.getElem_append_left hlt]
    exact List.getElem_mem hlt
  · have hlt : before.length < i.val := hi
    have hne : i.val - before.length ≠ 0 := Nat.sub_ne_zero_of_lt hlt
    rw [List.get_eq_getElem, List.getElem_append_right hlt.le, List.getElem_cons, dif_neg hne]
    exact List.getElem_mem _

namespace StableOrder

variable {order : List (Fin items.length)} (h : heap.StableOrder items order)
  {k : Fin items.length}

include h

theorem mem_order (i : Fin items.length) : i ∈ order := h.perm.mem_iff.2 (List.mem_finRange i)

theorem head_eq (hbefore : ∀ i < k, heap.Less (items.get k) (items.get i))
    (hafter : ∀ i, k < i → ¬ heap.Less (items.get i) (items.get k)) : order.head? = some k := by
  cases order with
  | nil => cases h.mem_order k
  | cons i order =>
    rw [List.head?_cons, Option.some.injEq]
    by_contra hne
    have hk : k ∈ order := (List.mem_cons.1 (h.mem_order k)).resolve_left (Ne.symm hne)
    have hnot := (List.pairwise_cons.1 h.ascending).1 k hk
    rcases lt_or_gt_of_ne hne with hlt | hgt
    · exact hnot (hbefore i hlt)
    · have hlt := (List.pairwise_cons.1 h.stable).1 k hk ⟨hafter i hgt, hnot⟩
      exact hgt.asymm hlt

/-- A value that all before it are less than and that is less than none after it is followed by
those that it ties with, and what comes before it is less. -/
theorem final_run (hbefore : ∀ i < k, heap.Less (items.get i) (items.get k))
    (hafter : ∀ i, k < i → ¬ heap.Less (items.get k) (items.get i)) :
    ∃ low run, order = low ++ k :: run ∧ (∀ i ∈ low, heap.Less (items.get i) (items.get k)) ∧
      ∀ i ∈ run, heap.Ties (items.get k) (items.get i) := by
  obtain ⟨low, run, rfl⟩ := List.append_of_mem (h.mem_order k)
  obtain ⟨-, hrun, hlow⟩ := List.pairwise_append.1 (h.ascending.and h.stable)
  refine ⟨low, run, rfl, fun i hi => ?_, fun i hi => ?_⟩
  · obtain ⟨hnot, hstable⟩ := hlow i hi k List.mem_cons_self
    by_contra hless
    have hlt := hstable ⟨hless, hnot⟩
    exact hless (hbefore i hlt)
  · obtain ⟨hnot, hstable⟩ := (List.pairwise_cons.1 hrun).1 i hi
    rcases lt_trichotomy i k with hlt | rfl | hgt
    · exact absurd (hbefore i hlt) hnot
    · exact ⟨hnot, hnot⟩
    · exact ⟨hafter i hgt, hnot⟩

end StableOrder

end Heap

namespace Legible

variable {heap : Heap} {see : Handle → Option Object} (L : Legible heap see) {P : Handle → Prop}
  (hP : Readable see P) {first : Handle} {rest : List Handle}

include L hP

/-- **Extremes** of values that can be read through and through, as long as `<` decides between
them. -/
theorem extremes (hitems : ∀ x ∈ first :: rest, P x) (h : heap.Comparable (first :: rest)) :
    ∃ least greatest sorted, heap.Extremes first rest least greatest sorted := by
  have O := L.orders_of_comparable hP hitems h
  obtain ⟨order, hstable, -, hsort⟩ := O.sortsStably
  obtain ⟨before, least, after, hsplit, hleast, hbefore, hafter⟩ :=
    Heap.best_eq Heap.lessThan (h.imp fun h => h.2.1) O.asymm
      (fun x hx y hy z hz => O.cotrans hx hy hz) fun x hx => hx
  obtain ⟨before', greatest, after', hsplit', hgreatest, hbefore', hafter'⟩ :=
    Heap.best_eq (fun x b => Heap.lessThan b x) (h.imp fun h => h.1.1)
      (fun x hx y hy => O.asymm y hy x hx)
      (fun x hx y hy z hz hzx => (O.cotrans hz hy hx hzx).symm) fun x hx => hx
  obtain ⟨k, hk, hk₁, hk₂⟩ := Heap.exists_place hsplit
  obtain ⟨m, hm, hm₁, hm₂⟩ := Heap.exists_place hsplit'
  have hhead : order.head? = some k := hstable.head_eq
    (fun i hi => hk ▸ hbefore _ (hk₁ i hi)) fun i hi => hk ▸ hafter _ (hk₂ i hi)
  obtain ⟨low, run, hrun, hlow, hties⟩ := hstable.final_run (k := m)
    (fun i hi => hm ▸ hbefore' _ (hm₁ i hi)) fun i hi => hm ▸ hafter' _ (hm₂ i hi)
  have hg : greatest ∈ first :: rest := hm ▸ List.get_mem _ m
  have hunexceeded := Heap.unexceeded_of_split (R := fun x y => heap.Less y x)
    (fun x hx y hy => O.asymm y hy x hx) hsplit' hbefore' hafter'
  have hself : heap.Ties greatest greatest := ⟨hunexceeded _ hg, hunexceeded _ hg⟩
  have htie : ∀ x ∈ greatest :: run.map (first :: rest).get,
      x ∈ first :: rest ∧ heap.Ties greatest x := by
    refine List.forall_mem_cons.2 ⟨⟨hg, hself⟩, fun x hx => ?_⟩
    obtain ⟨i, hi, rfl⟩ := List.mem_map.1 hx
    exact ⟨List.get_mem _ i, hm ▸ hties i hi⟩
  refine ⟨least, greatest, order.map (first :: rest).get, hleast, hgreatest, hsort, ?_,
    hunexceeded, ⟨before', after', hsplit', hbefore'⟩, low.map (first :: rest).get,
    run.map (first :: rest).get, ?_, fun x hx y hy => ?_, fun x hx y hy => ?_⟩
  · rw [List.head?_map, hhead, Option.map_some, hk]
  · rw [hrun, List.map_append, List.map_cons, hm]
  · obtain ⟨hxmem, hxties⟩ := htie x hx
    obtain ⟨hymem, hyties⟩ := htie y hy
    exact L.equals_of_mem hP hitems h hxmem hymem
      (O.ties x hxmem greatest hg y hymem hxties.symm hyties)
  · obtain ⟨i, hi, rfl⟩ := List.mem_map.1 hx
    obtain ⟨hymem, hyties⟩ := htie y hy
    have hless := O.less_of_ties (List.get_mem _ i) hg hymem (hm ▸ hlow i hi) hyties
    exact L.not_equals_of_less hP (hitems _ (List.get_mem _ i)) (hitems y hymem) hless

end Legible

/-! ## In runs -/

namespace Space

variable {s s' : Space} {args items : List Handle} {v first least greatest : Handle}
  {rest sorted : List Handle} {xs : Array Handle} {name : String} {kwargs : Option Handle}

/-- What `min` and `max` choose from: all that a single argument gives, or several arguments. -/
inductive Chooses (s : Space) : List Handle → List Handle → Space → Prop
  | given {v : Handle} {items : Array Handle} {s' : Space} : collect v s = .ok items s' →
      Chooses s [v] items.toList s'
  | several {a b : Handle} {args : List Handle} : Chooses s (a :: b :: args) (a :: b :: args) s

theorem Chooses.candidates (h : s.Chooses args items s') (hitems : items = first :: rest)
    (name : String) : candidates name args s = .ok (first, rest) s' := by
  cases h with
  | given h =>
    refine (bind_of_ok h).trans ?_
    rw [pure_bind, hitems]
    rfl
  | several =>
    obtain ⟨rfl, rfl⟩ := List.cons.inj hitems
    rfl

theorem runBuiltin_min (h : s.Chooses args (first :: rest) s')
    (hbest : Heap.best Heap.lessThan first rest s'.heap = .ok least) :
    runBuiltin .min args kwargs s = .ok least s' :=
  (bind_of_ok (h.candidates rfl "min")).trans (ask_of_ok hbest)

theorem runBuiltin_max (h : s.Chooses args (first :: rest) s')
    (hbest : Heap.best (fun x b => Heap.lessThan b x) first rest s'.heap = .ok greatest) :
    runBuiltin .max args kwargs s = .ok greatest s' :=
  (bind_of_ok (h.candidates rfl "max")).trans (ask_of_ok hbest)

theorem runBuiltin_sorted (h : s.Chooses [v] items s')
    (hsort : Heap.sort items s'.heap = .ok sorted) :
    runBuiltin .sorted [v] kwargs s = newList sorted.toArray s' := by
  obtain ⟨xs, hxs, rfl⟩ : ∃ xs : Array Handle, collect v s = .ok xs s' ∧ xs.toList = items := by
    cases h with
    | given h => exact ⟨_, h, rfl⟩
  show (collect v >>= fun xs => (liftM (Heap.sort xs.toList) : Action (List Handle)) >>=
    fun sorted => newList sorted.toArray) s = _
  rw [bind_of_ok hxs, ask_bind_of_ok hsort]

end Space

open Space

variable {settings : Settings} {disk : Disk} {s s' : Space} {args : List Handle} {first : Handle}
  {rest : List Handle}

theorem Space.Chooses.later (h : s.Chooses args (first :: rest) s') (r : LiveRun settings disk s)
    (hargs : ∀ v ∈ args, s.heap.isLive v = true) :
    LiveRun settings disk s' ∧ ∀ x ∈ first :: rest, s'.heap.isLive x = true := by
  generalize hitems : first :: rest = items at h
  cases h with
  | @given v items _ h =>
    have hv := hargs v (List.mem_singleton_self v)
    exact ⟨r.after (.collect v) rfl (List.forall_mem_singleton.2 hv) h,
      (later_collect r.firm hv h).2⟩
  | several => exact ⟨r, hargs⟩

/-- **Extremes.** Among values that `<` decides between, the least and the greatest one are where
sorting and the order of the values say. In runs on live handles `min` and `max` give these, be the
values those of one argument, which `sorted` sorts then, or several arguments. Equality of values
that do not contain themselves answers. -/
theorem extremes_sorted :
    (∀ lost first rest, Ran settings disk s lost →
      (∀ x ∈ first :: rest, Grounded (seeKept lost s.heap) x) →
      s.heap.Comparable (first :: rest) →
        (∃ least greatest sorted, s.heap.Extremes first rest least greatest sorted) ∧
        ∀ x ∈ first :: rest, ∀ y ∈ first :: rest,
          s.heap.Equals x y ↔ Heap.equal x y s.heap = .ok true) ∧
    ∀ args first rest s', LiveRun settings disk s → (∀ v ∈ args, s.heap.isLive v = true) →
      s.Chooses args (first :: rest) s' → s'.heap.Comparable (first :: rest) →
        (∃ least greatest sorted, s'.heap.Extremes first rest least greatest sorted ∧
          runBuiltin .min args none s = .ok least s' ∧
          runBuiltin .max args none s = .ok greatest s' ∧
          ∀ v, args = [v] → ∃ l s'', runBuiltin .sorted [v] none s = .ok l s'' ∧
            Space.Frame [] s' s'' ∧ s''.heap.Has l (.list sorted.toArray)) ∧
        ∀ x ∈ first :: rest, ∀ y ∈ first :: rest, Grounded (seeLive s'.heap) x →
          Grounded (seeLive s'.heap) y →
            (s'.heap.Equals x y ↔ Heap.equal x y s'.heap = .ok true) := by
  refine ⟨fun lost first rest r hitems h => ?kept,
    fun args first rest s' r hargs hchoice h => ?live⟩
  case kept =>
    exact ⟨r.legible.extremes (readable_grounded _) hitems h,
      fun x hx y hy => r.legible.equals_iff (hitems x hx) (hitems y hy)⟩
  case live =>
    obtain ⟨r', hlive⟩ := hchoice.later r hargs
    have i := r'.firm.toOrdered
    obtain ⟨least, greatest, sorted, hex⟩ := i.legible.extremes i.readable hlive h
    refine ⟨⟨least, greatest, sorted, hex, runBuiltin_min hchoice hex.min,
      runBuiltin_max hchoice hex.max, ?_⟩, fun x _ y _ => i.legible.equals_iff⟩
    rintro v rfl
    have hmem : ∀ g ∈ sorted.toArray.toList, s'.heap.isLive g = true := fun g hg =>
      hlive g ((Heap.sort_perm hex.sorts).subset hg)
    obtain ⟨l, s'', hl, -, f, hhas⟩ := makes_newList (steady_of_liveRun r') hmem
    exact ⟨l, s'', (runBuiltin_sorted hchoice hex.sorts).trans hl, f, hhas⟩

theorem comparable_numbers {heap : Heap} {items : List Handle}
    (h : ∀ v ∈ items, ∃ o n, heap.Has v o ∧ o.asInt? = some n) : heap.Comparable items := by
  have hdecides : ∀ v ∈ items, ∀ w ∈ items, heap.Decides v w := by
    intro v hv w hw
    obtain ⟨x, i, hx, hi⟩ := h v hv
    obtain ⟨y, j, hy, hj⟩ := h w hw
    refine ⟨⟨_, lessThan_numbers hx hy hi hj⟩, fun hsets => ?_⟩
    cases hsets with
    | sets ha | list ha | tuple ha =>
      obtain rfl := Option.some.inj (hx.2.symm.trans ha)
      cases hi
  exact List.pairwise_of_forall_mem_list fun v hv w hw =>
    ⟨hdecides v hv w hw, hdecides w hw v hv⟩

theorem extremes_truths {heap : Heap} {a b c least greatest : Handle} {sorted : List Handle}
    (ha : heap.Has a (.bool false)) (hb : heap.Has b (.bool true)) (hc : heap.Has c (.int 1))
    (h : heap.Extremes b [c, a] least greatest sorted) :
    least = a ∧ greatest = b ∧ sorted = [a, b, c] := by
  have hac : Heap.lessThan a c heap = .ok true := lessThan_numbers ha hc rfl rfl
  have hab : Heap.lessThan a b heap = .ok true := lessThan_numbers ha hb rfl rfl
  have hba : Heap.lessThan b a heap = .ok false := lessThan_numbers hb ha rfl rfl
  have hbc : Heap.lessThan b c heap = .ok false := lessThan_numbers hb hc rfl rfl
  have hcb : Heap.lessThan c b heap = .ok false := lessThan_numbers hc hb rfl rfl
  have hmin : Heap.best Heap.lessThan b [c, a] heap = .ok a := by
    simp [Heap.best, -bind_pure_comp, bind_of_ok hcb, bind_of_ok hab]
  have hmax : Heap.best (fun x b => Heap.lessThan b x) b [c, a] heap = .ok b := by
    simp [Heap.best, -bind_pure_comp, bind_of_ok hbc, bind_of_ok hba]
  have hsort : Heap.sort [b, c, a] heap = .ok [a, b, c] := by
    simp [Heap.sort, Heap.merge, bind_of_ok hac, bind_of_ok hab, bind_of_ok hcb]
  exact ⟨Except.ok.inj (h.min.symm.trans hmin), Except.ok.inj (h.max.symm.trans hmax),
    Except.ok.inj (h.sorts.symm.trans hsort)⟩

/-- Of True, 1 and False, in this order, `min` gives False, which sorting puts first, and `max`
gives True, which is equal to 1 and comes before it. -/
theorem extremes_sorted_truths :
    ∃ s₁ lost s l a b c, Ran {} {} s₁ lost ∧ LiveRun {} {} s ∧ s.heap.Has a (.bool false) ∧
      s.heap.Has b (.bool true) ∧ s.heap.Has c (.int 1) ∧ s.heap.Has l (.list #[b, c, a]) ∧
      s₁.heap.Extremes b [c, a] a b [a, b, c] ∧ runBuiltin .min [l] none s = .ok a s ∧
      runBuiltin .max [l] none s = .ok b s ∧
      ∃ m s', runBuiltin .sorted [l] none s = .ok m s' ∧ s'.heap.Has m (.list #[a, b, c]) := by
  obtain ⟨s₀, h₀⟩ := Space.create_ok {} rfl {}
  obtain ⟨n, -⟩ := Space.create_new h₀
  let t : Turn := .operation (.newInt 1)
  obtain ⟨c, x, p⟩ := leave_newInt (Space.create_sound h₀).roomy 1
  have r := Ran.turn t (.start h₀) nofun
  have r₁ := LiveRun.turn t (.start h₀) nofun
  have ha : Arena.Has _ s₀.falseValue (Object.bool false) := p.has (n.boolean false)
  have hb : Arena.Has _ s₀.trueValue (Object.bool true) := p.has (n.boolean true)
  have hc := p.has_self
  have hitems : ∀ v ∈ [s₀.trueValue, c, s₀.falseValue],
      ∃ o, Arena.Has (t.leave s₀).heap v o ∧ o.parts = [] ∧ ∃ n, o.asInt? = some n := by
    simp only [List.forall_mem_cons, List.not_mem_nil]
    exact ⟨⟨_, hb, rfl, _, rfl⟩, ⟨_, hc, rfl, _, rfl⟩, ⟨_, ha, rfl, _, rfl⟩, nofun⟩
  -- in the space without the list
  obtain ⟨⟨_, _, _, hkept⟩, -⟩ := extremes_sorted.1 _ _ _ r (fun v hv => by
    obtain ⟨o, ho, hp, -⟩ := hitems v hv
    exact .intro (seeKept_eq_some.2
      ⟨not_lost t (Set.notMem_empty v) (.inr ho.current), ho.2⟩) (by simp [hp]))
    (comparable_numbers fun v hv => by
      obtain ⟨o, ho, -, n, hn⟩ := hitems v hv
      exact ⟨o, n, ho, hn⟩)
  obtain ⟨rfl, rfl, rfl⟩ := extremes_truths ha hb hc hkept
  -- and in one with it
  have hmembers : ∀ v ∈ #[s₀.trueValue, c, s₀.falseValue].toList,
      (t.leave s₀).heap.isLive v = true := fun v hv => by
    obtain ⟨o, ho, -⟩ := hitems v hv
    exact ho.1
  obtain ⟨l, s, r', f, hl⟩ := r₁.newList hmembers
  have hchoice : s.Chooses [l] [s₀.trueValue, c, s₀.falseValue] s :=
    .given (collect_sequence hl rfl)
  obtain ⟨⟨_, _, _, hlive, hmin, hmax, hsorted⟩, -⟩ := extremes_sorted.2 _ _ _ _ r'
    (List.forall_mem_singleton.2 hl.1) hchoice (comparable_numbers fun v hv => by
      obtain ⟨o, ho, -, n, hn⟩ := hitems v hv
      exact ⟨o, n, f.keep ho, hn⟩)
  obtain ⟨rfl, rfl, rfl⟩ := extremes_truths (f.keep ha) (f.keep hb) (f.keep hc) hlive
  obtain ⟨m, s', hm, -, hhas⟩ := hsorted l rfl
  exact ⟨_, _, s, l, _, _, c, r, r', f.keep ha, f.keep hb, f.keep hc, hl, hkept, hmin, hmax, m, s',
    hm, hhas⟩

end ObjectSpace
