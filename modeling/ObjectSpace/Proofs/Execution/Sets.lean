import ObjectSpace.Proofs.Execution.Values
import ObjectSpace.Proofs.Value.Coherence
import ObjectSpace.Proofs.Value.TableKeys

/-!
# Sets by key

A set stands for the keys of its members (`Heap.keySet`). Whether it has a member is whether the key
is there (`setContains_keyed`), sets are compared as sets of keys (`compares_sets`, `equal_sets`),
and adding or removing values one by one adds or takes away their keys (`insertAll_keyed`,
`removeAll_keyed`), from whatever the values come.

A value that is added under a key that is there does not become a member. So the members are known
up to their keys only, beyond that each was a member before or is one of the added values.
-/

namespace ObjectSpace

namespace Heap

variable {a b heap : Heap} {v : Handle} {κ : Key} {l l' : List Handle}

/-- The keys of the values in a list. -/
def keySet (heap : Heap) (l : List Handle) : Set Key := {κ | ∃ x ∈ l, heap.Keyed x κ}

theorem mem_keySet : κ ∈ heap.keySet l ↔ ∃ x ∈ l, heap.Keyed x κ := Iff.rfl

@[simp] theorem keySet_nil : heap.keySet [] = ∅ := by
  ext κ
  simp [keySet]

@[simp] theorem keySet_append : heap.keySet (l ++ l') = heap.keySet l ∪ heap.keySet l' := by
  ext κ
  simp only [mem_keySet, List.mem_append, Set.mem_union, or_and_right, exists_or]

theorem keySet_cons (k : heap.Keyed v κ) : heap.keySet (v :: l) = insert κ (heap.keySet l) := by
  ext κ'
  rw [mem_keySet, List.exists_mem_cons_iff, Set.mem_insert_iff, mem_keySet]
  refine or_congr_left ⟨fun k' => k'.unique k, ?_⟩
  rintro rfl
  exact k

theorem keySet_without (h : ∀ x, x ∈ l' ↔ x ∈ l ∧ ¬ heap.Keyed x κ) :
    heap.keySet l' = heap.keySet l \ {κ} := by
  ext κ'
  rw [Set.mem_sdiff, mem_keySet, mem_keySet, Set.mem_singleton_iff]
  constructor
  · rintro ⟨x, hx, k⟩
    obtain ⟨hx, hne⟩ := (h x).1 hx
    exact ⟨⟨x, hx, k⟩, fun he => hne (he ▸ k)⟩
  · rintro ⟨⟨x, hx, k⟩, hne⟩
    exact ⟨x, (h x).2 ⟨hx, fun k' => hne (k.unique k')⟩, k⟩

/-- The keys of values that have one, as they are read. -/
theorem mem_map_keyAt (L : Legible heap (seeLive heap)) (h : ∀ x ∈ l, ∃ κ, heap.Keyed x κ)
    {o : Option Key} :
    o ∈ l.map (Legible.keyAt heap (seeLive heap)) ↔ ∃ κ ∈ heap.keySet l, some κ = o := by
  rw [List.mem_map]
  constructor
  · rintro ⟨x, hx, rfl⟩
    obtain ⟨κ, k⟩ := h x hx
    exact ⟨κ, ⟨x, hx, k⟩, (k.keyAt_eq L).symm⟩
  · rintro ⟨κ, ⟨x, hx, k⟩, rfl⟩
    exact ⟨x, hx, k.keyAt_eq L⟩

theorem map_keyAt_subset (L : Legible heap (seeLive heap)) (h : ∀ x ∈ l, ∃ κ, heap.Keyed x κ)
    (h' : ∀ x ∈ l', ∃ κ, heap.Keyed x κ) :
    l.map (Legible.keyAt heap (seeLive heap)) ⊆ l'.map (Legible.keyAt heap (seeLive heap)) ↔
      heap.keySet l ⊆ heap.keySet l' := by
  constructor
  · intro hsub κ hκ
    obtain ⟨κ', hκ', heq⟩ := (mem_map_keyAt L h').1 (hsub ((mem_map_keyAt L h).2 ⟨κ, hκ, rfl⟩))
    rwa [← Option.some.inj heq]
  · intro hsub o ho
    obtain ⟨κ, hκ, rfl⟩ := (mem_map_keyAt L h).1 ho
    exact (mem_map_keyAt L h').2 ⟨κ, hsub hκ, rfl⟩

theorem Kept.keySet_eq (hk : Kept a b) (h : ∀ x ∈ l, ∃ κ, a.Keyed x κ) :
    b.keySet l = a.keySet l := by
  ext κ
  refine exists_congr fun x => and_congr_right fun hx => ?_
  obtain ⟨κ', k⟩ := h x hx
  exact k.later_iff hk

end Heap

namespace Space

open Heap (keySet mem_keySet)

variable {s s' : Space} {u v m : Handle} {t : Table Handle} {κ : Key} {h : UInt64}
  {items : List Handle}

/-! ## Members -/

section Members

variable (i : s.Ordered) (hu : s.heap.Has u (.set t))

include i hu

theorem member_keyed (hx : m ∈ t.toList) : ∃ κ, s.heap.Keyed m κ :=
  keyed_of_mem i hu rfl hx

/-- Finding the place of a member tells whether its key is there. -/
theorem setPlace_keyed (k : s.heap.Keyed m κ) (hh : κ.hash? = some h) :
    (∃ j x, Heap.setPlace u m s.heap = .ok (h, some j) ∧ (t.bucket h)[j]? = some x ∧
      s.heap.Keyed x κ) ∨
    Heap.setPlace u m s.heap = .ok (h, none) ∧ κ ∉ s.heap.keySet t.toList := by
  have hhash := k.hash i.legible hh
  rcases findPlace_keyed i hu rfl k hh with ⟨j, x, hj, hx, kx⟩ | ⟨hnone, hne⟩
  · exact .inl ⟨j, x, Heap.setPlace_eq_ok.2 ⟨hhash, t, hu.2, hj⟩, hx, kx⟩
  · exact .inr ⟨Heap.setPlace_eq_ok.2 ⟨hhash, t, hu.2, hnone⟩, fun ⟨x, hx, kx⟩ => hne x hx kx⟩

theorem setPlace_vacant (k : s.heap.Keyed m κ) (hh : κ.hash? = some h) (hb : t.bucket h = []) :
    Heap.setPlace u m s.heap = .ok (h, none) := by
  rcases setPlace_keyed i hu k hh with ⟨j, x, -, hx, -⟩ | ⟨hnone, -⟩
  · rw [hb] at hx
    cases hx
  · exact hnone

theorem setPlace_only (k : s.heap.Keyed m κ) (hh : κ.hash? = some h) (hb : t.bucket h = [m]) :
    Heap.setPlace u m s.heap = .ok (h, some 0) := by
  rcases setPlace_keyed i hu k hh with ⟨j, x, hj, hx, -⟩ | ⟨-, hne⟩
  · rw [hb, List.getElem?_singleton] at hx
    obtain rfl : j = 0 := by simp_all
    exact hj
  · exact absurd ⟨m, Table.mem_of_mem_bucket (hb ▸ List.mem_singleton_self m), k⟩ hne

theorem setContains_keyed (k : s.heap.Keyed m κ) :
    ∃ r, Heap.setContains u m s.heap = .ok r ∧ (r = true ↔ κ ∈ s.heap.keySet t.toList) := by
  obtain ⟨h, hh⟩ := k.hashed
  rcases setPlace_keyed i hu k hh with ⟨j, x, hj, hx, kx⟩ | ⟨hnone, hne⟩
  · refine ⟨true, Heap.bind_eq_ok.2 ⟨_, hj, rfl⟩, iff_of_true rfl ⟨x, ?_, kx⟩⟩
    exact Table.mem_of_mem_bucket (List.mem_of_getElem? hx)
  · exact ⟨false, Heap.bind_eq_ok.2 ⟨_, hnone, rfl⟩, iff_of_false Bool.false_ne_true hne⟩

end Members

/-! ## Comparisons -/

section Comparisons

variable (i : s.Ordered) (hu : s.heap.Has u (.set t)) {v : Handle} {t' : Table Handle}
  (hv : s.heap.Has v (.set t'))

include i hu

theorem set_grounded : Grounded (seeLive s.heap) u := by
  refine .intro (seeLive_eq_some.2 hu) fun m hm => ?_
  obtain ⟨κ, k⟩ := member_keyed i hu hm
  exact k.grounded

include hv

/-- Sets are compared by inclusion of their keys. -/
theorem compares_sets :
    (∃ r, Heap.compares .le u v s.heap = .ok r ∧
      (r = true ↔ s.heap.keySet t.toList ⊆ s.heap.keySet t'.toList)) ∧
    ∃ r, Heap.compares .lt u v s.heap = .ok r ∧
      (r = true ↔ s.heap.keySet t.toList ⊆ s.heap.keySet t'.toList ∧
        ¬ s.heap.keySet t'.toList ⊆ s.heap.keySet t.toList) := by
  have L := i.legible
  have gu := set_grounded i hu
  have gv := set_grounded i hv
  have su := seeLive_eq_some.2 hu
  have sv := seeLive_eq_some.2 hv
  have ku := fun x (hx : x ∈ t.toList) => member_keyed i hu hx
  have kv := fun x (hx : x ∈ t'.toList) => member_keyed i hv hx
  have hle : Comparison.le.Orders := ⟨nofun, nofun⟩
  have hlt : Comparison.lt.Orders := ⟨nofun, nofun⟩
  refine ⟨⟨_, (compares_eq hle u v).trans (L.orderedWithin_sets gu gv su sv hle _), ?_⟩,
    _, (compares_eq hlt u v).trans (L.orderedWithin_sets gu gv su sv hlt _), ?_⟩
  · rw [inclusionVerdict_le_iff (L.nodup_set gu su), Heap.map_keyAt_subset L ku kv]
  · rw [inclusionVerdict_lt_iff (L.nodup_set gu su) (L.nodup_set gv sv),
      Heap.map_keyAt_subset L ku kv, Heap.map_keyAt_subset L kv ku]

theorem equal_sets : ∃ r, Heap.equal u v s.heap = .ok r ∧
    (r = true ↔ s.heap.keySet t.toList = s.heap.keySet t'.toList) := by
  have gu := set_grounded i hu
  have gv := set_grounded i hv
  have O := i.legible.orderCoherent
  obtain ⟨⟨p, hp, hsub⟩, -⟩ := compares_sets i hu hv
  obtain ⟨⟨q, hq, hsup⟩, -⟩ := compares_sets i hv hu
  obtain ⟨r, hr⟩ := i.legible.equal_ok gu gv
  refine ⟨r, hr, fun h => ?_, fun h => ?_⟩
  · have heq := h ▸ hr
    have hle := (O.le_iff u v gu gv ⟨p, hp⟩).2 (.inr heq)
    have hge := (O.le_iff v u gv gu ⟨q, hq⟩).2 (.inr (i.legible.equality.symm u v gu gv heq))
    rw [hp, Except.ok.injEq] at hle
    rw [hq, Except.ok.injEq] at hge
    exact (hsub.1 hle).antisymm (hsup.1 hge)
  · have hle := hp.trans (congrArg _ (hsub.2 h.le))
    have hge := hq.trans (congrArg _ (hsup.2 h.ge))
    have heq := O.antisymm u v gu gv hle ((O.le_iff_ge v u true gv gu).1 hge)
    rw [hr, Except.ok.injEq] at heq
    exact heq

end Comparisons

/-! ## Changes -/

/-- Changing a set is one step, and leaves the rest. -/
theorem updateSet_frame (i : s.Steady) (hu : s.heap.Has u (.set t))
    {f : Table Handle → Table Handle} (hf : Change s.heap (.set t) (.set (f t)))
    (hlive : steadyTrust.Ok s (f t)) :
    ∃ s', updateSet u f s = .ok () s' ∧ Frame [u] s s' ∧ s'.heap.Has u (.set (f t)) ∧
      Step (fun heap g => heap.isLive g = true) s s' := by
  obtain ⟨g, hg, hgu⟩ : ∃ g : Object → Object,
      updateSet u f s = update u g s ∧ g (.set t) = .set (f t) :=
    ⟨_, ask_bind_of_ok (Heap.set_eq_ok.2 hu.2), rfl⟩
  have hchange : Change s.heap (.set t) (g (.set t)) := hgu ▸ hf
  have hchildren : ∀ c ∈ (g (.set t)).children, s.heap.isLive c = true :=
    hgu ▸ (Trust.ok_setObject (f t)).2 hlive
  obtain ⟨s', hs', fr, hu'⟩ := update_frame i hu hchange hchildren
    (by rw [hgu]; simp [Object.Writes])
  obtain ⟨-, rfl⟩ := EStateM.Result.ok.inj (hs'.symm.trans (Trust.update_eq hu.2 g))
  exact ⟨_, hg.trans hs', fr, hgu ▸ hu', .update hu.2 hu.1 hchange hchildren⟩

theorem setInsert_push (i : s.Steady) (hu : s.heap.Has u (.set t))
    (hm : s.heap.isLive m = true) (h' : Heap.setPlace u m s.heap = .ok (h, none)) :
    ∃ s', setInsert u m s = .ok true s' ∧ Frame [u] s s' ∧
      s'.heap.Has u (.set (t.push h m)) ∧ Step (fun heap g => heap.isLive g = true) s s' := by
  obtain ⟨hhash, t', ht', hfind⟩ := Heap.setPlace_eq_ok.1 h'
  obtain rfl : t = t' := by simpa [hu.2] using ht'
  have hlive : steadyTrust.Ok s t := (Trust.ok_setObject t).1 (i.children hu)
  obtain ⟨s', hs', f, hu', st⟩ := updateSet_frame i hu (f := (·.push h m))
    (.setPush hhash (Heap.findPlace_eq_none hfind))
    (Trust.ok_push hlive ((Trust.ok_handle m).2 hm) h)
  refine ⟨s', ?_, f, hu', st⟩
  rw [setInsert, ask_bind_of_ok h']
  exact bind_of_ok hs'

theorem setRemove_erase {j : Nat} (i : s.Steady) (hu : s.heap.Has u (.set t))
    (h' : Heap.setPlace u m s.heap = .ok (h, some j)) :
    ∃ s', setRemove u m s = .ok true s' ∧ Frame [u] s s' ∧
      s'.heap.Has u (.set (t.erase h j)) ∧ Step (fun heap g => heap.isLive g = true) s s' := by
  have hlive : steadyTrust.Ok s t := (Trust.ok_setObject t).1 (i.children hu)
  obtain ⟨s', hs', f, hu', st⟩ := updateSet_frame i hu (f := (·.erase h j)) (.setErase t h j)
    (Trust.ok_erase hlive h j)
  refine ⟨s', ?_, f, hu', st⟩
  rw [setRemove, ask_bind_of_ok h']
  exact bind_of_ok hs'

section Single

variable (i : s.Steady) (hu : s.heap.Has u (.set t)) (k : s.heap.Keyed m κ)

include i hu k

/-- Adding a value adds its key. The value is a member then if its key was not there. -/
theorem setInsert_keyed :
    ∃ b t' s', setInsert u m s = .ok b s' ∧ Frame [u] s s' ∧ s'.heap.Has u (.set t') ∧
      (∀ x ∈ t'.toList, x ∈ t.toList ∨ x = m) ∧
      s'.heap.keySet t'.toList = insert κ (s.heap.keySet t.toList) := by
  obtain ⟨h, hh⟩ := k.hashed
  rcases setPlace_keyed i.ordered hu k hh with ⟨j, x, hj, hx, kx⟩ | ⟨hnone, hne⟩
  · have hmem : κ ∈ s.heap.keySet t.toList :=
      ⟨x, Table.mem_of_mem_bucket (List.mem_of_getElem? hx), kx⟩
    refine ⟨false, t, s, ?_, .refl i, hu, fun _ => .inl, (Set.insert_eq_of_mem hmem).symm⟩
    rw [setInsert, ask_bind_of_ok hj]
    rfl
  · obtain ⟨s', hs', f, hu', -⟩ := setInsert_push i hu k.live hnone
    obtain ⟨pre, post, hl, hpush⟩ := Table.toList_push t h m
    have hof : ∀ x ∈ (t.push h m).toList, x ∈ t.toList ∨ x = m := fun x hx => by
      rw [hpush, List.mem_append, List.mem_cons] at hx
      rw [hl, List.mem_append]
      tauto
    refine ⟨true, _, s', hs', f, hu', hof, ?_⟩
    rw [f.kept.keySet_eq, hpush, hl, Heap.keySet_append, Heap.keySet_append,
      Heap.keySet_cons k, Set.union_insert]
    intro x hx
    rcases hof x hx with hx | rfl
    · exact member_keyed i.ordered hu hx
    · exact ⟨κ, k⟩

theorem setRemove_keyed :
    ∃ b t' s', setRemove u m s = .ok b s' ∧ Frame [u] s s' ∧ s'.heap.Has u (.set t') ∧
      (∀ x ∈ t'.toList, x ∈ t.toList) ∧
      s'.heap.keySet t'.toList = s.heap.keySet t.toList \ {κ} := by
  obtain ⟨h, hh⟩ := k.hashed
  rcases setPlace_keyed i.ordered hu k hh with ⟨j, x, hj, hx, kx⟩ | ⟨hnone, hne⟩
  · obtain ⟨s', hs', f, hu', -⟩ := setRemove_erase i hu hj
    obtain ⟨pre, post, hl, -, herase⟩ := Table.toList_at_place hx
    have hmem : ∀ y, y ∈ (t.erase h j).toList ↔ y ∈ t.toList ∧ ¬ s.heap.Keyed y κ :=
      herase ▸ mem_split_iff i.ordered hu rfl hl kx
    refine ⟨true, _, s', hs', f, hu', fun y hy => ((hmem y).1 hy).1, ?_⟩
    rw [f.kept.keySet_eq fun y hy => member_keyed i.ordered hu ((hmem y).1 hy).1]
    exact Heap.keySet_without hmem
  · refine ⟨false, t, s, ?_, .refl i, hu, fun _ => id, (Set.sdiff_singleton_eq_self hne).symm⟩
    rw [setRemove, ask_bind_of_ok hnone]
    rfl

end Single

/-! ## Values one by one -/

theorem insertAll_keyed (i : s.Steady) (hu : s.heap.Has u (.set t))
    (h : ∀ x ∈ items, ∃ κ, s.heap.Keyed x κ) :
    ∃ t' s', (items.forM fun item => do let _ ← setInsert u item : Action Unit) s = .ok () s' ∧
      Frame [u] s s' ∧ s'.heap.Has u (.set t') ∧ (∀ x ∈ t'.toList, x ∈ t.toList ∨ x ∈ items) ∧
      s'.heap.keySet t'.toList = s.heap.keySet t.toList ∪ s.heap.keySet items := by
  induction items generalizing s t with
  | nil =>
    exact ⟨t, s, rfl, .refl i, hu, fun _ => .inl, by rw [Heap.keySet_nil, Set.union_empty]⟩
  | cons m items ih =>
    rw [List.forall_mem_cons] at h
    obtain ⟨⟨κ, k⟩, h⟩ := h
    obtain ⟨b, t₁, s₁, hs₁, f, hu₁, hof₁, hkeys₁⟩ := setInsert_keyed i hu k
    obtain ⟨t', s', hs', f', hu', hof, hkeys⟩ := ih f.steady hu₁ fun x hx =>
      (h x hx).imp fun _ k => k.later f.kept
    have hstep : (do let _ ← setInsert u m : Action Unit) s = .ok () s₁ := bind_of_ok hs₁
    refine ⟨t', s', (bind_of_ok hstep).trans hs', f.again f', hu', fun x hx => ?_, ?_⟩
    · have hcases := (hof x hx).imp_left (hof₁ x)
      rw [List.mem_cons]
      tauto
    · rw [hkeys, hkeys₁, f.kept.keySet_eq h, Heap.keySet_cons k, Set.insert_union,
        Set.union_insert]

theorem removeAll_keyed (i : s.Steady) (hu : s.heap.Has u (.set t))
    (h : ∀ x ∈ items, ∃ κ, s.heap.Keyed x κ) :
    ∃ t' s', (items.forM fun item => do let _ ← setRemove u item : Action Unit) s = .ok () s' ∧
      Frame [u] s s' ∧ s'.heap.Has u (.set t') ∧ (∀ x ∈ t'.toList, x ∈ t.toList) ∧
      s'.heap.keySet t'.toList = s.heap.keySet t.toList \ s.heap.keySet items := by
  induction items generalizing s t with
  | nil =>
    exact ⟨t, s, rfl, .refl i, hu, fun _ => id, by rw [Heap.keySet_nil, Set.sdiff_empty]⟩
  | cons m items ih =>
    rw [List.forall_mem_cons] at h
    obtain ⟨⟨κ, k⟩, h⟩ := h
    obtain ⟨b, t₁, s₁, hs₁, f, hu₁, hof₁, hkeys₁⟩ := setRemove_keyed i hu k
    obtain ⟨t', s', hs', f', hu', hof, hkeys⟩ := ih f.steady hu₁ fun x hx =>
      (h x hx).imp fun _ k => k.later f.kept
    have hstep : (do let _ ← setRemove u m : Action Unit) s = .ok () s₁ := bind_of_ok hs₁
    refine ⟨t', s', (bind_of_ok hstep).trans hs', f.again f', hu',
      fun x hx => hof₁ x (hof x hx), ?_⟩
    rw [hkeys, hkeys₁, f.kept.keySet_eq h, Heap.keySet_cons k, Set.sdiff_sdiff, Set.singleton_union]

theorem newSet_empty (i : s.Steady) :
    ∃ u s', newSet [] s = .ok u s' ∧ Frame [] s s' ∧ s'.heap.Has u (.set .empty) := by
  obtain ⟨u, s', hs', f, hu⟩ := alloc_frame i (o := .set .empty) (.inl rfl) nofun nofun
  exact ⟨u, s', bind_of_ok hs', f, hu⟩

/-- A new set has the keys of the values that it is made of. -/
theorem newSet_keyed (i : s.Steady) (h : ∀ x ∈ items, ∃ κ, s.heap.Keyed x κ) :
    ∃ r t s', newSet items s = .ok r s' ∧ s.heap.get? r = none ∧ Frame [] s s' ∧
      s'.heap.Has r (.set t) ∧ (∀ x ∈ t.toList, x ∈ items) ∧
      s'.heap.keySet t.toList = s.heap.keySet items := by
  obtain ⟨r, s₁, hs₁, f, hr⟩ := alloc_frame i (o := .set .empty) (.inl rfl) nofun nofun
  have hnew := alloc_new i hs₁
  obtain ⟨t, s', hs', f', hr', hof, hkeys⟩ := insertAll_keyed f.steady hr fun x hx =>
    (h x hx).imp fun _ k => k.later f.kept
  refine ⟨r, t, s', ?_, hnew, (f.trans f').of_new ?_, hr', fun x hx => ?_, ?_⟩
  · rw [newSet, bind_of_ok hs₁]
    exact bind_of_ok hs'
  · simpa using hnew
  · exact (hof x hx).resolve_left List.not_mem_nil
  · rw [hkeys, f.kept.keySet_eq h, Table.toList_empty, Heap.keySet_nil, Set.empty_union]

end Space

end ObjectSpace
