import ObjectSpace.Proofs.Execution.Enumerating
import ObjectSpace.Proofs.Execution.Numbers
import ObjectSpace.Proofs.Execution.Sets
import ObjectSpace.Proofs.Execution.Values
import ObjectSpace.Proofs.Value.DictEdits
import ObjectSpace.Proofs.Value.History
import ObjectSpace.Proofs.Value.Tables

/-!
# The order of iteration

**Theorem (`iteration_order`).** In a run on live handles, collecting a list, a tuple or a set
copies what an iterator over it gives one by one. An iterator over a dict, over a view of one or
over a set gives every entry once, in ascending order of the hashes of the keys, and entries of one
hash in the order in which they came. So where no two keys have the same hash, the keys alone decide
the order: dicts and sets that are filled with the same keys in any order are iterated over in the
same order.

What iterators give is the list of entries (`Space.Enumerates`), and its order is that of what is
filed (`Space.filed`): ascending since tables are, and by arrival since histories are
(`History.filed_eq`). A list that ascends by hash is determined by its elements if their hashes are
different (`Heap.eq_of_noncolliding`).
-/

namespace ObjectSpace

open Heap (Keyed)

/-! ## Hashes of keys -/

namespace Heap

/-- The hashes of two values do not descend. -/
def HashLe (heap : Heap) (x y : Handle) : Prop :=
  ∀ h h', hash x heap = .ok h → hash y heap = .ok h' → h ≤ h'

/-- No two values of a list have the same hash. -/
def NonColliding (heap : Heap) (l : List Handle) : Prop := (l.map (hash · heap)).Nodup

variable {heap : Heap} {α : Type} {keyOf : α → Handle} {l m : List α}

theorem NonColliding.perm {l m : List Handle} (h : heap.NonColliding l) (hp : l.Perm m) :
    heap.NonColliding m :=
  (hp.map _).nodup_iff.1 h

theorem NonColliding.sublist {l m : List Handle} (h : heap.NonColliding m) (hs : l.Sublist m) :
    heap.NonColliding l :=
  List.Nodup.sublist (hs.map _) h

theorem NonColliding.eq_of_hash {l : List Handle} (h : heap.NonColliding l) {x y : Handle}
    (hx : x ∈ l) (hy : y ∈ l) (heq : hash x heap = hash y heap) : x = y :=
  List.inj_on_of_nodup_map h hx hy heq

/-- What ascends by hashes that are all different is determined by its elements. -/
theorem eq_of_noncolliding (hl : l.Pairwise fun x y => heap.HashLe (keyOf x) (keyOf y))
    (hm : m.Pairwise fun x y => heap.HashLe (keyOf x) (keyOf y)) (hp : l.Perm m)
    (hhash : ∀ x ∈ l, ∃ h, hash (keyOf x) heap = .ok h)
    (hne : heap.NonColliding (l.map keyOf)) : l = m := by
  refine hp.eq_of_pairwise (fun x y hx hy hxy hyx => ?_) hl hm
  have hy := hp.mem_iff.2 hy
  obtain ⟨a, ha⟩ := hhash x hx
  obtain ⟨b, hb⟩ := hhash y hy
  obtain rfl : a = b := UInt64.le_antisymm (hxy a b ha hb) (hyx b a hb ha)
  rw [NonColliding, List.map_map] at hne
  exact List.inj_on_of_nodup_map hne hx hy (ha.trans hb.symm)

end Heap

theorem Object.keys_eq (o : Object) : o.keys = o.filings.map (·.2) := by
  cases o with
  | dict t => simp [keys, filings, Table.filings, Table.toList]
  | set t => simp [keys, filings, Table.filings, Table.toList]
  | _ => rfl

namespace Space

variable {s s' : Space} {v w d u : Handle} {o p : Object} {t t' : Table (Handle × Handle)}
  {m : Table Handle} {e : UInt64 × Handle} {k : Handle} {items items' : List Handle}
  {pairs pairs' : List (Handle × Handle)}

theorem Ordered.hash_filed (i : s.Ordered) (he : e ∈ s.filed v) :
    Heap.hash e.2 s.heap = .ok e.1 := by
  rcases s.filed_cases v with h | ⟨o, hv, h⟩
  · rw [h] at he
    cases he
  rw [h] at he
  obtain ⟨κ, k⟩ := i.stored v o hv e he
  obtain ⟨n, hn⟩ := k.reads
  exact k.hash i.legible ((i.tidy.filed v o hv.1 hv.2).hashed e he n κ hn)

section Keys

variable (i : s.Ordered) (hv : s.heap.Has v o)

include i hv

theorem hash_of_keys (hk : k ∈ o.keys) : ∃ h, Heap.hash k s.heap = .ok h := by
  obtain ⟨e, he, rfl⟩ := Object.mem_filings_of_keys hk
  exact ⟨e.1, i.hash_filed (filed_of_has hv ▸ he)⟩

/-- The keys stand in ascending order of their hashes. -/
theorem keys_ascend : o.keys.Pairwise s.heap.HashLe := by
  rw [Object.keys_eq, List.pairwise_map]
  refine o.filings_sorted.imp_of_mem fun {e f} he hf hle h h' hh hh' => ?_
  have hhash : ∀ {e}, e ∈ o.filings → Heap.hash e.2 s.heap = .ok e.1 := fun he =>
    i.hash_filed (filed_of_has hv ▸ he)
  obtain rfl := Except.ok.inj ((hhash he).symm.trans hh)
  obtain rfl := Except.ok.inj ((hhash hf).symm.trans hh')
  exact hle

theorem nodup_keys : o.keys.Nodup := by
  have hfiled := filed_of_has hv
  rw [Object.keys_eq, ← hfiled]
  refine (List.nodup_map_iff_inj_on (i.nodup_filed v)).2 fun e he f hf hef => Prod.ext ?_ hef
  have heq := i.hash_filed he
  rw [hef, i.hash_filed hf] at heq
  exact (Except.ok.inj heq).symm

/-- Where no two keys have the same hash, the keys alone decide their order. -/
theorem keys_eq_of_perm (hw : s.heap.Has w p) (hp : o.keys.Perm p.keys)
    (hne : s.heap.NonColliding o.keys) : o.keys = p.keys := by
  have hl : o.keys.Pairwise fun x y => s.heap.HashLe (id x) (id y) := keys_ascend i hv
  have hm : p.keys.Pairwise fun x y => s.heap.HashLe (id x) (id y) := keys_ascend i hw
  refine Heap.eq_of_noncolliding hl hm hp (fun _ hk => hash_of_keys i hv hk) ?_
  rwa [List.map_id]

end Keys

theorem entries_eq_of_perm (i : s.Ordered) (hv : s.heap.Has v (.dict t))
    (hw : s.heap.Has w (.dict t')) (hp : t.toList.Perm t'.toList)
    (hne : s.heap.NonColliding (t.toList.map (·.1))) : t.toList = t'.toList :=
  Heap.eq_of_noncolliding (List.pairwise_map.1 (keys_ascend i hv))
    (List.pairwise_map.1 (keys_ascend i hw)) hp
    (fun _ hx => hash_of_keys i hv (List.mem_map_of_mem hx)) hne

/-! ## Filling -/

theorem hash_later (i : s.Ordered) (i' : s'.Ordered) (hk : Heap.Kept s.heap s'.heap)
    (h : s.Hashable k) : s'.Hashable k ∧ Heap.hash k s'.heap = Heap.hash k s.heap := by
  obtain ⟨κ, kk⟩ := i.keyed_of_hashable h
  obtain ⟨u, hu⟩ := kk.hashed
  refine ⟨i'.hashable_of_keyed (kk.later hk), ?_⟩
  rw [kk.hash i.legible hu, (kk.later hk).hash i'.legible hu]

theorem noncolliding_later (i : s.Ordered) (i' : s'.Ordered) (hk : Heap.Kept s.heap s'.heap)
    (h : ∀ x ∈ items, s.Hashable x) (hne : s.heap.NonColliding items) :
    s'.heap.NonColliding items := by
  have hsame : items.map (Heap.hash · s'.heap) = items.map (Heap.hash · s.heap) :=
    List.map_congr_left fun x hx => (hash_later i i' hk (h x hx)).2
  rwa [Heap.NonColliding, hsame]

theorem hash_eq_of_keyed (i : s.Ordered) {x y : Handle} {κ : Key} (kx : s.heap.Keyed x κ)
    (ky : s.heap.Keyed y κ) : Heap.hash x s.heap = Heap.hash y s.heap := by
  obtain ⟨u, hu⟩ := kx.hashed
  exact (kx.hash i.legible hu).trans (ky.hash i.legible hu).symm

theorem dictInsert_new {x : Handle × Handle} (i : s.Steady) (hd : s.heap.Has d (.dict t))
    (hx : s.Hashable x.1) (hlive : s.heap.isLive x.2 = true)
    (hne : s.heap.NonColliding ((x :: t.toList).map (·.1))) :
    ∃ t' s', dictInsert d x.1 x.2 s = .ok () s' ∧ Frame [d] s s' ∧ s'.heap.Has d (.dict t') ∧
      t'.toList.Perm (x :: t.toList) := by
  obtain ⟨κ, k⟩ := i.ordered.keyed_of_hashable hx
  obtain ⟨t', s', stored, hs', hr, kstored, hstored, hmem⟩ := dictInsert_keyed i.ordered hd k x.2
  have f := dictInsert_touches i hd k.live hlive hs'
  have hother : ∀ y ∈ t.toList, ¬ s.heap.Keyed y.1 κ := fun y hy ky => by
    refine (List.nodup_cons.1 hne).1 (List.mem_map.2 ⟨y.1, List.mem_map_of_mem hy, ?_⟩)
    exact hash_eq_of_keyed i.ordered ky k
  obtain rfl : stored = x.1 := by
    rcases hstored with ⟨y, hy⟩ | ⟨h, -⟩
    · exact absurd kstored (hother _ hy)
    · exact h
  refine ⟨t', s', hs', f, hr.self, (List.perm_ext_iff_of_nodup ?_ ?_).2 fun y => ?_⟩
  · exact (nodup_keys f.steady.ordered hr.self).of_map _
  · exact List.Nodup.of_map _ (List.Nodup.of_map _ hne)
  · rw [hmem, List.mem_cons]
    exact or_congr_right ⟨And.left, fun hy => ⟨hy, hother y hy⟩⟩

/-- Putting in values under keys with hashes of their own adds the pairs to the entries. -/
theorem insertPairs_new (i : s.Steady) (hd : s.heap.Has d (.dict t))
    (hpairs : ∀ x ∈ pairs, s.Hashable x.1 ∧ s.heap.isLive x.2 = true)
    (hne : s.heap.NonColliding ((pairs ++ t.toList).map (·.1))) :
    ∃ t' s', insertPairs d pairs s = .ok () s' ∧ Frame [d] s s' ∧ s'.heap.Has d (.dict t') ∧
      t'.toList.Perm (pairs ++ t.toList) := by
  induction pairs generalizing s t with
  | nil => exact ⟨t, s, rfl, .refl i, hd, .refl _⟩
  | cons x pairs ih =>
    rw [List.forall_mem_cons] at hpairs
    obtain ⟨⟨hx, hlive⟩, hpairs⟩ := hpairs
    have hfirst : s.heap.NonColliding ((x :: t.toList).map (·.1)) :=
      hne.sublist (((List.sublist_append_right pairs t.toList).cons_cons x).map _)
    obtain ⟨t₁, s₁, hs₁, f, hd₁, hp₁⟩ := dictInsert_new i hd hx hlive hfirst
    have hall : ∀ y ∈ x :: pairs ++ t.toList, s.Hashable y.1 := fun y hy => by
      rcases List.mem_append.1 hy with hy | hy
      · rcases List.mem_cons.1 hy with rfl | hy
        · exact hx
        · exact (hpairs y hy).1
      · obtain ⟨κ, k⟩ := entry_keyed i.ordered hd hy
        exact i.ordered.hashable_of_keyed k
    have hperm : (x :: pairs ++ t.toList).Perm (pairs ++ t₁.toList) :=
      List.perm_middle.symm.trans (hp₁.symm.append_left pairs)
    have hne₁ := (noncolliding_later i.ordered f.steady.ordered f.kept
      (List.forall_mem_map.2 hall) hne).perm (hperm.map (·.1))
    obtain ⟨t', s', hs', f', hd', hp⟩ := ih f.steady hd₁ (fun y hy =>
      ⟨(hash_later i.ordered f.steady.ordered f.kept (hpairs y hy).1).1,
        f.live (hpairs y hy).2⟩) hne₁
    exact ⟨t', s', (bind_of_ok hs₁).trans hs', f.again f', hd', hp.trans hperm.symm⟩

theorem newDict_new (i : s.Steady)
    (hpairs : ∀ x ∈ pairs, s.Hashable x.1 ∧ s.heap.isLive x.2 = true)
    (hne : s.heap.NonColliding (pairs.map (·.1))) :
    ∃ d t s', newDict pairs s = .ok d s' ∧ Frame [] s s' ∧ s'.heap.Has d (.dict t) ∧
      t.toList.Perm pairs := by
  obtain ⟨d, s₁, hs₁, f, hd⟩ := alloc_frame i (o := .dict .empty) (.inl rfl) nofun nofun
  have hnew := alloc_new i hs₁
  have hpairs₁ : ∀ x ∈ pairs, s₁.Hashable x.1 ∧ s₁.heap.isLive x.2 = true := fun x hx =>
    ⟨(hash_later i.ordered f.steady.ordered f.kept (hpairs x hx).1).1, f.live (hpairs x hx).2⟩
  have hne₁ := noncolliding_later i.ordered f.steady.ordered f.kept
    (List.forall_mem_map.2 fun x hx => (hpairs x hx).1) hne
  obtain ⟨t, s', hs', f', hd', hp⟩ := insertPairs_new f.steady hd hpairs₁ (by simpa using hne₁)
  refine ⟨d, t, s', ?_, (f.trans f').of_new (by simpa using hnew), hd', by simpa using hp⟩
  rw [newDict, bind_of_ok hs₁]
  exact bind_of_ok hs'

theorem newSet_new (i : s.Steady) (hitems : ∀ x ∈ items, s.Hashable x)
    (hne : s.heap.NonColliding items) :
    ∃ u m s', newSet items s = .ok u s' ∧ Frame [] s s' ∧ s'.heap.Has u (.set m) ∧
      m.toList.Perm items := by
  have hkeyed : ∀ x ∈ items, ∃ κ, s.heap.Keyed x κ := fun x hx =>
    i.ordered.keyed_of_hashable (hitems x hx)
  obtain ⟨u, m, s', hs', -, f, hu, hof, hkeys⟩ := newSet_keyed i hkeyed
  refine ⟨u, m, s', hs', f, hu, (List.perm_ext_iff_of_nodup ?_ ?_).2 fun x => ⟨hof x, ?_⟩⟩
  · exact nodup_keys f.steady.ordered hu
  · exact List.Nodup.of_map _ hne
  · intro hx
    obtain ⟨κ, k⟩ := hkeyed x hx
    have hκ : κ ∈ s'.heap.keySet m.toList := hkeys ▸ ⟨x, hx, k⟩
    obtain ⟨y, hy, ky⟩ := hκ
    obtain ⟨κ', ky'⟩ := hkeyed y (hof y hy)
    have heq := hash_eq_of_keyed i.ordered k ((ky'.later_iff f.kept).1 ky)
    exact hne.eq_of_hash hx (hof y hy) heq ▸ hy

/-! ## Copies -/

/-- Collecting a value copies at once what an iterator over it gives one by one, as long as nothing
changes in between. -/
def Copies (s : Space) (v : Handle) (items : Array Handle) : Prop :=
  collect v s = .ok items s ∧ ∃ it s₁ s₂, iter v s = .ok it s₁ ∧ Frame [] s s₁ ∧
    Gives (fun _ => Eq) it items.toList s₁ ∧ ∀ n, items.size < n → drain it #[] n s₁ = .ok items s₂

theorem Enumerates.copies {items : Array Handle}
    (h : s.Enumerates (fun _ => Eq) v items.toList) (hc : collect v s = .ok items s) :
    s.Copies v items := by
  obtain ⟨it, s₁, hs₁, -, f, hgives, all, s₂, hdrain, -, hall⟩ := h
  obtain rfl : all = items := Array.ext' (List.forall₂_eq_eq_eq ▸ hall)
  exact ⟨hc, it, s₁, s₂, hs₁, f, hgives, fun n hn => hdrain n hn⟩

theorem copies_set (i : s.Steady) (hu : s.heap.Has u (.set m)) : s.Copies u m.toList.toArray :=
  Enumerates.copies (enumerates_set i hu) (collect_set hu)

theorem enumerates_dict (i : s.Steady) (hd : s.heap.Has d (.dict t)) :
    s.Enumerates ViewPart.keys.Shows d t.toList :=
  enumerates_entries i hd hd rfl

/-! ## The order -/

/-- How values are iterated over, and in which order the entries of tables come. -/
structure IterationOrder (settings : Settings) (disk : Disk) (s : Space) : Prop where
  /-- Collecting copies what iterating gives. -/
  sequence : ∀ v o items, s.heap.Has v o → o.asSequence? = some items → s.Copies v items
  set : ∀ u m, s.heap.Has u (.set m) → s.Copies u m.toList.toArray
  /-- A dict and its views go over the same entries. -/
  dict : ∀ d t, s.heap.Has d (.dict t) → s.Enumerates ViewPart.keys.Shows d t.toList
  view : ∀ d t v part, s.heap.Has d (.dict t) → s.heap.Has v (.view d part) →
    s.Enumerates part.Shows v t.toList
  once : ∀ v o, s.heap.Has v o → o.keys.Nodup
  filed : ∀ v o, s.heap.Has v o → o.keys = (s.filed v).map (·.2)
  hashed : ∀ v, ∀ e ∈ s.filed v, Heap.hash e.2 s.heap = .ok e.1
  ascending : ∀ v, (s.filed v).Pairwise fun a b => a.1 ≤ b.1
  /-- What is filed is the stable sort by hash of what came, and it is known what came. -/
  arrival : (∃ past, History settings disk (s :: past)) ∧
    ∀ past v, History settings disk (s :: past) → s.filed v =
      (arrivals ((s :: past).map (·.filed v))).mergeSort fun a b => a.1 ≤ b.1
  /-- Where hashes do not collide, the keys of two tables alone decide their order. -/
  keys : ∀ v w o p, s.heap.Has v o → s.heap.Has w p → o.keys.Perm p.keys →
    s.heap.NonColliding o.keys → o.keys = p.keys
  entries : ∀ d d' t t', s.heap.Has d (.dict t) → s.heap.Has d' (.dict t') →
    t.toList.Perm t'.toList → s.heap.NonColliding (t.toList.map (·.1)) → t.toList = t'.toList
  /-- Dicts that are filled with the same keys, in whatever order, have them in one order. -/
  dicts : ∀ pairs pairs' : List (Handle × Handle),
    (∀ x ∈ pairs ++ pairs', s.Hashable x.1 ∧ s.heap.isLive x.2 = true) →
    s.heap.NonColliding (pairs.map (·.1)) → (pairs.map (·.1)).Perm (pairs'.map (·.1)) →
    ∃ d d' t t' s₁ s₂, newDict pairs s = .ok d s₁ ∧ newDict pairs' s₁ = .ok d' s₂ ∧
      s₂.heap.Has d (.dict t) ∧ s₂.heap.Has d' (.dict t') ∧ t.toList.Perm pairs ∧
      t'.toList.Perm pairs' ∧ t.toList.map (·.1) = t'.toList.map (·.1) ∧
      (pairs.Perm pairs' → t.toList = t'.toList) ∧
      s₂.Enumerates ViewPart.keys.Shows d t.toList ∧ s₂.Enumerates ViewPart.keys.Shows d' t'.toList
  /-- Sets that are filled with the same members, in whatever order, have them in one order. -/
  sets : ∀ items items' : List Handle, (∀ x ∈ items, s.Hashable x) → s.heap.NonColliding items →
    items.Perm items' → ∃ u w m m' s₁ s₂, newSet items s = .ok u s₁ ∧ newSet items' s₁ = .ok w s₂ ∧
      s₂.heap.Has u (.set m) ∧ s₂.heap.Has w (.set m') ∧ m.toList.Perm items ∧
      m.toList = m'.toList ∧ s₂.Copies u m.toList.toArray ∧ s₂.Copies w m'.toList.toArray

/-- Dicts that are filled with the same keys have them in the same order. -/
theorem dicts_agree (i : s.Steady)
    (hpairs : ∀ x ∈ pairs ++ pairs', s.Hashable x.1 ∧ s.heap.isLive x.2 = true)
    (hne : s.heap.NonColliding (pairs.map (·.1)))
    (hp : (pairs.map (·.1)).Perm (pairs'.map (·.1))) :
    ∃ d d' t t' s₁ s₂, newDict pairs s = .ok d s₁ ∧ newDict pairs' s₁ = .ok d' s₂ ∧ s₂.Steady ∧
      s₂.heap.Has d (.dict t) ∧ s₂.heap.Has d' (.dict t') ∧ t.toList.Perm pairs ∧
      t'.toList.Perm pairs' ∧ t.toList.map (·.1) = t'.toList.map (·.1) ∧
      (pairs.Perm pairs' → t.toList = t'.toList) := by
  have hlater : ∀ {s'}, Frame [] s s' → ∀ x ∈ pairs ++ pairs', s'.Hashable x.1 ∧
      s'.heap.isLive x.2 = true := fun f x hx =>
    ⟨(hash_later i.ordered f.steady.ordered f.kept (hpairs x hx).1).1, f.live (hpairs x hx).2⟩
  have hnelater : ∀ {s'}, Frame [] s s' → s'.heap.NonColliding (pairs.map (·.1)) := fun f =>
    noncolliding_later i.ordered f.steady.ordered f.kept (List.forall_mem_map.2 fun x hx =>
      (hpairs x (List.mem_append_left _ hx)).1) hne
  obtain ⟨d, t, s₁, hs₁, f₁, hd, ht⟩ := newDict_new i
    (fun x hx => hpairs x (List.mem_append_left _ hx)) hne
  obtain ⟨d', t', s₂, hs₂, f₂, hd', ht'⟩ := newDict_new f₁.steady
    (fun x hx => hlater f₁ x (List.mem_append_right _ hx)) ((hnelater f₁).perm hp)
  have i₂ := f₂.steady.ordered
  have hd := f₂.keep hd
  have hne₂ : s₂.heap.NonColliding (t.toList.map (·.1)) :=
    (hnelater (f₁.trans f₂)).perm (ht.map _).symm
  refine ⟨d, d', t, t', s₁, s₂, hs₁, hs₂, f₂.steady, hd, hd', ht, ht', ?_, fun hpp => ?_⟩
  · exact keys_eq_of_perm i₂ hd hd' (((ht.map _).trans hp).trans (ht'.map _).symm) hne₂
  · exact entries_eq_of_perm i₂ hd hd' ((ht.trans hpp).trans ht'.symm) hne₂

theorem sets_agree (i : s.Steady) (hitems : ∀ x ∈ items, s.Hashable x)
    (hne : s.heap.NonColliding items) (hp : items.Perm items') :
    ∃ u w m m' s₁ s₂, newSet items s = .ok u s₁ ∧ newSet items' s₁ = .ok w s₂ ∧ s₂.Steady ∧
      s₂.heap.Has u (.set m) ∧ s₂.heap.Has w (.set m') ∧ m.toList.Perm items ∧
      m.toList = m'.toList := by
  have hnelater : ∀ {s'}, Frame [] s s' → s'.heap.NonColliding items := fun f =>
    noncolliding_later i.ordered f.steady.ordered f.kept hitems hne
  obtain ⟨u, m, s₁, hs₁, f₁, hu, hm⟩ := newSet_new i hitems hne
  obtain ⟨w, m', s₂, hs₂, f₂, hw, hm'⟩ := newSet_new f₁.steady (fun x hx =>
    (hash_later i.ordered f₁.steady.ordered f₁.kept (hitems x (hp.mem_iff.2 hx))).1)
    ((hnelater f₁).perm hp)
  have hu := f₂.keep hu
  refine ⟨u, w, m, m', s₁, s₂, hs₁, hs₂, f₂.steady, hu, hw, hm, ?_⟩
  exact keys_eq_of_perm f₂.steady.ordered hu hw ((hm.trans hp).trans hm'.symm)
    ((hnelater (f₁.trans f₂)).perm hm.symm)

end Space

open Space

variable {settings : Settings} {disk : Disk} {s : Space}

/-- **The order of iteration.** In runs, what is iterated over comes as it stands: the items of a
sequence in their order, and the entries of a table by hash and then by arrival. -/
theorem iteration_order (r : LiveRun settings disk s) : IterationOrder settings disk s := by
  have i := steady_of_liveRun r
  have o := i.ordered
  refine
    { sequence := fun v p items hv hp =>
        Enumerates.copies (enumerates_sequence i hv hp) (collect_sequence hv hp)
      set := fun u m hu => copies_set i hu
      dict := fun d t hd => enumerates_dict i hd
      view := fun d t v part hd hv => enumerates_entries i hd hv rfl
      once := fun v p hv => nodup_keys o hv
      filed := fun v p hv => filed_of_has hv ▸ p.keys_eq
      hashed := fun v e he => o.hash_filed he
      ascending := filed_sorted s
      arrival := ⟨r.history, fun past v h => h.filed_eq v⟩
      keys := fun v w p q hv hw hp hne => keys_eq_of_perm o hv hw hp hne
      entries := fun d d' t t' hd hd' hp hne => entries_eq_of_perm o hd hd' hp hne
      dicts := fun pairs pairs' hpairs hne hp => ?dicts
      sets := fun items items' hitems hne hp => ?sets }
  case dicts =>
    obtain ⟨d, d', t, t', s₁, s₂, hs₁, hs₂, i₂, hd, hd', hrest⟩ := dicts_agree i hpairs hne hp
    obtain ⟨ht, ht', hkeys, hentries⟩ := hrest
    exact ⟨d, d', t, t', s₁, s₂, hs₁, hs₂, hd, hd', ht, ht', hkeys, hentries,
      enumerates_dict i₂ hd, enumerates_dict i₂ hd'⟩
  case sets =>
    obtain ⟨u, w, m, m', s₁, s₂, hs₁, hs₂, i₂, hu, hw, hm, heq⟩ := sets_agree i hitems hne hp
    exact ⟨u, w, m, m', s₁, s₂, hs₁, hs₂, hu, hw, hm, heq, copies_set i₂ hu, copies_set i₂ hw⟩

/-- Sets of 30 and 10 have them in the same order, whichever came first. -/
theorem iteration_order_ints :
    ∃ s a b u w m m' s₁ s₂, LiveRun {} {} s ∧ s.heap.Has a (.int 30) ∧ s.heap.Has b (.int 10) ∧
      newSet [a, b] s = .ok u s₁ ∧ newSet [b, a] s₁ = .ok w s₂ ∧ s₂.heap.Has u (.set m) ∧
      s₂.heap.Has w (.set m') ∧ m.toList.Perm [a, b] ∧ m.toList = m'.toList := by
  obtain ⟨s₀, h₀⟩ := create_ok {} rfl {}
  obtain ⟨a, s₁, r₁, f₁, ha⟩ := (LiveRun.start h₀).newInt 30
  obtain ⟨b, s, r, f, hb⟩ := r₁.newInt 10
  have ha := f.keep ha
  have o := ordered_of_liveRun r
  have hha : Heap.hash a s.heap = .ok 30 := (keyed_int ha).hash o.legible rfl
  have hhb : Heap.hash b s.heap = .ok 10 := (keyed_int hb).hash o.legible rfl
  have hne : s.heap.NonColliding [a, b] := by
    rw [Heap.NonColliding, List.map_cons, List.map_singleton, hha, hhb]
    simp
  have hitems : ∀ x ∈ [a, b], s.Hashable x :=
    List.forall_mem_cons.2 ⟨⟨ha.1, _, hha⟩, List.forall_mem_singleton.2 ⟨hb.1, _, hhb⟩⟩
  obtain ⟨u, w, m, m', s₁, s₂, hs₁, hs₂, hu, hw, hm, heq, -⟩ :=
    (iteration_order r).sets [a, b] [b, a] hitems hne (.swap b a [])
  exact ⟨s, a, b, u, w, m, m', s₁, s₂, r, ha, hb, hs₁, hs₂, hu, hw, hm, heq⟩

end ObjectSpace
