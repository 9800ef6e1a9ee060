import ObjectSpace.Proofs.Run.Values
import ObjectSpace.Proofs.Table.Entries
import ObjectSpace.Proofs.Value.Keyed

/-!
# Tables by key

The table of a dict or a set files what has a key, and no two entries have the same
(`keyed_of_mem`, `keys_apart`). An entry is in the bucket of the hash of its key
(`mem_bucket_keyed`), so looking through that bucket for a value that is equal finds the entry with
its key, or tells that there is none (`findPlace_keyed`).

A dict has its keys in pairs and a set has them bare. What both come to is said by what they file
(`Object.filings`).
-/

namespace ObjectSpace.Space

open Heap (Keyed)

variable {α : Type} {keyOf : α → Handle} {s : Space} {v key : Handle} {o : Object} {t : Table α}
  {x : α} {κ : Key} {u : UInt64}

section

variable (i : s.Ordered) (hv : s.heap.Has v o) (ho : o.filings = t.filings keyOf)

include i hv ho

theorem keyed_of_mem (hx : x ∈ t.toList) : ∃ κ, s.heap.Keyed (keyOf x) κ := by
  obtain ⟨h, hm⟩ := Table.mem_toList.1 hx
  have hfiled : (h, keyOf x) ∈ o.filings :=
    ho ▸ Table.mem_filings.2 ⟨x, Table.mem_bucket.2 hm, rfl⟩
  exact i.stored v o hv _ hfiled

theorem mem_bucket_keyed (hx : x ∈ t.toList) (k : s.heap.Keyed (keyOf x) κ) :
    x ∈ t.bucket u ↔ κ.hash? = some u := by
  have hf := i.tidy.filed v o hv.1 hv.2
  obtain ⟨n, hn⟩ := k.reads
  have hfiled : ∀ h, x ∈ t.bucket h → κ.hash? = some h := fun h hm =>
    hf.hashed (h, keyOf x) (ho ▸ Table.mem_filings.2 ⟨x, hm, rfl⟩) n κ hn
  constructor
  · exact hfiled u
  · intro hu
    obtain ⟨h, hm⟩ := Table.mem_toList.1 hx
    have hm := Table.mem_bucket.2 hm
    obtain rfl : h = u := Option.some.inj ((hfiled h hm).symm.trans hu)
    exact hm

theorem keys_apart :
    t.toList.Pairwise fun x y => ∀ κ, s.heap.Keyed (keyOf x) κ → ¬ s.heap.Keyed (keyOf y) κ := by
  have hpair := (i.tidy.filed v o hv.1 hv.2).apart
  rw [ho, Table.filings, List.pairwise_map] at hpair
  rw [Table.toList, List.pairwise_map]
  refine hpair.imp fun {x y} h κ kx ky => ?_
  obtain ⟨n, hn⟩ := kx.reads
  obtain ⟨m, hm⟩ := ky.reads
  exact h _ κ (key?_depth (Nat.le_max_left n m) hn) (key?_depth (Nat.le_max_right n m) hm)

theorem not_keyed_of_split {pre post : List α} (hl : t.toList = pre ++ x :: post)
    (k : s.heap.Keyed (keyOf x) κ) : ∀ y, y ∈ pre ∨ y ∈ post → ¬ s.heap.Keyed (keyOf y) κ := by
  have hapart := keys_apart i hv ho
  rw [hl] at hapart
  obtain ⟨-, hpost, hpre⟩ := List.pairwise_append.1 hapart
  rw [List.pairwise_cons] at hpost
  rintro y (hy | hy) ky
  · exact hpre y hy x List.mem_cons_self κ ky k
  · exact hpost.1 y hy κ k ky

/-- Looking through the bucket of its hash tells whether there is an entry under a key. -/
theorem findPlace_keyed (k : s.heap.Keyed key κ) (hu : κ.hash? = some u) :
    (∃ j x, Heap.findPlace (fun x => Heap.equal (keyOf x) key) (t.bucket u) s.heap = .ok (some j) ∧
      (t.bucket u)[j]? = some x ∧ s.heap.Keyed (keyOf x) κ) ∨
    Heap.findPlace (fun x => Heap.equal (keyOf x) key) (t.bucket u) s.heap = .ok none ∧
      ∀ x ∈ t.toList, ¬ s.heap.Keyed (keyOf x) κ := by
  have htest : ∀ x ∈ t.toList, ∃ r, Heap.equal (keyOf x) key s.heap = .ok r ∧
      (r = true ↔ s.heap.Keyed (keyOf x) κ) := fun x hx => by
    obtain ⟨κ', k'⟩ := keyed_of_mem i hv ho hx
    obtain ⟨r, hr, hiff⟩ := k'.equal i.legible k
    refine ⟨r, hr, hiff.trans ⟨?_, k'.unique⟩⟩
    rintro rfl
    exact k'
  have hfind := Heap.findPlace_ok (l := t.bucket u) fun x hx =>
    (htest x (Table.mem_of_mem_bucket hx)).imp fun _ => And.left
  rcases hfind with ⟨j, x, hj, hx, htrue⟩ | ⟨hnone, hfalse⟩
  · refine .inl ⟨j, x, hj, hx, ?_⟩
    obtain ⟨r, hr, hiff⟩ := htest x (Table.mem_of_mem_bucket (List.mem_of_getElem? hx))
    rw [htrue, Except.ok.injEq] at hr
    exact hiff.1 hr.symm
  · refine .inr ⟨hnone, fun x hx k' => ?_⟩
    obtain ⟨r, hr, hiff⟩ := htest x hx
    rw [hfalse x ((mem_bucket_keyed i hv ho hx k').2 hu), Except.ok.injEq] at hr
    exact Bool.false_ne_true (hr.trans (hiff.2 k'))

/-- What is taken from around an entry are the entries without its key. -/
theorem mem_split_iff {pre post : List α} (hl : t.toList = pre ++ x :: post)
    (k : s.heap.Keyed (keyOf x) κ) (y : α) :
    y ∈ pre ++ post ↔ y ∈ t.toList ∧ ¬ s.heap.Keyed (keyOf y) κ := by
  have hother := not_keyed_of_split i hv ho hl k
  rw [hl, List.mem_append, List.mem_append, List.mem_cons]
  constructor
  · rintro (hy | hy)
    · exact ⟨.inl hy, hother y (.inl hy)⟩
    · exact ⟨.inr (.inr hy), hother y (.inr hy)⟩
  · rintro ⟨hy | rfl | hy, ky⟩
    · exact .inl hy
    · exact absurd k ky
    · exact .inr hy

end

end ObjectSpace.Space

/-!
## Entries of a dict by key

In a state of a run on live handles a dict is a finite map on keys: every entry has a key, and no
two entries have the same (`entry_keyed`, `entries_apart`). Finding the place of a key decides
whether there is an entry under it (`dictPlace_keyed`), and from that follows what looking a key up,
inserting and removing come to (`dictLookup_keyed`, `dictInsert_keyed`, `dictRemove_keyed`).

What an insertion or a removal does to the list of entries is said by splitting the list at the
entry that it concerns. All other objects stay as they are (`Rewrites`).
-/

namespace ObjectSpace

open Heap (Keyed bind_eq_ok)

namespace Space

variable {s : Space} {d key value : Handle} {t : Table (Handle × Handle)} {κ : Key} {u : UInt64}
  {x : Handle × Handle}

/-! ### The entries of a dict -/

section Entries

variable (i : s.Ordered) (hd : s.heap.Has d (.dict t))

include i hd

theorem entry_keyed (hx : x ∈ t.toList) : ∃ κ, s.heap.Keyed x.1 κ :=
  keyed_of_mem i hd rfl hx

theorem entries_apart :
    t.toList.Pairwise fun x y => ∀ κ, s.heap.Keyed x.1 κ → ¬ s.heap.Keyed y.1 κ :=
  keys_apart i hd rfl

theorem dictPlace_keyed (k : s.heap.Keyed key κ) (hu : κ.hash? = some u) :
    (∃ j x, Heap.dictPlace d key s.heap = .ok (u, some j) ∧ (t.bucket u)[j]? = some x ∧
      s.heap.Keyed x.1 κ) ∨
    Heap.dictPlace d key s.heap = .ok (u, none) ∧ ∀ x ∈ t.toList, ¬ s.heap.Keyed x.1 κ := by
  have hhash := k.hash i.legible hu
  rcases findPlace_keyed i hd rfl k hu with ⟨j, x, hj, hx, kx⟩ | ⟨hnone, hne⟩
  · exact .inl ⟨j, x, Heap.dictPlace_eq_ok.2 ⟨hhash, t, hd.2, hj⟩, hx, kx⟩
  · exact .inr ⟨Heap.dictPlace_eq_ok.2 ⟨hhash, t, hd.2, hnone⟩, hne⟩

theorem dictLookup_keyed (k : s.heap.Keyed key κ) :
    (∃ x ∈ t.toList, s.heap.Keyed x.1 κ ∧ Heap.dictLookup d key s.heap = .ok (some x.2)) ∨
    Heap.dictLookup d key s.heap = .ok none ∧ ∀ x ∈ t.toList, ¬ s.heap.Keyed x.1 κ := by
  obtain ⟨u, hu⟩ := k.hashed
  rcases dictPlace_keyed i hd k hu with ⟨j, x, hj, hx, kx⟩ | ⟨hnone, hne⟩
  · refine .inl ⟨x, Table.mem_of_mem_bucket (List.mem_of_getElem? hx), kx, ?_⟩
    refine Heap.bind_eq_ok.2 ⟨_, hj, Heap.bind_eq_ok.2 ⟨t, Heap.dict_eq_ok.2 hd.2, ?_⟩⟩
    rw [Table.entryAt?_of_bucket hx]
    rfl
  · exact .inr ⟨Heap.bind_eq_ok.2 ⟨_, hnone, rfl⟩, hne⟩

end Entries

/-! ### Changes of a dict -/

/-- One dict gets other entries, and every other live object stays as it is. -/
def Rewrites (d : Handle) (t : Table (Handle × Handle)) (s s' : Space) : Prop :=
  ∀ v o, s'.heap.Has v o ↔ if v = d then o = .dict t else s.heap.Has v o

theorem Rewrites.self {s' : Space} (r : Rewrites d t s s') : s'.heap.Has d (.dict t) :=
  (r d _).2 ((if_pos rfl).mpr rfl)

theorem Rewrites.other {s' : Space} (r : Rewrites d t s s') {v : Handle} {o : Object} (hv : v ≠ d) :
    s'.heap.Has v o ↔ s.heap.Has v o := by
  rw [r v o, if_neg hv]

theorem updateDict_rewrites (hd : s.heap.Has d (.dict t))
    (f : Table (Handle × Handle) → Table (Handle × Handle)) :
    ∃ s', updateDict d f s = .ok () s' ∧ Rewrites d (f t) s s' := by
  refine ⟨_, (ask_bind_of_ok (Heap.dict_eq_ok.2 hd.2)).trans (Trust.update_eq hd.2 _),
    fun v o => ?_⟩
  rw [Arena.Has, Arena.isLive_modify hd.2, Arena.get?_modify hd.2]
  by_cases hv : v = d
  · rw [if_pos hv, if_pos hv, hv, Option.some.injEq]
    exact ⟨fun h => h.2.symm, fun h => ⟨hd.1, h.symm⟩⟩
  · rw [if_neg hv, if_neg hv]
    rfl

section Changes

variable (i : s.Ordered) (hd : s.heap.Has d (.dict t)) (k : s.heap.Keyed key κ)

include i hd k

/-- Inserting leaves one entry under the key: with the key that was stored, or the new one if there
was none. -/
theorem dictInsert_keyed (value : Handle) :
    ∃ t' s' stored, dictInsert d key value s = .ok () s' ∧ Rewrites d t' s s' ∧
      s.heap.Keyed stored κ ∧
      ((∃ v, (stored, v) ∈ t.toList) ∨
        stored = key ∧ ∀ x ∈ t.toList, ¬ s.heap.Keyed x.1 κ) ∧
      ∀ x, x ∈ t'.toList ↔ x = (stored, value) ∨ x ∈ t.toList ∧ ¬ s.heap.Keyed x.1 κ := by
  obtain ⟨u, hu⟩ := k.hashed
  rcases dictPlace_keyed i hd k hu with ⟨j, x, hj, hx, kx⟩ | ⟨hnone, hne⟩
  · obtain ⟨s', hs', hr⟩ := updateDict_rewrites hd (·.modify u j fun e => (e.1, value))
    obtain ⟨pre, post, hl, hmodify, -⟩ := Table.toList_at_place hx
    refine ⟨_, s', x.1, ?_, hr, kx, .inl ⟨x.2, ?_⟩, fun y => ?_⟩
    · rw [dictInsert, ask_bind_of_ok hj]
      exact hs'
    · rw [hl]
      exact List.mem_append_right _ List.mem_cons_self
    · rw [hmodify, ← mem_split_iff i hd rfl hl kx y, List.mem_append, List.mem_cons,
        List.mem_append]
      exact or_left_comm
  · obtain ⟨s', hs', hr⟩ := updateDict_rewrites hd (·.push u (key, value))
    obtain ⟨pre, post, hl, hpush⟩ := Table.toList_push t u (key, value)
    refine ⟨_, s', key, ?_, hr, k, .inr ⟨rfl, hne⟩, fun y => ?_⟩
    · rw [dictInsert, ask_bind_of_ok hnone]
      exact hs'
    · have hmem : y ∈ t.toList ∧ ¬ s.heap.Keyed y.1 κ ↔ y ∈ t.toList :=
        ⟨And.left, fun hy => ⟨hy, hne y hy⟩⟩
      rw [hmem, hpush, hl, List.mem_append, List.mem_cons, List.mem_append]
      exact or_left_comm

/-- Removing gives the value under the key, if there is one, and leaves all entries but that. -/
theorem dictRemove_keyed :
    ∃ t' s' value?, dictRemove d key s = .ok value? s' ∧ Rewrites d t' s s' ∧
      Heap.dictLookup d key s.heap = .ok value? ∧ (value? = none → s' = s) ∧
      ∀ x, x ∈ t'.toList ↔ x ∈ t.toList ∧ ¬ s.heap.Keyed x.1 κ := by
  obtain ⟨u, hu⟩ := k.hashed
  rcases dictPlace_keyed i hd k hu with ⟨j, x, hj, hx, kx⟩ | ⟨hnone, hne⟩
  · obtain ⟨s', hs', hr⟩ := updateDict_rewrites hd (·.erase u j)
    obtain ⟨pre, post, hl, -, herase⟩ := Table.toList_at_place hx
    have hentry := Table.entryAt?_of_bucket hx
    refine ⟨_, s', some x.2, ?_, hr, ?_, nofun, fun y => ?_⟩
    · rw [dictRemove, ask_bind_of_ok hj]
      dsimp only
      rw [ask_bind_of_ok (Heap.dict_eq_ok.2 hd.2), bind_of_ok hs', hentry]
      rfl
    · refine Heap.bind_eq_ok.2 ⟨_, hj, Heap.bind_eq_ok.2 ⟨t, Heap.dict_eq_ok.2 hd.2, ?_⟩⟩
      rw [hentry]
      rfl
    · rw [herase]
      exact mem_split_iff i hd rfl hl kx y
  · refine ⟨t, s, none, ?_, fun v o => ?_, Heap.bind_eq_ok.2 ⟨_, hnone, rfl⟩, fun _ => rfl,
      fun y => ⟨fun hy => ⟨hy, hne y hy⟩, And.left⟩⟩
    · rw [dictRemove, ask_bind_of_ok hnone]
      rfl
    · by_cases hv : v = d
      · subst hv
        rw [if_pos rfl]
        exact ⟨fun h => h.unique hd, fun h => h ▸ hd⟩
      · rw [if_neg hv]

end Changes

end Space

end ObjectSpace
