import ObjectSpace.Containers
import ObjectSpace.Proofs.Run.Iteration

/-!
# Dicts and sets under a trust

A key comes into a dict or a set only after it was hashed and compared with the keys filed under
that hash, which is what the step for it asks (`Change.dictPush`, `Change.setPush`).
-/

namespace ObjectSpace.Trust

variable {T : Trust} {s : Space} {d u key value : Handle}

theorem asks_dictGet (hd : T.ok s.heap d) (hk : T.ok s.heap key) :
    T.Asks s (Heap.dictGet d key) := by
  refine asks_bind (asks_dictLookup hd hk) fun v? hv => ?_
  split
  · exact asks_pure ((ok_some _).1 hv)
  · exact asks_keyNotFound hk

/-! ## Changes -/

theorem runs_updateDict {f : Table (Handle × Handle) → Table (Handle × Handle)}
    (hd : T.ok s.heap d)
    (hf : ∀ t, s.heap.get? d = some (.dict t) → T.Ok s t →
      Change s.heap (.dict t) (.dict (f t)) ∧ T.Ok s (f t)) :
    T.Runs s (Space.updateDict d f) := by
  refine runs_ask_bind (asks_dict hd) fun _ _ _ => runs_update hd fun o ho hok => ?_
  split
  · rename_i t
    obtain ⟨hc, hok⟩ := hf t ho ((ok_dictObject t).1 hok)
    exact ⟨hc, (ok_dictObject _).2 hok⟩
  · exact ⟨.same _, hok⟩

theorem runs_updateSet {f : Table Handle → Table Handle} (hu : T.ok s.heap u)
    (hf : ∀ t, s.heap.get? u = some (.set t) → T.Ok s t →
      Change s.heap (.set t) (.set (f t)) ∧ T.Ok s (f t)) :
    T.Runs s (Space.updateSet u f) := by
  refine runs_ask_bind (asks_set hu) fun _ _ _ => runs_update hu fun o ho hok => ?_
  split
  · rename_i t
    obtain ⟨hc, hok⟩ := hf t ho ((ok_setObject t).1 hok)
    exact ⟨hc, (ok_setObject _).2 hok⟩
  · exact ⟨.same _, hok⟩

section Tables

variable {α : Type} [Carries α] {t : Table α} {x : α}

theorem ok_push (ht : T.Ok s t) (hx : T.Ok s x) (hash : UInt64) : T.Ok s (t.push hash x) := by
  rw [ok_table] at ht ⊢
  intro a ha
  rcases Table.mem_toList_push ha with rfl | ha
  · exact hx
  · exact ht a ha

theorem ok_erase (ht : T.Ok s t) (hash : UInt64) (i : Nat) : T.Ok s (t.erase hash i) := by
  rw [ok_table] at ht ⊢
  exact fun a ha => ht a (Table.mem_toList_erase ha)

theorem ok_store {t : Table (Handle × Handle)} (ht : T.Ok s t) (hv : T.ok s.heap value)
    (hash : UInt64) (i : Nat) : T.Ok s (t.modify hash i fun (k, _) => (k, value)) := by
  rw [ok_table] at ht ⊢
  intro a ha
  rcases Table.mem_toList_modify ha with ha | ⟨b, hb, rfl⟩
  · exact ht a ha
  · exact (ok_pair _ _).2 ⟨((ok_pair _ _).1 (ht b hb)).1, (ok_handle value).2 hv⟩

theorem ok_empty : T.Ok s (Table.empty : Table α) := by simp

end Tables

theorem runs_dictInsert (hd : T.ok s.heap d) (hk : T.ok s.heap key) (hv : T.ok s.heap value) :
    T.Runs s (Space.dictInsert d key value) := by
  refine runs_ask_bind (asks_dictPlace hd hk) fun (hash, place) hplace _ => ?_
  obtain ⟨hhash, t, ht, hfind⟩ := Heap.dictPlace_eq_ok.1 hplace
  cases place with
  | some i =>
    exact runs_updateDict hd fun t' _ hok =>
      ⟨.dictStore t' hash i value, ok_store hok hv hash i⟩
  | none =>
    refine runs_updateDict hd fun t' ht' hok => ⟨?_, ?_⟩
    · obtain rfl : t' = t := by simpa [ht] using ht'.symm
      exact .dictPush hhash (Heap.findPlace_eq_none hfind)
    · exact ok_push hok ((ok_pair _ _).2 ⟨(ok_handle key).2 hk, (ok_handle value).2 hv⟩) hash

theorem runs_dictRemove (hd : T.ok s.heap d) (hk : T.ok s.heap key) :
    T.Runs s (Space.dictRemove d key) := by
  refine runs_ask_bind (asks_dictPlace hd hk) fun (hash, place) _ _ => ?_
  cases place with
  | some i =>
    refine runs_ask_bind (asks_dict hd) fun t _ ht => ?_
    refine runs_bind (runs_updateDict hd fun t' _ hok =>
      ⟨.dictErase t' hash i, ok_erase hok hash i⟩) fun _ s' l _ => runs_pure ?_
    refine ok_option.2 fun v hv => l.ok ?_
    obtain ⟨e, he, rfl⟩ := Option.map_eq_some_iff.1 hv
    rw [ok_table] at ht
    exact ((ok_pair _ _).1 (ht e (Table.mem_toList.2 ⟨hash, Table.mem_of_entryAt? he⟩))).2
  | none => exact runs_pure ok_none

theorem runs_setInsert (hu : T.ok s.heap u) (hk : T.ok s.heap key) :
    T.Runs s (Space.setInsert u key) := by
  refine runs_ask_bind (asks_setPlace hu hk) fun (hash, place) hplace _ => ?_
  obtain ⟨hhash, t, ht, hfind⟩ := Heap.setPlace_eq_ok.1 hplace
  cases place with
  | some i => exact runs_pure (ok_plain _)
  | none =>
    refine runs_bind (runs_updateSet hu fun t' ht' hok => ⟨?_, ?_⟩) fun _ _ _ _ =>
      runs_pure (ok_plain _)
    · obtain rfl : t' = t := by simpa [ht] using ht'.symm
      exact .setPush hhash (Heap.findPlace_eq_none hfind)
    · exact ok_push hok ((ok_handle key).2 hk) hash

theorem runs_setRemove (hu : T.ok s.heap u) (hk : T.ok s.heap key) :
    T.Runs s (Space.setRemove u key) := by
  refine runs_ask_bind (asks_setPlace hu hk) fun (hash, place) _ _ => ?_
  cases place with
  | some i =>
    exact runs_bind (runs_updateSet hu fun t' _ hok =>
      ⟨.setErase t' hash i, ok_erase hok hash i⟩) fun _ _ _ _ => runs_pure (ok_plain _)
  | none => exact runs_pure (ok_plain _)

/-! ## Many entries at once -/

theorem runs_insertPairs {pairs : List (Handle × Handle)} (hd : T.ok s.heap d)
    (hp : T.Ok s pairs) : T.Runs s (Space.insertPairs d pairs) := by
  refine runs_forM fun (k, v) hkv s' l => ?_
  have hkv := (ok_list _).1 (l.ok hp) (k, v) hkv
  simp only [ok_pair, ok_handle] at hkv
  exact runs_dictInsert (l.ok_mono d hd) hkv.1 hkv.2

theorem runs_newDict {pairs : List (Handle × Handle)} (hp : T.Ok s pairs) :
    T.Runs s (Space.newDict pairs) := by
  refine runs_bind (runs_alloc_plain (.inl rfl) rfl) fun d s₁ l₁ hd => ?_
  refine runs_bind (runs_insertPairs ((ok_handle d).1 hd) (l₁.ok hp)) fun _ s₂ l₂ _ => ?_
  exact runs_pure (l₂.ok hd)

theorem runs_newSet {items : List Handle} (hi : ∀ x ∈ items, T.ok s.heap x) :
    T.Runs s (Space.newSet items) := by
  refine runs_bind (runs_alloc_plain (.inl rfl) rfl) fun u s₁ l₁ hu => ?_
  refine runs_bind (runs_forM fun x hx s₂ l₂ => ?_) fun _ s₂ l₂ _ => runs_pure (l₂.ok hu)
  refine runs_bind (runs_setInsert ((ok_handle u).1 (l₂.ok hu)) ?_) fun _ _ _ _ =>
    runs_pure (ok_plain _)
  exact l₂.ok_mono x (l₁.ok_mono x (hi x hx))

theorem asks_pairOf {item : Handle} (hi : T.ok s.heap item) : T.Asks s (Space.pairOf item) := by
  refine asks_bind (asks_get hi) fun o ho => ?_
  have hseq := ok_asSequence? ho
  split
  · rename_i k v heq
    obtain ⟨items, hitems, hkv⟩ := Option.map_eq_some_iff.1 heq
    rw [hitems, ok_some, ok_array, hkv] at hseq
    exact asks_pure ((ok_pair k v).2 ⟨hseq k (by simp), hseq v (by simp)⟩)
  · exact asks_bind (asks_repr hi) fun _ _ => asks_fatal _

theorem runs_pairsOf {source : Handle} (hs : T.ok s.heap source) :
    T.Runs s (Space.pairsOf source) := by
  refine runs_ask_bind (asks_get hs) fun o _ ho => ?_
  split
  · exact runs_pure (by simpa using ho)
  · refine runs_bind (runs_collect hs) fun items s₁ l₁ hi => ?_
    rw [ok_array] at hi
    refine runs_mapM fun x hx s₂ l₂ => runs_ask (asks_pairOf ?_)
    exact l₂.ok_mono x ((ok_handle x).1 (hi x hx))

theorem runs_dictUpdate {source : Handle} (hd : T.ok s.heap d) (hs : T.ok s.heap source) :
    T.Runs s (Space.dictUpdate d source) :=
  runs_bind (runs_pairsOf hs) fun _ _ l hp => runs_insertPairs (l.ok_mono d hd) hp

end ObjectSpace.Trust
