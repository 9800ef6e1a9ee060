import ObjectSpace.Proofs.Value.TableKeys

/-!
# Edits of a dict

A dict as a finite map: what is under a key is decided by the history of its edits, the latest
first. A put under an equal key keeps the key that is there and replaces the value, a drop takes the
entry away, and a clear takes all of them (`Edit.found`).

**Recorded.** A history records a dict when, under every key, it leaves what the dict has there. The
step lemmas are `Recorded.put`, `Recorded.drop` and `Recorded.clear`; a history goes on recording a
dict that is not touched, whatever else happens (`Recorded.later`), since values keep their keys.
-/

namespace ObjectSpace

/-- What is done to the entries of a dict. -/
inductive Edit where
  | put (key value : Handle)
  | drop (key : Handle)
  | clear

namespace Edit

/-- The key of an edit. -/
def key? : Edit → Option Handle
  | put key _ => some key
  | drop key => some key
  | clear => none

/-- What a history leaves under the keys that `same` tells to be equal to a given one: the key that
is stored, and the value that was put last. -/
def found (same : Handle → Bool) : List Edit → Option (Handle × Handle)
  | [] => none
  | put key value :: l =>
    if same key then some (((found same l).map (·.1)).getD key, value) else found same l
  | drop key :: l => if same key then none else found same l
  | clear :: _ => none

/-- The puts of a list of entries, the first entry first. -/
def puts (entries : List (Handle × Handle)) : List Edit := entries.map fun x => put x.1 x.2

variable {same same' : Handle → Bool} {l l' : List Edit} {x : Handle × Handle}

/-- Only how the keys of the edits compare matters. -/
theorem found_congr (h : ∀ e ∈ l, ∀ k, e.key? = some k → same k = same' k) :
    found same l = found same' l := by
  induction l with
  | nil => rfl
  | cons e l ih =>
    rw [List.forall_mem_cons] at h
    have ih := ih h.2
    cases e with
    | put key value => simp only [found, h.1 key rfl, ih]
    | drop key => simp only [found, h.1 key rfl, ih]
    | clear => rfl

/-- What the puts of a list leave, when at most one of its entries has the key. -/
theorem found_puts {entries : List (Handle × Handle)}
    (h : entries.Pairwise fun x y => same x.1 = true → same y.1 = false) (x : Handle × Handle) :
    found same (puts entries) = some x ↔ x ∈ entries ∧ same x.1 = true := by
  induction entries generalizing x with
  | nil => simp [puts, found]
  | cons y entries ih =>
    rw [List.pairwise_cons] at h
    have ih := ih h.2
    rw [puts, List.map_cons, ← puts, found]
    by_cases hy : same y.1 = true
    · have hnone : found same (puts entries) = none := by
        rcases hf : found same (puts entries) with _ | z
        · rfl
        · obtain ⟨hz, hsz⟩ := (ih z).1 hf
          rw [h.1 z hz hy] at hsz
          cases hsz
      rw [if_pos hy, hnone, Option.map_none, Option.getD_none, Option.some.injEq, List.mem_cons]
      constructor
      · rintro rfl
        exact ⟨.inl rfl, hy⟩
      · rintro ⟨rfl | hx, hsx⟩
        · rfl
        · rw [h.1 x hx hy] at hsx
          cases hsx
    · rw [if_neg hy, ih, List.mem_cons]
      constructor
      · exact fun ⟨hx, hs⟩ => ⟨.inr hx, hs⟩
      · rintro ⟨rfl | hx, hs⟩
        · exact absurd hs hy
        · exact ⟨hx, hs⟩

end Edit

/-! ## Histories that record a dict -/

open Classical in
/-- Whether a value has a given key. -/
noncomputable def Heap.keyedAs (heap : Heap) (κ : Key) (v : Handle) : Bool :=
  decide (heap.Keyed v κ)

theorem Heap.keyedAs_eq_true {heap : Heap} {κ : Key} {v : Handle} :
    heap.keyedAs κ v = true ↔ heap.Keyed v κ := by
  simp [keyedAs]

theorem Heap.keyedAs_eq_false {heap : Heap} {κ : Key} {v : Handle} :
    heap.keyedAs κ v = false ↔ ¬ heap.Keyed v κ := by
  simp [keyedAs]

/-- A history of edits leaves what a table has under each key. -/
structure Recorded (heap : Heap) (t : Table (Handle × Handle)) (l : List Edit) : Prop where
  keyed : ∀ e ∈ l, ∀ k, e.key? = some k → ∃ κ, heap.Keyed k κ
  found : ∀ κ x, Edit.found (heap.keyedAs κ) l = some x ↔ x ∈ t.toList ∧ heap.Keyed x.1 κ

namespace Recorded

variable {s s' : Space} {heap : Heap} {d key value : Handle} {t t' : Table (Handle × Handle)}
  {l : List Edit} {κ : Key}

theorem found_eq_none (r : Recorded heap t l) (h : ∀ x ∈ t.toList, ¬ heap.Keyed x.1 κ) :
    Edit.found (heap.keyedAs κ) l = none := by
  rcases hf : Edit.found (heap.keyedAs κ) l with _ | x
  · rfl
  · obtain ⟨hx, kx⟩ := (r.found κ x).1 hf
    exact absurd kx (h x hx)

theorem of_entries (i : s.Ordered) (hd : s.heap.Has d (.dict t)) :
    Recorded s.heap t (Edit.puts t.toList) := by
  refine ⟨fun e he k hk => ?_, fun κ x => ?_⟩
  · obtain ⟨x, hx, rfl⟩ := List.mem_map.1 he
    obtain rfl : x.1 = k := Option.some.inj hk
    exact Space.entry_keyed i hd hx
  · rw [Edit.found_puts, Heap.keyedAs_eq_true]
    refine (Space.entries_apart i hd).imp fun h hx => ?_
    exact Heap.keyedAs_eq_false.2 (h κ (Heap.keyedAs_eq_true.1 hx))

/-- Whatever steps are taken, a history leaves the same under each key. -/
theorem found_later (r : Recorded s.heap t l) (hk : Heap.Kept s.heap s'.heap) :
    Edit.found (s'.heap.keyedAs κ) l = Edit.found (s.heap.keyedAs κ) l := by
  refine Edit.found_congr fun e hm k hkey => ?_
  obtain ⟨κ', k'⟩ := r.keyed e hm k hkey
  rw [Bool.eq_iff_iff, Heap.keyedAs_eq_true, Heap.keyedAs_eq_true]
  exact k'.later_iff hk

/-- A history goes on recording entries that do not change. -/
theorem later (r : Recorded s.heap t l) (hk : Heap.Kept s.heap s'.heap)
    (he : ∀ x ∈ t.toList, ∃ κ, s.heap.Keyed x.1 κ) : Recorded s'.heap t l := by
  refine ⟨fun e hm k hkey => ?_, fun κ x => ?_⟩
  · obtain ⟨κ, k⟩ := r.keyed e hm k hkey
    exact ⟨κ, k.later hk⟩
  · rw [r.found_later hk, r.found]
    refine and_congr_right fun hx => ?_
    obtain ⟨κ', k'⟩ := he x hx
    exact (k'.later_iff hk).symm

theorem put (r : Recorded heap t l) (k : heap.Keyed key κ) {stored : Handle}
    (hstored : heap.Keyed stored κ)
    (hcases : (∃ v, (stored, v) ∈ t.toList) ∨
      stored = key ∧ ∀ x ∈ t.toList, ¬ heap.Keyed x.1 κ)
    (hmem : ∀ x, x ∈ t'.toList ↔ x = (stored, value) ∨ x ∈ t.toList ∧ ¬ heap.Keyed x.1 κ) :
    Recorded heap t' (.put key value :: l) := by
  refine ⟨List.forall_mem_cons.2 ⟨fun v hv => ?_, r.keyed⟩, fun κ' x => ?_⟩
  · obtain rfl : key = v := Option.some.inj hv
    exact ⟨κ, k⟩
  rw [Edit.found, hmem]
  by_cases hκ : heap.Keyed key κ'
  · obtain rfl := k.unique hκ
    have hfirst : ((Edit.found (heap.keyedAs κ) l).map (·.1)).getD key = stored := by
      rcases hcases with ⟨v, hv⟩ | ⟨rfl, hnone⟩
      · rw [(r.found κ (stored, v)).2 ⟨hv, hstored⟩]
        rfl
      · rw [r.found_eq_none hnone]
        rfl
    rw [if_pos (Heap.keyedAs_eq_true.2 k), hfirst, Option.some.injEq]
    constructor
    · rintro rfl
      exact ⟨.inl rfl, hstored⟩
    · rintro ⟨rfl | ⟨-, hne⟩, kx⟩
      · rfl
      · exact absurd kx hne
  · have hother : ∀ v, heap.Keyed v κ' → ¬ heap.Keyed v κ := fun v kv kv' =>
      hκ (kv.unique kv' ▸ k)
    rw [if_neg (fun h => hκ (Heap.keyedAs_eq_true.1 h)), r.found]
    constructor
    · rintro ⟨hx, kx⟩
      exact ⟨.inr ⟨hx, hother _ kx⟩, kx⟩
    · rintro ⟨rfl | ⟨hx, -⟩, kx⟩
      · exact absurd hstored (hother _ kx)
      · exact ⟨hx, kx⟩

theorem drop (r : Recorded heap t l) (k : heap.Keyed key κ)
    (hmem : ∀ x, x ∈ t'.toList ↔ x ∈ t.toList ∧ ¬ heap.Keyed x.1 κ) :
    Recorded heap t' (.drop key :: l) := by
  refine ⟨List.forall_mem_cons.2 ⟨fun v hv => ?_, r.keyed⟩, fun κ' x => ?_⟩
  · obtain rfl : key = v := Option.some.inj hv
    exact ⟨κ, k⟩
  rw [Edit.found, hmem]
  by_cases hκ : heap.Keyed key κ'
  · obtain rfl := k.unique hκ
    rw [if_pos (Heap.keyedAs_eq_true.2 k)]
    exact ⟨nofun, fun ⟨⟨_, hne⟩, kx⟩ => absurd kx hne⟩
  · rw [if_neg (fun h => hκ (Heap.keyedAs_eq_true.1 h)), r.found]
    constructor
    · rintro ⟨hx, kx⟩
      exact ⟨⟨hx, fun kx' => hκ (kx.unique kx' ▸ k)⟩, kx⟩
    · rintro ⟨⟨hx, -⟩, kx⟩
      exact ⟨hx, kx⟩

theorem clear (r : Recorded heap t l) : Recorded heap .empty (.clear :: l) := by
  refine ⟨List.forall_mem_cons.2 ⟨nofun, r.keyed⟩, fun κ x => ?_⟩
  rw [Edit.found, Table.toList_empty]
  exact ⟨nofun, fun h => nomatch h.1⟩

end Recorded

end ObjectSpace
