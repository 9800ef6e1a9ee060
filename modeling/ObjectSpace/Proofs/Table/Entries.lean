import ObjectSpace.Table
import Mathlib.Data.List.TakeWhile

/-!
# Entries of a table

A table has its entries in order of hash: those of smaller hashes, then a bucket, then those of
greater hashes (`entries_eq`). A change at a place of a bucket changes the middle part as it would
change a list (`entries_push`, `entries_modify`, `entries_erase`), whether the buckets and the count
of the table are in order or not.
-/

namespace ObjectSpace.Table

variable {α : Type} {t : Table α} {hash : UInt64} {i : Nat} {x a : α}

/-! ## Buckets in sequence -/

theorem map_snd_map (hash : UInt64) (l : List α) : (l.map (hash, ·)).map (·.2) = l := by
  rw [List.map_map]
  exact List.map_id l

/-- The entries of a bucket with their hash. -/
def row (b : UInt64 × Array α) : List (UInt64 × α) := b.2.toList.map (b.1, ·)

theorem toList_entries (t : Table α) : t.entries.toList = t.buckets.slots.toList.flatMap row := by
  rw [entries, Array.toList_flatMap]
  simp only [Array.toList_map]
  rfl

/-- What is filed in some buckets under hashes with a property. -/
theorem filter_flatMap_row (p : UInt64 → Bool) (l : List (UInt64 × Array α)) :
    (l.flatMap row).filter (p ·.1) = (l.filter (p ·.1)).flatMap row := by
  induction l with
  | nil => rfl
  | cons b l ih =>
    rw [List.flatMap_cons, List.filter_append, ih]
    cases hb : p b.1 <;> simp [row, hb]

/-- The entries of smaller hashes. -/
def below (t : Table α) (hash : UInt64) : List (UInt64 × α) := t.entries.toList.filter (·.1 < hash)

/-- The entries of greater hashes. -/
def above (t : Table α) (hash : UInt64) : List (UInt64 × α) := t.entries.toList.filter (hash < ·.1)

theorem below_eq (t : Table α) (hash : UInt64) :
    t.below hash = (t.buckets.below hash).flatMap row := by
  rw [below, toList_entries]
  exact filter_flatMap_row (· < hash) _

theorem above_eq (t : Table α) (hash : UInt64) :
    t.above hash = (t.buckets.above hash).flatMap row := by
  rw [above, toList_entries]
  exact filter_flatMap_row (hash < ·) _

theorem lt_of_mem_below {e : UInt64 × α} (h : e ∈ t.below hash) : e.1 < hash :=
  of_decide_eq_true (List.mem_filter.1 h).2

theorem lt_of_mem_above {e : UInt64 × α} (h : e ∈ t.above hash) : hash < e.1 :=
  of_decide_eq_true (List.mem_filter.1 h).2

/-- The entries of one hash stand together, behind those of smaller hashes. -/
theorem entries_eq (t : Table α) (hash : UInt64) :
    t.entries.toList = t.below hash ++ (t.bucket hash).map (hash, ·) ++ t.above hash := by
  rw [below_eq, above_eq, toList_entries, bucket]
  have hslots := t.buckets.slots_eq hash
  generalize t.buckets.below hash = low, t.buckets.above hash = high at hslots ⊢
  rw [hslots]
  cases t.buckets.find? hash <;> simp [row]

/-- The hashes of the entries ascend. -/
theorem sorted (t : Table α) : t.entries.toList.Pairwise fun a b => a.1 ≤ b.1 := by
  rw [toList_entries, List.pairwise_flatMap]
  constructor
  · intro b _
    rw [row, List.pairwise_map]
    exact List.pairwise_of_forall fun _ _ => UInt64.le_refl _
  · refine t.buckets.ascending.imp fun {b c} hbc e he f hf => ?_
    obtain ⟨-, -, rfl⟩ := List.mem_map.1 he
    obtain ⟨-, -, rfl⟩ := List.mem_map.1 hf
    exact UInt64.le_of_lt hbc

/-! ## What is in a table -/

theorem mem_entries_of_slot {b : UInt64 × Array α} (hb : b ∈ t.buckets.slots) (hx : x ∈ b.2) :
    (b.1, x) ∈ t.entries.toList := by
  rw [toList_entries]
  exact List.mem_flatMap.2 ⟨b, hb.val, List.mem_map_of_mem hx.val⟩

theorem mem_toList : a ∈ t.toList ↔ ∃ hash, (hash, a) ∈ t.entries.toList := by
  simp [toList]

@[simp] theorem toList_empty : (empty : Table α).toList = [] := rfl

theorem filter_below (t : Table α) (hash : UInt64) : (t.below hash).filter (·.1 = hash) = [] :=
  List.filter_eq_nil_iff.2 fun _ he hh =>
    UInt64.ne_of_lt (lt_of_mem_below he) (of_decide_eq_true hh)

theorem bucket_eq (t : Table α) (hash : UInt64) :
    t.bucket hash = (t.entries.toList.filter (·.1 = hash)).map (·.2) := by
  have habove : (t.above hash).filter (·.1 = hash) = [] := List.filter_eq_nil_iff.2 fun e he hh =>
    UInt64.ne_of_lt (lt_of_mem_above he) (of_decide_eq_true hh).symm
  have hat : ((t.bucket hash).map (hash, ·)).filter (·.1 = hash) = (t.bucket hash).map (hash, ·) :=
    List.filter_eq_self.2 (List.forall_mem_map.2 fun _ _ => decide_eq_true rfl)
  rw [entries_eq t hash, List.filter_append, List.filter_append, filter_below, habove, hat,
    List.nil_append, List.append_nil, map_snd_map]

/-- The bucket of a hash holds what is filed under it. -/
theorem mem_bucket : a ∈ t.bucket hash ↔ (hash, a) ∈ t.entries.toList := by
  rw [bucket_eq, List.mem_map]
  constructor
  · rintro ⟨⟨h, b⟩, he, rfl⟩
    obtain ⟨he, hh⟩ := List.mem_filter.1 he
    have hh : h = hash := by simpa using hh
    exact hh ▸ he
  · exact fun he => ⟨(hash, a), List.mem_filter.2 ⟨he, by simp⟩, rfl⟩

theorem mem_of_mem_bucket (h : a ∈ t.bucket hash) : a ∈ t.toList :=
  mem_toList.2 ⟨hash, mem_bucket.1 h⟩

theorem entryAt?_eq (t : Table α) (hash : UInt64) (i : Nat) :
    t.entryAt? hash i = (t.bucket hash)[i]? := by
  rw [entryAt?, bucket]
  cases t.buckets.find? hash <;> simp

theorem entryAt?_of_bucket (h : (t.bucket hash)[i]? = some x) : t.entryAt? hash i = some x :=
  (entryAt?_eq t hash i).trans h

theorem mem_of_entryAt? (h : t.entryAt? hash i = some a) : (hash, a) ∈ t.entries.toList :=
  mem_bucket.1 (List.mem_of_getElem? (entryAt?_eq t hash i ▸ h))

/-! ## Changes -/

/-- A table with another bucket in place of the one under a hash. -/
theorem entries_insert (t : Table α) (hash : UInt64) (b : Array α) (n : Nat) :
    (entries ⟨t.buckets.insert hash b, n⟩).toList =
      t.below hash ++ b.toList.map (hash, ·) ++ t.above hash := by
  rw [toList_entries, OrderedMap.slots_insert, below_eq, above_eq]
  simp [row]

theorem entries_push (t : Table α) (hash : UInt64) (x : α) :
    (t.push hash x).entries.toList =
      t.below hash ++ (t.bucket hash ++ [x]).map (hash, ·) ++ t.above hash := by
  rw [push, entries_insert, Array.toList_push, bucket]

theorem entries_modify (t : Table α) (hash : UInt64) (i : Nat) (f : α → α) :
    (t.modify hash i f).entries.toList =
      t.below hash ++ ((t.bucket hash).modify i f).map (hash, ·) ++ t.above hash := by
  rw [modify, bucket]
  cases hb : t.buckets.find? hash with
  | none => simpa [bucket, hb] using t.entries_eq hash
  | some b => simpa using t.entries_insert hash (b.modify i f) t.size

theorem entries_erase (t : Table α) (hash : UInt64) (i : Nat) :
    (t.erase hash i).entries.toList =
      t.below hash ++ ((t.bucket hash).eraseIdx i).map (hash, ·) ++ t.above hash := by
  rw [erase, bucket]
  cases hb : t.buckets.find? hash with
  | none => simpa [bucket, hb] using t.entries_eq hash
  | some b =>
    simp only [Option.getD_some]
    split
    · rename_i hi
      split
      · -- the bucket had no other entry
        rename_i hrest
        have hrest : b.toList.eraseIdx i = [] := by
          rw [← Array.toList_eraseIdx (h := hi), Array.isEmpty_iff.1 hrest]
        rw [toList_entries, OrderedMap.slots_erase, List.flatMap_append, ← below_eq, ← above_eq,
          hrest]
        simp
      · rw [entries_insert, Array.toList_eraseIdx]
    · rename_i hi
      rw [List.eraseIdx_of_length_le (by simpa using hi)]
      simpa [bucket, hb] using t.entries_eq hash

/-- Erasing leaves a part of the entries, in their order. -/
theorem entries_erase_sublist (t : Table α) (hash : UInt64) (i : Nat) :
    (t.erase hash i).entries.toList.Sublist t.entries.toList := by
  rw [entries_erase, entries_eq t hash]
  exact ((List.Sublist.refl _).append ((List.eraseIdx_sublist ..).map _)).append (.refl _)

theorem toList_of_entries {t' : Table α} {l : List α}
    (h : t'.entries.toList = t.below hash ++ l.map (hash, ·) ++ t.above hash) :
    t'.toList = (t.below hash).map (·.2) ++ l ++ (t.above hash).map (·.2) := by
  rw [toList, h, List.map_append, List.map_append, map_snd_map]

/-- A new entry stands between entries that were there. -/
theorem toList_push (t : Table α) (hash : UInt64) (x : α) :
    ∃ pre post, t.toList = pre ++ post ∧ (t.push hash x).toList = pre ++ x :: post := by
  refine ⟨(t.below hash).map (·.2) ++ t.bucket hash, (t.above hash).map (·.2),
    toList_of_entries (entries_eq t hash), ?_⟩
  rw [toList_of_entries (entries_push t hash x)]
  simp

/-- Modifying or erasing at a place of a bucket changes or takes away the entry that is there. -/
theorem toList_at_place (h : (t.bucket hash)[i]? = some x) :
    ∃ pre post, t.toList = pre ++ x :: post ∧
      (∀ f, (t.modify hash i f).toList = pre ++ f x :: post) ∧
      (t.erase hash i).toList = pre ++ post := by
  obtain ⟨hi, rfl⟩ := List.getElem?_eq_some_iff.1 h
  refine ⟨(t.below hash).map (·.2) ++ (t.bucket hash).take i,
    (t.bucket hash).drop (i + 1) ++ (t.above hash).map (·.2), ?_, fun f => ?_, ?_⟩
  · have hbucket := List.take_append_drop i (t.bucket hash)
    rw [List.drop_eq_getElem_cons hi] at hbucket
    rw [toList_of_entries (entries_eq t hash), List.append_assoc _ (List.take _ _),
      ← List.cons_append, ← List.append_assoc (List.take _ _), hbucket, List.append_assoc]
  · rw [toList_of_entries (entries_modify t hash i f), List.modify_eq_take_cons_drop hi]
    simp
  · rw [toList_of_entries (entries_erase t hash i), List.eraseIdx_eq_take_drop_succ]
    simp

theorem mem_toList_push (h : a ∈ (t.push hash x).toList) : a = x ∨ a ∈ t.toList := by
  obtain ⟨pre, post, hl, hpush⟩ := toList_push t hash x
  rw [hpush, List.mem_append, List.mem_cons] at h
  rw [hl, List.mem_append]
  exact or_left_comm.1 h

theorem mem_toList_erase (h : a ∈ (t.erase hash i).toList) : a ∈ t.toList :=
  ((entries_erase_sublist t hash i).map _).mem h

theorem mem_toList_modify {f : α → α} (h : a ∈ (t.modify hash i f).toList) :
    a ∈ t.toList ∨ ∃ b ∈ t.toList, a = f b := by
  have hat : ∀ b ∈ t.bucket hash, b ∈ t.toList := fun b hb => mem_of_mem_bucket hb
  rw [toList_of_entries (entries_modify t hash i f), List.mem_append, List.mem_append] at h
  rw [toList_of_entries (entries_eq t hash)] at hat ⊢
  rcases h with (h | h) | h
  · exact .inl (List.mem_append_left _ (List.mem_append_left _ h))
  · obtain ⟨n, hn, rfl⟩ := List.mem_iff_getElem.1 h
    rw [List.length_modify] at hn
    rw [List.getElem_modify]
    split
    · exact .inr ⟨_, hat _ (List.getElem_mem hn), rfl⟩
    · exact .inl (hat _ (List.getElem_mem hn))
  · exact .inl (List.mem_append_right _ h)

end ObjectSpace.Table
