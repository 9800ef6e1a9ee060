import ObjectSpace.Heap
import ObjectSpace.Proofs.Table.Entries
import Mathlib.Algebra.GroupWithZero.Nat

/-!
# Tables with buckets and count in order

A table is trim when it has no empty bucket and its count is right (`Table.Trim`). An empty table
is, and every change keeps it: a bucket goes with its last entry, and the count goes up by one when
an entry comes, and down by one when one goes. So the count tells how many entries there are
(`Trim.length_toList`), and whether there are any (`Trim.isEmpty_iff`).
-/

namespace ObjectSpace

namespace Table

variable {α : Type} {t : Table α} {hash : UInt64} {i : Nat} {x : α}

/-- No bucket is empty, and the count is the number of entries. -/
structure Trim (t : Table α) : Prop where
  filled : ∀ b ∈ t.buckets.slots, b.2 ≠ #[]
  counted : t.size = t.entries.size

theorem Trim.length_toList (h : t.Trim) : t.toList.length = t.size := by
  rw [toList, List.length_map, Array.length_toList, h.counted]

/-- The count adds up the buckets. -/
theorem Trim.size_eq_sum (h : t.Trim) :
    t.size = (t.buckets.slots.toList.map fun b => b.2.size).sum := by
  rw [h.counted, ← Array.length_toList, toList_entries, List.length_flatMap]
  simp only [row, List.length_map, Array.length_toList]

theorem Trim.isEmpty_iff (h : t.Trim) : t.isEmpty = true ↔ t.toList = [] := by
  rw [isEmpty, beq_iff_eq, ← h.length_toList, List.length_eq_zero_iff]

/-- Tables of the same size have the same number of entries. -/
theorem Trim.size_eq_iff {u : Table α} (ht : t.Trim) (hu : u.Trim) :
    t.size = u.size ↔ t.toList.length = u.toList.length := by
  rw [ht.length_toList, hu.length_toList]

theorem trim_empty : (empty : Table α).Trim := ⟨nofun, rfl⟩

theorem Trim.insert {b : Array α} {n : Nat} (h : t.Trim) (hb : b ≠ #[])
    (hn : n + (t.bucket hash).length = t.size + b.size) :
    Trim ⟨t.buckets.insert hash b, n⟩ := by
  constructor
  · intro c hc
    rw [← Array.mem_toList_iff, OrderedMap.slots_insert, List.mem_append, List.mem_cons] at hc
    rcases hc with hc | rfl | hc
    · exact h.filled c (Array.mem_toList_iff.1 (List.mem_filter.1 hc).1)
    · exact hb
    · exact h.filled c (Array.mem_toList_iff.1 (List.mem_filter.1 hc).1)
  · have hcount := h.counted
    rw [← Array.length_toList, entries_eq t hash] at hcount
    rw [← Array.length_toList, entries_insert]
    simp only [List.length_append, List.length_map, Array.length_toList] at hcount ⊢
    omega

theorem Trim.push (h : t.Trim) : (t.push hash x).Trim := by
  refine h.insert (by simp) ?_
  simp only [bucket, Array.length_toList, Array.size_push]
  omega

theorem Trim.modify (h : t.Trim) (f : α → α) : (t.modify hash i f).Trim := by
  rw [Table.modify]
  cases hb : t.buckets.find? hash with
  | none => exact h
  | some b =>
    have hfilled := h.filled _ (Array.mem_toList_iff.1 (OrderedMap.mem_of_find? hb))
    refine h.insert (fun hnil => hfilled ?_) ?_
    · rw [← Array.size_eq_zero_iff, ← Array.size_modify, hnil, Array.size_empty]
    · simp [bucket, hb]

theorem Trim.erase (h : t.Trim) : (t.erase hash i).Trim := by
  rw [Table.erase]
  cases hb : t.buckets.find? hash with
  | none => exact h
  | some b =>
    have hcount := h.counted
    rw [← Array.length_toList, entries_eq t hash] at hcount
    simp only [bucket, hb, Option.getD_some, List.length_append, List.length_map,
      Array.length_toList] at hcount
    dsimp only
    split
    · rename_i hi
      split
      · rename_i hrest
        have hsize : b.size - 1 = 0 := by
          rw [← Array.size_eraseIdx (h := hi), Array.isEmpty_iff.1 hrest, Array.size_empty]
        constructor
        · intro c hc
          rw [← Array.mem_toList_iff, OrderedMap.slots_erase, List.mem_append] at hc
          refine h.filled c (Array.mem_toList_iff.1 ?_)
          exact hc.elim (fun hc => (List.mem_filter.1 hc).1) fun hc => (List.mem_filter.1 hc).1
        · rw [← Array.length_toList, toList_entries, OrderedMap.slots_erase, List.flatMap_append,
            ← below_eq, ← above_eq, List.length_append]
          show t.size - 1 = _
          omega
      · rename_i hrest
        refine h.insert (fun hnil => hrest (by simp [hnil])) ?_
        simp only [bucket, hb, Option.getD_some, Array.length_toList, Array.size_eraseIdx]
        omega
    · exact h

end Table

/-- The table of a dict or a set is trim. -/
def Object.Trim : Object → Prop
  | .dict t => t.Trim
  | .set t => t.Trim
  | _ => True

/-- All dicts and sets of a heap are trim. -/
def Heap.TablesTrim (heap : Heap) : Prop := ∀ v o, heap.get? v = some o → o.Trim

end ObjectSpace
