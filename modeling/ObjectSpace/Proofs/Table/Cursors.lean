import ObjectSpace.Proofs.Table.Entries

/-!
# Cursors of a table

A cursor, a pair of hash and place, stands at an index of the table that does not change
(`StandsAt`). The next entry from there is the one at that index, and the cursor behind it stands at
the index after (`nextFrom?_standsAt`). So a cursor that starts at the beginning gives every entry
once and in order.
-/

namespace ObjectSpace.Table

variable {α : Type} {t : Table α} {hash hash' : UInt64} {place i j : Nat} {x : α}
  {r : List (UInt64 × α)}

/-! ## The next entry -/

/-- In buckets of greater hashes, the place of a cursor does not matter. -/
theorem findSome?_rows {l : List (UInt64 × Array α)} (hl : ∀ b ∈ l, hash < b.1) :
    (l.findSome? fun b =>
        let start := if b.1 = hash then place else 0
        (b.2[start]?).map fun x => (b.1, start, x)) =
      (l.flatMap row).head?.map fun e => (e.1, 0, e.2) := by
  induction l with
  | nil => rfl
  | cons b l ih =>
    have hne : b.1 ≠ hash := (UInt64.ne_of_lt (hl b List.mem_cons_self)).symm
    have ih := ih fun c hc => hl c (List.mem_cons_of_mem _ hc)
    rw [List.findSome?_cons, List.flatMap_cons, List.head?_append, row, List.head?_map,
      List.head?_eq_getElem?, Array.getElem?_toList, ih]
    simp only [hne, if_false]
    cases b.2[0]? <;> rfl

theorem nextFrom?_of_bucket (h : (t.bucket hash)[place]? = some x) :
    t.nextFrom? hash place = some (hash, place, x) := by
  rw [bucket] at h
  rw [nextFrom?, OrderedMap.firstFrom?_eq]
  cases hb : t.buckets.find? hash with
  | none => simp [hb] at h
  | some b => simp_all

theorem nextFrom?_of_length_le (h : (t.bucket hash).length ≤ place) :
    t.nextFrom? hash place = (t.above hash).head?.map fun e => (e.1, 0, e.2) := by
  rw [bucket] at h
  have habove : ∀ b ∈ t.buckets.above hash, hash < b.1 := fun b hb =>
    of_decide_eq_true (List.mem_filter.1 hb).2
  rw [nextFrom?, OrderedMap.firstFrom?_eq, List.findSome?_append, findSome?_rows habove, above_eq]
  cases hb : t.buckets.find? hash with
  | none => simp
  | some b => simp_all

/-! ## Neighbouring buckets -/

theorem below_eq_append (h : hash < hash') :
    t.below hash' = t.below hash ++ (t.bucket hash).map (hash, ·) ++
      (t.above hash).filter (·.1 < hash') := by
  have hbelow : (t.below hash).filter (·.1 < hash') = t.below hash :=
    List.filter_eq_self.2 fun e he => decide_eq_true (UInt64.lt_trans (lt_of_mem_below he) h)
  have hat : ((t.bucket hash).map (hash, ·)).filter (·.1 < hash') = (t.bucket hash).map (hash, ·) :=
    List.filter_eq_self.2 (List.forall_mem_map.2 fun _ _ => decide_eq_true h)
  rw [below, entries_eq t hash, List.filter_append, List.filter_append, hbelow, hat]

section Head

variable (h : t.above hash = (hash', x) :: r)

include h

theorem lt_head : hash < hash' :=
  lt_of_mem_above (e := (hash', x)) (h ▸ List.mem_cons_self)

/-- Nothing is filed between a hash and the next one with a bucket. -/
theorem head_le {e : UInt64 × α} (he : e ∈ t.above hash) : hash' ≤ e.1 := by
  have hsorted := t.sorted.sublist (List.filter_sublist (p := (hash < ·.1)))
  change (t.above hash).Pairwise _ at hsorted
  rw [h] at hsorted he
  rcases List.mem_cons.1 he with rfl | he
  · exact UInt64.le_refl _
  · exact (List.pairwise_cons.1 hsorted).1 e he

theorem below_head : t.below hash' = t.below hash ++ (t.bucket hash).map (hash, ·) := by
  have hnil : (t.above hash).filter (·.1 < hash') = [] := List.filter_eq_nil_iff.2 fun e he hlt =>
    UInt64.not_lt.2 (head_le h he) (of_decide_eq_true hlt)
  rw [below_eq_append (lt_head h), hnil, List.append_nil]

theorem bucket_head : (t.bucket hash')[0]? = some x := by
  have hparts := entries_eq t hash
  rw [← below_head h, h] at hparts
  rw [bucket_eq, hparts, List.filter_append, filter_below]
  simp

end Head

/-! ## Where a cursor stands -/

/-- How many entries have a smaller hash. -/
def before (t : Table α) (hash : UInt64) : Nat := (t.below hash).length

theorem before_head (h : t.above hash = (hash', x) :: r) :
    t.before hash' = t.before hash + (t.bucket hash).length := by
  rw [before, below_head h, List.length_append, List.length_map, before]

/-- A cursor stands at an index: the entries before it have a smaller hash, or the hash of the
cursor and a place before its place. -/
structure StandsAt (t : Table α) (hash : UInt64) (place j : Nat) : Prop where
  index : t.before hash + place = j
  le : place ≤ (t.bucket hash).length

/-- A new cursor stands at the start. -/
theorem standsAt_start (t : Table α) : t.StandsAt 0 0 0 := by
  refine ⟨?_, Nat.zero_le _⟩
  have hnil : t.below 0 = [] := List.filter_eq_nil_iff.2 fun e _ hlt =>
    UInt64.not_lt.2 UInt64.zero_le (of_decide_eq_true hlt)
  rw [before, hnil, List.length_nil]

/-- What is behind a cursor: the rest of its bucket, and the entries of greater hashes. -/
theorem StandsAt.drop (h : t.StandsAt hash place j) :
    t.entries.toList.drop j = ((t.bucket hash).drop place).map (hash, ·) ++ t.above hash := by
  have hle : place ≤ ((t.bucket hash).map (hash, ·)).length := by simpa using h.le
  rw [← h.index, before, entries_eq t hash, List.append_assoc, ← List.drop_drop, List.drop_left,
    List.drop_append_of_le_length hle, List.map_drop]

/-- **The next entry.** It is the entry at the index where the cursor stands. -/
theorem nextFrom?_standsAt (h : t.StandsAt hash place j)
    (hj : t.entries.toList[j]? = some (hash', x)) :
    ∃ place', t.nextFrom? hash place = some (hash', place', x) ∧
      t.StandsAt hash' (place' + 1) (j + 1) := by
  have hindex := h.index
  rw [← List.head?_drop, h.drop] at hj
  rcases Nat.lt_or_eq_of_le h.le with hlt | heq
  · rw [List.drop_eq_getElem_cons hlt] at hj
    obtain ⟨rfl, rfl⟩ := Prod.mk.inj (Option.some.inj hj)
    exact ⟨place, nextFrom?_of_bucket (List.getElem?_eq_getElem hlt), by omega, hlt⟩
  · rw [heq, List.drop_length, List.map_nil, List.nil_append] at hj
    obtain ⟨r, hr⟩ := List.head?_eq_some_iff.1 hj
    have hbefore := before_head hr
    refine ⟨0, ?_, by omega, (List.getElem?_eq_some_iff.1 (bucket_head hr)).1⟩
    rw [nextFrom?_of_length_le heq.ge, hr]
    rfl

/-- At the end of the table there is no next entry. -/
theorem nextFrom?_end (h : t.StandsAt hash place t.toList.length) :
    t.nextFrom? hash place = none := by
  have hdrop := h.drop
  rw [toList, List.length_map, List.drop_length, eq_comm, List.append_eq_nil_iff,
    List.map_eq_nil_iff, List.drop_eq_nil_iff] at hdrop
  rw [nextFrom?_of_length_le hdrop.1, hdrop.2]
  rfl

/-! ## Positions -/

/-- The next entry is at the position of the cursor, or at the start of the next bucket when there
is none. -/
theorem nextFrom?_place (h : t.nextFrom? hash place = some (hash', i, x)) :
    hash' = hash ∧ i = place ∧ (t.bucket hash)[place]? = some x ∨
      (t.bucket hash).length ≤ place ∧ i = 0 ∧ ∃ r, t.above hash = (hash', x) :: r := by
  rcases Nat.lt_or_ge place (t.bucket hash).length with hlt | hle
  · have hat := List.getElem?_eq_getElem hlt
    rw [nextFrom?_of_bucket hat] at h
    obtain ⟨rfl, rfl, rfl⟩ := by simpa using h
    exact .inl ⟨rfl, rfl, hat⟩
  · rw [nextFrom?_of_length_le hle] at h
    obtain ⟨e, he, heq⟩ := Option.map_eq_some_iff.1 h
    obtain ⟨rfl, rfl, rfl⟩ := by simpa using heq
    exact .inr ⟨hle, rfl, List.head?_eq_some_iff.1 he⟩

theorem nextFrom?_onward (h : t.nextFrom? hash place = some (hash', i, x)) :
    hash' = hash ∧ i = place ∨ hash < hash' := by
  rcases nextFrom?_place h with ⟨hh, hi, -⟩ | ⟨-, -, r, hr⟩
  · exact .inl ⟨hh, hi⟩
  · exact .inr (lt_head hr)

theorem bucket_of_nextFrom? (h : t.nextFrom? hash place = some (hash', i, x)) :
    (t.bucket hash')[i]? = some x := by
  rcases nextFrom?_place h with ⟨rfl, rfl, hat⟩ | ⟨-, rfl, r, hr⟩
  · exact hat
  · exact bucket_head hr

theorem mem_of_nextFrom? (h : t.nextFrom? hash place = some (hash', i, x)) :
    (hash', x) ∈ t.entries.toList :=
  mem_bucket.1 (List.mem_of_getElem? (bucket_of_nextFrom? h))

/-- Where no entry comes next, no entry has a greater hash, and the bucket ends before the place. -/
theorem le_of_nextFrom?_eq_none (h : t.nextFrom? hash place = none) :
    (t.bucket hash).length ≤ place ∧ ∀ e ∈ t.entries.toList, e.1 ≤ hash := by
  rcases Nat.lt_or_ge place (t.bucket hash).length with hlt | hle
  · rw [nextFrom?_of_bucket (List.getElem?_eq_getElem hlt)] at h
    cases h
  · rw [nextFrom?_of_length_le hle, Option.map_eq_none_iff, List.head?_eq_none_iff] at h
    refine ⟨hle, fun e he => UInt64.not_lt.1 fun hgt => ?_⟩
    exact List.filter_eq_nil_iff.1 h e he (decide_eq_true hgt)

/-- How many entries are before a position. -/
def rank (t : Table α) (hash : UInt64) (place : Nat) : Nat :=
  t.before hash + min place (t.bucket hash).length

theorem rank_le_length (t : Table α) (hash : UInt64) (place : Nat) :
    t.rank hash place ≤ t.toList.length := by
  rw [toList, List.length_map, entries_eq t hash, List.length_append, List.length_append,
    List.length_map, rank, before]
  omega

theorem rank_mono (h : hash < hash' ∨ hash' = hash ∧ place ≤ i) :
    t.rank hash place ≤ t.rank hash' i := by
  rcases h with h | ⟨rfl, h⟩
  · have hbefore := congrArg List.length (below_eq_append (t := t) h)
    rw [List.length_append, List.length_append, List.length_map] at hbefore
    rw [rank, rank, before, before]
    omega
  · rw [rank, rank]
    omega

/-- Behind the next entry there is one more entry before the cursor. -/
theorem rank_nextFrom? (h : t.nextFrom? hash place = some (hash', i, x)) :
    t.rank hash place < t.rank hash' (i + 1) := by
  have hlt := (List.getElem?_eq_some_iff.1 (bucket_of_nextFrom? h)).1
  rcases nextFrom?_place h with ⟨rfl, rfl, -⟩ | ⟨-, rfl, r, hr⟩
  · rw [rank, rank]
    omega
  · rw [rank, rank, before_head hr]
    omega

end ObjectSpace.Table
