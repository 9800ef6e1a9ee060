/-!
# Ordered maps

Values under 64-bit keys, in ascending order of the keys. The smaller keys come first, so the place
of a key is found by halving (`position`). It divides the map into what is `below` the key, what
stands under it and what is `above` it (`slots_eq`), and inserting and erasing change the middle
part only (`slots_insert`, `slots_erase`).
-/

namespace ObjectSpace

/-! ## Lists in order of a key -/

section Sorted

variable {β : Type} {l : List (UInt64 × β)}

theorem filter_below_eq_nil {k key : UInt64} (h : ∀ f ∈ l, k ≤ f.1) (hkey : key ≤ k) :
    l.filter (·.1 < key) = [] :=
  List.filter_eq_nil_iff.2 fun f hf hlt =>
    UInt64.not_lt.2 (UInt64.le_trans hkey (h f hf)) (of_decide_eq_true hlt)

/-- A list in order of its keys has the smaller keys first, then a key, and then the greater. -/
theorem eq_below_append (h : l.Pairwise (fun a b => a.1 ≤ b.1)) (key : UInt64) :
    l = l.filter (·.1 < key) ++ l.filter (·.1 = key) ++ l.filter (key < ·.1) := by
  induction l with
  | nil => rfl
  | cons e r ih =>
    rw [List.pairwise_cons] at h
    have ih := ih h.2
    by_cases hlt : e.1 < key
    · have hne : e.1 ≠ key := UInt64.ne_of_lt hlt
      have hle : ¬ key < e.1 := UInt64.not_lt.2 (UInt64.le_of_lt hlt)
      simpa [hlt, hne, hle] using ih
    · have hkey : key ≤ e.1 := UInt64.not_lt.1 hlt
      have hbelow := filter_below_eq_nil h.1 hkey
      by_cases heq : e.1 = key
      · rw [hbelow] at ih
        subst heq
        simpa [hbelow] using ih
      · have hgt : key < e.1 := UInt64.lt_of_le_of_ne hkey (Ne.symm heq)
        have hat : r.filter (·.1 = key) = [] := by
          refine List.filter_eq_nil_iff.2 fun f hf hfk => ?_
          have hge := UInt64.lt_of_lt_of_le hgt (h.1 f hf)
          exact UInt64.ne_of_lt hge (of_decide_eq_true hfk).symm
        rw [hbelow, hat] at ih
        simpa [hlt, heq, hgt, hbelow, hat] using ih

theorem takeWhile_eq_below (h : l.Pairwise (fun a b => a.1 ≤ b.1)) (key : UInt64) :
    l.takeWhile (·.1 < key) = l.filter (·.1 < key) := by
  induction l with
  | nil => rfl
  | cons e r ih =>
    rw [List.pairwise_cons] at h
    by_cases hlt : e.1 < key
    · simpa [hlt] using ih h.2
    · have hbelow := filter_below_eq_nil h.1 (UInt64.not_lt.1 hlt)
      simp [hlt, hbelow]

end Sorted

/-! ## Search -/

/-- Values under 64-bit keys, in ascending order of the keys. -/
structure OrderedMap (β : Type) where
  slots : Array (UInt64 × β) := #[]
  ascending : slots.toList.Pairwise (fun a b => a.1 < b.1) := by exact .nil

namespace OrderedMap

variable {β γ : Type}

/-- The number of keys below `key`, looked for between `low` and `high` in a bounded number of
steps. Keys before `low` have to be below it, and those from `high` on not. -/
def countBelow (slots : Array (UInt64 × β)) (key : UInt64) : Nat → Nat → Nat → Nat
  | 0, low, _ => low
  | n + 1, low, high =>
    if low < high then
      let middle := (low + high) / 2
      if (slots[middle]?).any (·.1 < key) then countBelow slots key n (middle + 1) high
      else countBelow slots key n low middle
    else low

/-- Where a key stands, or would stand: the number of keys below it. -/
def position (m : OrderedMap β) (key : UInt64) : Nat :=
  countBelow m.slots key m.slots.size 0 m.slots.size

/-- What stands under smaller keys. -/
def below (m : OrderedMap β) (key : UInt64) : List (UInt64 × β) :=
  m.slots.toList.filter (·.1 < key)

/-- What stands under greater keys. -/
def above (m : OrderedMap β) (key : UInt64) : List (UInt64 × β) :=
  m.slots.toList.filter (key < ·.1)

theorem length_takeWhile_eq {p : β → Bool} {l : List β} {k : Nat} (hk : k ≤ l.length)
    (hp : ∀ i (h : i < l.length), i < k → p l[i] = true)
    (hn : ∀ i (h : i < l.length), k ≤ i → p l[i] = false) : (l.takeWhile p).length = k := by
  induction l generalizing k with
  | nil => simp at hk ⊢; omega
  | cons x l ih =>
    cases k with
    | zero =>
      have := hn 0 (by simp) (Nat.le_refl _)
      simp_all
    | succ k =>
      have hx : p x = true := hp 0 (by simp) (by omega)
      have := ih (by simpa using hk)
        (fun i h hi => hp (i + 1) (by simpa using h) (by omega))
        (fun i h hi => hn (i + 1) (by simpa using h) (by omega))
      simp [hx, this]

theorem countBelow_eq {slots : Array (UInt64 × β)} {key : UInt64} {n low high : Nat}
    (mono : slots.toList.Pairwise (fun a b => a.1 < b.1))
    (hl : low ≤ high) (hh : high ≤ slots.size) (hn : high - low ≤ n)
    (hlow : ∀ i (h : i < slots.size), i < low → slots[i].1 < key)
    (hhigh : ∀ i (h : i < slots.size), high ≤ i → ¬ slots[i].1 < key) :
    countBelow slots key n low high = (slots.toList.takeWhile (·.1 < key)).length := by
  rw [List.pairwise_iff_getElem] at mono
  induction n generalizing low high with
  | zero =>
    have : high = low := by omega
    subst this
    rw [countBelow]
    exact (length_takeWhile_eq (by simpa using hh) (by simpa using hlow)
      (by simpa using hhigh)).symm
  | succ n ih =>
    rw [countBelow]
    split
    · have hm : (low + high) / 2 < slots.size := by omega
      simp only [hm, Array.getElem?_eq_getElem, Option.any_some, decide_eq_true_eq]
      split
      · rename_i hbelow
        refine ih (by omega) hh (by omega) (fun i h hi => ?_) hhigh
        rcases Nat.lt_succ_iff_lt_or_eq.1 hi with hi | rfl
        · have hlt := mono i _ (by simpa using h) (by simpa using hm) hi
          exact UInt64.lt_trans (by simpa using hlt) hbelow
        · exact hbelow
      · rename_i habove
        refine ih (by omega) (by omega) (by omega) hlow (fun i h hi => ?_)
        rcases Nat.lt_or_eq_of_le hi with hi | rfl
        · have hlt := mono _ i (by simpa using hm) (by simpa using h) hi
          exact fun h' => habove (UInt64.lt_trans (by simpa using hlt) h')
        · exact habove
    · have : high = low := by omega
      subst this
      exact (length_takeWhile_eq (by simpa using hh) (by simpa using hlow)
        (by simpa using hhigh)).symm

theorem sorted (m : OrderedMap β) : m.slots.toList.Pairwise (fun a b => a.1 ≤ b.1) :=
  m.ascending.imp UInt64.le_of_lt

theorem position_eq (m : OrderedMap β) (key : UInt64) : m.position key = (m.below key).length := by
  rw [below, ← takeWhile_eq_below m.sorted]
  exact countBelow_eq m.ascending (Nat.zero_le _) (Nat.le_refl _) (Nat.le_refl _)
    (fun _ _ h => absurd h (Nat.not_lt_zero _)) (fun _ h h' => absurd h (Nat.not_lt_of_le h'))

theorem position_le_size (m : OrderedMap β) (key : UInt64) : m.position key ≤ m.slots.size := by
  rw [position_eq, ← Array.length_toList]
  exact List.filter_sublist.length_le

/-- Either something stands under a key, at its position, or there is nothing between the smaller
keys and the greater ones. -/
theorem slots_cases (m : OrderedMap β) (key : UInt64) :
    (∃ v, m.slots.toList = m.below key ++ (key, v) :: m.above key) ∨
      m.slots.toList = m.below key ++ m.above key ∧ ∀ e ∈ m.slots.toList, e.1 ≠ key := by
  have hparts := eq_below_append m.sorted key
  rcases hat : m.slots.toList.filter (·.1 = key) with _ | ⟨e, r⟩
  · rw [hat, List.append_nil] at hparts
    exact .inr ⟨hparts, fun e he hk => List.filter_eq_nil_iff.1 hat e he (decide_eq_true hk)⟩
  · have hmem : ∀ f ∈ e :: r, f.1 = key := by
      rw [← hat]
      exact fun f hf => of_decide_eq_true (List.mem_filter.1 hf).2
    have hasc := m.ascending.sublist (List.filter_sublist (p := (·.1 = key)))
    rw [hat, List.pairwise_cons] at hasc
    obtain rfl : r = [] := List.eq_nil_iff_forall_not_mem.2 fun f hf => by
      have hlt := hasc.1 f hf
      rw [hmem e List.mem_cons_self, hmem f (List.mem_cons_of_mem _ hf)] at hlt
      exact UInt64.lt_irrefl _ hlt
    obtain ⟨k, v⟩ := e
    obtain rfl : k = key := hmem _ List.mem_cons_self
    rw [hat, List.append_assoc] at hparts
    exact .inl ⟨v, hparts⟩

/-- The value under a key. -/
def find? (m : OrderedMap β) (key : UInt64) : Option β :=
  ((m.slots[m.position key]?).filter (·.1 = key)).map (·.2)

theorem find?_of_slots {m : OrderedMap β} {key : UInt64} {v : β}
    (h : m.slots.toList = m.below key ++ (key, v) :: m.above key) : m.find? key = some v := by
  have hslot : m.slots[m.position key]? = some (key, v) := by
    rw [← Array.getElem?_toList, position_eq, h]
    simp
  rw [find?, hslot]
  simp

theorem find?_eq_none {m : OrderedMap β} {key : UInt64} (h : ∀ e ∈ m.slots.toList, e.1 ≠ key) :
    m.find? key = none := by
  rw [find?, Option.map_eq_none_iff, Option.filter_eq_none_iff]
  intro e he hk
  exact h e (Array.mem_toList_iff.2 (Array.mem_of_getElem? he)) (of_decide_eq_true hk)

/-- **Parts.** What is below a key, what stands under it and what is above it is all there is. -/
theorem slots_eq (m : OrderedMap β) (key : UInt64) :
    m.slots.toList = m.below key ++ ((m.find? key).map (key, ·)).toList ++ m.above key := by
  rcases m.slots_cases key with ⟨v, h⟩ | ⟨h, hne⟩
  · rw [find?_of_slots h]
    simpa using h
  · rw [find?_eq_none hne]
    simpa using h

theorem mem_of_find? {m : OrderedMap β} {key : UInt64} {v : β} (h : m.find? key = some v) :
    (key, v) ∈ m.slots.toList := by
  rw [m.slots_eq key, h]
  simp

/-! ## Changes -/

theorem ascending_middle (m : OrderedMap β) (key : UInt64) (v : β) :
    (m.below key ++ (key, v) :: m.above key).Pairwise (fun a b => a.1 < b.1) := by
  have hlow : ∀ e ∈ m.below key, e.1 < key := fun e he =>
    of_decide_eq_true (List.mem_filter.1 he).2
  have hhigh : ∀ e ∈ m.above key, key < e.1 := fun e he =>
    of_decide_eq_true (List.mem_filter.1 he).2
  rw [List.pairwise_append, List.pairwise_cons]
  refine ⟨m.ascending.sublist List.filter_sublist, ⟨hhigh, m.ascending.sublist List.filter_sublist⟩,
    fun a ha b hb => ?_⟩
  rcases List.mem_cons.1 hb with rfl | hb
  · exact hlow a ha
  · exact UInt64.lt_trans (hlow a ha) (hhigh b hb)

theorem insertIdx_length_append {α : Type} (low high : List α) (x : α) :
    (low ++ high).insertIdx low.length x = low ++ x :: high := by
  induction low with
  | nil => rfl
  | cons y low ih => simp [ih]

/-- The slots after an insertion: the place of the key is taken, or made. -/
def slotsInsert (m : OrderedMap β) (key : UInt64) (v : β) : Array (UInt64 × β) :=
  if (m.find? key).isSome then m.slots.set! (m.position key) (key, v)
  else m.slots.insertIdx (m.position key) (key, v) (m.position_le_size key)

theorem toList_slotsInsert (m : OrderedMap β) (key : UInt64) (v : β) :
    (m.slotsInsert key v).toList = m.below key ++ (key, v) :: m.above key := by
  rcases m.slots_cases key with ⟨w, h⟩ | ⟨h, hne⟩
  · simp only [slotsInsert, find?_of_slots h, Option.isSome_some, if_true, position_eq]
    rw [Array.toList_set!]
    generalize m.below key = low, m.above key = high at h ⊢
    simp [h]
  · simp only [slotsInsert, find?_eq_none hne, Option.isSome_none, Bool.false_eq_true, if_false,
      position_eq]
    rw [Array.toList_insertIdx]
    generalize m.below key = low, m.above key = high at h ⊢
    rw [h, insertIdx_length_append]

/-- Put a value under a key, in place of the one that is there. -/
def insert (m : OrderedMap β) (key : UInt64) (v : β) : OrderedMap β where
  slots := m.slotsInsert key v
  ascending := m.toList_slotsInsert key v ▸ m.ascending_middle key v

/-- Take away what stands under a key. -/
def erase (m : OrderedMap β) (key : UInt64) : OrderedMap β where
  slots := if (m.find? key).isSome then m.slots.eraseIdxIfInBounds (m.position key) else m.slots
  ascending := by
    split
    · rw [Array.toList_eraseIdxIfInBounds]
      exact m.ascending.sublist (List.eraseIdx_sublist ..)
    · exact m.ascending

theorem slots_insert (m : OrderedMap β) (key : UInt64) (v : β) :
    (m.insert key v).slots.toList = m.below key ++ (key, v) :: m.above key :=
  m.toList_slotsInsert key v

theorem slots_erase (m : OrderedMap β) (key : UInt64) :
    (m.erase key).slots.toList = m.below key ++ m.above key := by
  rcases m.slots_cases key with ⟨v, h⟩ | ⟨h, hne⟩
  · simp only [erase, find?_of_slots h, Option.isSome_some, if_true, position_eq]
    rw [Array.toList_eraseIdxIfInBounds]
    generalize m.below key = low, m.above key = high at h ⊢
    simp [h, List.eraseIdx_append_of_length_le]
  · simpa only [erase, find?_eq_none hne, Option.isSome_none, Bool.false_eq_true, if_false] using h

/-! ## From a key on -/

/-- The first answer of `f` to an entry at index `i` or after it, within a number of steps. -/
def firstAt? (slots : Array (UInt64 × β)) (f : UInt64 → β → Option γ) : Nat → Nat → Option γ
  | 0, _ => none
  | n + 1, i =>
    match slots[i]? with
    | none => none
    | some (k, v) =>
      match f k v with
      | some r => some r
      | none => firstAt? slots f n (i + 1)

/-- The first answer of `f` to an entry from a key on. -/
def firstFrom? (m : OrderedMap β) (key : UInt64) (f : UInt64 → β → Option γ) : Option γ :=
  firstAt? m.slots f m.slots.size (m.position key)

theorem firstAt?_eq {slots : Array (UInt64 × β)} {f : UInt64 → β → Option γ} {n i : Nat}
    (hn : slots.size ≤ n + i) :
    firstAt? slots f n i = (slots.toList.drop i).findSome? fun e => f e.1 e.2 := by
  induction n generalizing i with
  | zero =>
    rw [firstAt?, List.drop_eq_nil_of_le (by simpa using hn), List.findSome?_nil]
  | succ n ih =>
    rw [firstAt?]
    rcases hi : slots[i]? with _ | ⟨k, v⟩
    · have hle := Array.getElem?_eq_none_iff.1 hi
      simp only
      rw [List.drop_eq_nil_of_le (by simpa using hle), List.findSome?_nil]
    · obtain ⟨hlt, hget⟩ := Array.getElem?_eq_some_iff.1 hi
      rw [List.drop_eq_getElem_cons (by simpa using hlt), List.findSome?_cons, ← ih (by omega)]
      simp only [Array.getElem_toList, hget]
      cases f k v <;> rfl

theorem firstFrom?_eq (m : OrderedMap β) (key : UInt64) (f : UInt64 → β → Option γ) :
    m.firstFrom? key f = (((m.find? key).map (key, ·)).toList ++ m.above key).findSome?
      fun e => f e.1 e.2 := by
  have hparts := m.slots_eq key
  rw [List.append_assoc] at hparts
  rw [firstFrom?, firstAt?_eq (Nat.le_add_right _ _), position_eq]
  generalize m.below key = low at hparts ⊢
  rw [hparts, List.drop_left]

end OrderedMap
end ObjectSpace
