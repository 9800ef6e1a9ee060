import ObjectSpace.Proofs.Iteration.Advancing

/-!
# What an iterator can still give

A cursor of its own has so many values `left` at most, as things are, and every value that it gives
is one less. An iterator that numbers or pairs others ends when one of those does: it is `LimitedBy`
the cursor of that one.

**Theorems.** An iterator that is limited by a cursor with `m` values left gives no more than `m`
(`Firm.limited_next`). One that gave none is limited by a cursor that is at its end
(`Firm.atEnd_of_next`), and there it stays unless a sequence that the cursor runs over has become
longer (`Cursor.AtEnd.onward`).
-/

namespace ObjectSpace

namespace Heap

/-- How many elements the sequence behind a handle has, at most. -/
def extent (heap : Heap) (u : Handle) : Nat := ((heap.get? u).map sequenceLength).getD 0

/-- How many entries of the table behind a handle are at a position or after it. -/
def ahead (heap : Heap) (u : Handle) (hash : UInt64) (place : Nat) : Nat :=
  match heap.get? u with
  | some (.dict t) => t.toList.length - t.rank hash place
  | some (.set t) => t.toList.length - t.rank hash place
  | _ => 0

variable {a b heap : Heap} {u : Handle} {o : Object}

theorem extent_eq (h : heap.get? u = some o) : heap.extent u = sequenceLength o := by
  rw [extent, h, Option.map_some, Option.getD_some]

/-- Behind a live handle iteration leaves the same object, or an iterator. -/
theorem Moved.get? (h : Moved a b) (ho : a.Has u o) :
    b.get? u = a.get? u ∨ ∃ c c', a.get? u = some (.iter c) ∧ b.get? u = some (.iter c') := by
  cases o with
  | iter c =>
    obtain ⟨c', hc', -⟩ := h.iter ho
    exact .inr ⟨c, c', ho.2, hc'.2⟩
  | _ => exact .inl ((h.has ho nofun).2.trans ho.2.symm)

theorem Moved.extent_eq (h : Moved a b) (ho : a.Has u o) : b.extent u = a.extent u := by
  rcases h.get? ho with he | ⟨c, c', hc, hc'⟩
  · rw [extent, extent, he]
  · simp only [Heap.extent_eq hc, Heap.extent_eq hc', sequenceLength]

theorem Moved.ahead_eq (h : Moved a b) (ho : a.Has u o) (hash : UInt64) (place : Nat) :
    b.ahead u hash place = a.ahead u hash place := by
  rcases h.get? ho with he | ⟨c, c', hc, hc'⟩
  · rw [ahead, ahead, he]
  · simp only [ahead, hc, hc']

end Heap

namespace Cursor

variable {a b heap : Heap} {c c' : Cursor} {position p : Nat} {o : Object} {z : Yield}

/-- How many values a cursor of its own can still give, at most, as things are. -/
def left (heap : Heap) : Cursor → Nat
  | forward u _ position => heap.extent u - position
  | backward u position => min position (heap.extent u)
  | range _ _ remaining => remaining
  | entries d _ hash place done => if done then 0 else heap.ahead d hash place
  | members u hash place done => if done then 0 else heap.ahead u hash place
  | enumerate .. | zip .. => 0

/-- Whether a cursor of its own is at its end. -/
def AtEnd (heap : Heap) : Cursor → Prop
  | forward u _ position => heap.extent u ≤ position
  | backward _ position => position = 0
  | range _ _ remaining => remaining = 0
  | entries _ _ _ _ done | members _ _ _ done => done = true
  | enumerate .. | zip .. => False

theorem AtEnd.left_eq (h : c.AtEnd heap) : c.left heap = 0 := by
  cases c <;> simp only [AtEnd] at h <;> simp [left, h]

/-! ## Positions in sequences -/

/-- A position of a sequence is at its end exactly when there is no element. -/
theorem elementAt?_eq_none (ha : admits position o = true) :
    elementAt? position o = none ↔ Heap.sequenceLength o ≤ position := by
  cases o with
  | str t =>
    obtain ⟨cs, cs', rfl, rfl⟩ := admits_str.1 ha
    rw [elementAt?_str, Heap.sequenceLength, String.utf8ByteSize_ofList, String.utf8Len_append]
    cases cs' with
    | nil => simp
    | cons x cs' =>
      have := x.utf8Size_pos
      simp only [List.head?_cons, Option.map_some, reduceCtorEq, String.utf8Len_cons, false_iff]
      omega
  | list | tuple | bytes => simp [elementAt?, Heap.sequenceLength]
  | _ => simp [elementAt?, Heap.sequenceLength]

/-- A position of a text is not behind its end. -/
theorem le_of_admits {t : String} {hash? : Option UInt64}
    (ha : admits position (.str t hash?) = true) : position ≤ t.utf8ByteSize := by
  obtain ⟨cs, cs', rfl, rfl⟩ := admits_str.1 ha
  rw [String.utf8ByteSize_ofList, String.utf8Len_append]
  exact Nat.le_add_right _ _

theorem min_elementBefore? (ha : admits position o = true)
    (h : elementBefore? position o = some (z, p)) :
    min p (Heap.sequenceLength o) < min position (Heap.sequenceLength o) := by
  have hlt := elementBefore?_onward h
  cases o with
  | str t =>
    have := le_of_admits ha
    simp only [Heap.sequenceLength]
    omega
  | list items | tuple items | bytes items =>
    simp only [elementBefore?, Option.ite_none_left_eq_some] at h
    obtain ⟨hpos, h⟩ := h
    obtain ⟨e, he, heq⟩ := Option.map_eq_some_iff.1 h
    obtain ⟨-, rfl⟩ := Prod.mk.inj heq
    have := (Array.getElem?_eq_some_iff.1 he).1
    simp only [Heap.sequenceLength]
    omega
  | _ => cases h

/-! ## Steps -/

/-- A value that a cursor gives is one less. -/
theorem left_step (hc : c.Stands heap) (h : c.step heap = .ok (some z, c')) :
    c'.left heap < c.left heap := by
  cases c with
  | forward u k position =>
    obtain ⟨o, ho, h⟩ := Heap.bind_eq_ok.1 h
    obtain ⟨ha, h⟩ := Heap.unless_eq_ok.1 h
    rw [Heap.get_eq_ok] at ho
    rcases he : elementAt? position o with _ | ⟨y, p⟩ <;> rw [he] at h
    · cases h
    · obtain ⟨-, rfl⟩ := Prod.mk.inj (Heap.pure_eq_ok.1 h)
      have hsome := mt (elementAt?_eq_none ha).2 (by rw [he]; exact nofun)
      have hlt := elementAt?_onward he
      simp only [left, Heap.extent_eq ho]
      omega
  | backward u position =>
    obtain ⟨o, ho, h⟩ := Heap.bind_eq_ok.1 h
    obtain ⟨ha, h⟩ := Heap.unless_eq_ok.1 h
    rw [Heap.get_eq_ok] at ho
    rcases he : elementBefore? position o with _ | ⟨y, p⟩ <;> rw [he] at h
    · cases h
    · obtain ⟨-, rfl⟩ := Prod.mk.inj (Heap.pure_eq_ok.1 h)
      simp only [left, Heap.extent_eq ho]
      exact min_elementBefore? ha he
  | range n d remaining =>
    by_cases hr : remaining = 0 <;> simp only [step, hr, if_true, if_false] at h
    · cases h
    · obtain ⟨-, rfl⟩ := Prod.mk.inj (Heap.pure_eq_ok.1 h)
      exact Nat.sub_one_lt hr
  | entries d part hash place done =>
    cases done with
    | true => cases h
    | false =>
      obtain ⟨t, ht, h⟩ := Heap.bind_eq_ok.1 h
      rw [Heap.dict_eq_ok] at ht
      rcases he : t.nextFrom? hash place with _ | ⟨g, i, e⟩ <;> rw [he] at h
      · cases h
      · obtain ⟨-, rfl⟩ := Prod.mk.inj (Heap.pure_eq_ok.1 h)
        have := Table.rank_nextFrom? he
        have := Table.rank_le_length t g (i + 1)
        simp only [left, Bool.false_eq_true, if_false, Heap.ahead, ht]
        omega
  | members u hash place done =>
    cases done with
    | true => cases h
    | false =>
      obtain ⟨t, ht, h⟩ := Heap.bind_eq_ok.1 h
      rw [Heap.set_eq_ok] at ht
      rcases he : t.nextFrom? hash place with _ | ⟨g, i, e⟩ <;> rw [he] at h
      · cases h
      · obtain ⟨-, rfl⟩ := Prod.mk.inj (Heap.pure_eq_ok.1 h)
        have := Table.rank_nextFrom? he
        have := Table.rank_le_length t g (i + 1)
        simp only [left, Bool.false_eq_true, if_false, Heap.ahead, ht]
        omega
  | enumerate | zip => cases h

/-- A cursor of its own that gives none is at its end. -/
theorem atEnd_step (ho : c.Plain) (h : c.step heap = .ok (none, c')) : c'.AtEnd heap := by
  cases c with
  | forward u k position =>
    obtain ⟨o, ho, h⟩ := Heap.bind_eq_ok.1 h
    obtain ⟨ha, h⟩ := Heap.unless_eq_ok.1 h
    rw [Heap.get_eq_ok] at ho
    rcases he : elementAt? position o with _ | ⟨y, p⟩ <;> rw [he] at h
    · obtain ⟨-, rfl⟩ := Prod.mk.inj (Heap.pure_eq_ok.1 h)
      simp only [AtEnd, Heap.extent_eq ho]
      exact (elementAt?_eq_none ha).1 he
    · cases h
  | backward u position =>
    obtain ⟨o, -, h⟩ := Heap.bind_eq_ok.1 h
    obtain ⟨-, h⟩ := Heap.unless_eq_ok.1 h
    rcases he : elementBefore? position o with _ | ⟨y, p⟩ <;> rw [he] at h
    · obtain ⟨-, rfl⟩ := Prod.mk.inj (Heap.pure_eq_ok.1 h)
      exact Eq.refl 0
    · cases h
  | range n d remaining =>
    by_cases hr : remaining = 0 <;> simp only [step, hr, if_true, if_false] at h
    · obtain ⟨-, rfl⟩ := Prod.mk.inj (Heap.pure_eq_ok.1 h)
      exact Eq.refl 0
    · cases h
  | entries d part hash place done =>
    cases done with
    | true =>
      obtain ⟨-, rfl⟩ := Prod.mk.inj (Heap.pure_eq_ok.1 h)
      exact Eq.refl true
    | false =>
      obtain ⟨t, -, h⟩ := Heap.bind_eq_ok.1 h
      rcases he : t.nextFrom? hash place with _ | ⟨g, i, e⟩ <;> rw [he] at h
      · obtain ⟨-, rfl⟩ := Prod.mk.inj (Heap.pure_eq_ok.1 h)
        exact Eq.refl true
      · cases h
  | members u hash place done =>
    cases done with
    | true =>
      obtain ⟨-, rfl⟩ := Prod.mk.inj (Heap.pure_eq_ok.1 h)
      exact Eq.refl true
    | false =>
      obtain ⟨t, -, h⟩ := Heap.bind_eq_ok.1 h
      rcases he : t.nextFrom? hash place with _ | ⟨g, i, e⟩ <;> rw [he] at h
      · obtain ⟨-, rfl⟩ := Prod.mk.inj (Heap.pure_eq_ok.1 h)
        exact Eq.refl true
      · cases h
  | enumerate | zip => exact ho.elim

/-! ## Moves -/

theorem ahead_le {heap : Heap} {u : Handle} {hash hash' : UInt64} {place place' : Nat}
    (h : hash < hash' ∨ hash' = hash ∧ place ≤ place') :
    heap.ahead u hash' place' ≤ heap.ahead u hash place := by
  unfold Heap.ahead
  split
  · exact Nat.sub_le_sub_left (Table.rank_mono h) _
  · exact Nat.sub_le_sub_left (Table.rank_mono h) _
  · exact Nat.le_refl 0

/-- Where a cursor has moved on, no more is left. -/
theorem Onward.left_le (h : c.Onward c') : c'.left heap ≤ c.left heap := by
  cases h.alike with
  | forward =>
    obtain ⟨rfl, rfl, hp⟩ := h
    exact Nat.sub_le_sub_left hp _
  | backward =>
    obtain ⟨rfl, hp⟩ := h
    simp only [left]
    omega
  | range => exact h
  | entries =>
    obtain ⟨rfl, rfl, rfl | ⟨rfl, h⟩⟩ := h
    · exact Nat.zero_le _
    · simp only [left, Bool.false_eq_true, if_false]
      split
      · exact Nat.zero_le _
      · exact ahead_le h
  | members =>
    obtain ⟨rfl, rfl | ⟨rfl, h⟩⟩ := h
    · exact Nat.zero_le _
    · simp only [left, Bool.false_eq_true, if_false]
      split
      · exact Nat.zero_le _
      · exact ahead_le h
  | enumerate | zip => exact Nat.le_refl 0

/-- Iteration leaves a cursor what it had left. -/
theorem left_moved (hm : a.Moved b) (hc : ∀ g ∈ c.children, ∃ o, a.Has g o) :
    c.left b = c.left a := by
  cases c with
  | forward u | backward u =>
    obtain ⟨o, ho⟩ := hc u (List.mem_singleton_self u)
    simp only [left, hm.extent_eq ho]
  | entries u | members u =>
    obtain ⟨o, ho⟩ := hc u (List.mem_singleton_self u)
    simp only [left, hm.ahead_eq ho]
  | range | enumerate | zip => rfl

/-- A cursor stays at its end, unless it runs forward over a sequence that has become longer. -/
theorem AtEnd.onward (h : c.AtEnd a) (hc : c.Onward c')
    (hext : ∀ u k position, c = .forward u k position → b.extent u ≤ a.extent u) :
    c'.AtEnd b := by
  cases hc.alike with
  | forward =>
    obtain ⟨rfl, rfl, hp⟩ := hc
    exact (hext _ _ _ rfl).trans (Nat.le_trans h hp)
  | backward _ _ p =>
    obtain rfl : p = 0 := h
    exact Nat.le_zero.1 hc.2
  | range _ _ _ _ m =>
    obtain rfl : m = 0 := h
    exact Nat.le_zero.1 hc
  | entries _ _ _ _ _ _ _ _ done =>
    obtain rfl : done = true := h
    exact hc.2.2.resolve_right fun hd => Bool.noConfusion hd.1
  | members _ _ _ _ _ _ done =>
    obtain rfl : done = true := h
    exact hc.2.resolve_right fun hd => Bool.noConfusion hd.1
  | enumerate | zip => exact h.elim

end Cursor

/-! ## Iterators -/

/-- The cursor of an iterator has a property, or that of one it draws on, which ends it. -/
inductive Heap.LimitedBy (heap : Heap) (P : Cursor → Prop) : Handle → Prop
  | own {it : Handle} {c : Cursor} : heap.get? it = some (.iter c) → c.Plain → P c →
      LimitedBy heap P it
  | counted {it inner : Handle} {k : Int64} : heap.get? it = some (.iter (.enumerate inner k)) →
      LimitedBy heap P inner → LimitedBy heap P it
  | left {it left right : Handle} : heap.get? it = some (.iter (.zip left right)) →
      LimitedBy heap P left → LimitedBy heap P it
  | right {it left right : Handle} : heap.get? it = some (.iter (.zip left right)) →
      LimitedBy heap P right → LimitedBy heap P it

open Relation (ReflTransGen)

/-- What limits an iterator limits it later, when the cursors that it draws on moved on. -/
theorem Heap.LimitedBy.mono {a b : Heap} {P Q : Cursor → Prop} {it : Handle}
    (h : a.LimitedBy P it)
    (hm : ∀ w c, ReflTransGen a.Draws it w → a.get? w = some (.iter c) →
      ∃ c', b.get? w = some (.iter c') ∧ c.Onward c' ∧ (P c → Q c')) : b.LimitedBy Q it := by
  induction h with
  | own hit ho hP =>
    obtain ⟨c', hc', hon, hPQ⟩ := hm _ _ .refl hit
    exact .own hc' (hon.plain ho) (hPQ hP)
  | counted hit _ ih =>
    obtain ⟨c', hc', hon, -⟩ := hm _ _ .refl hit
    cases c' <;> simp only [Cursor.Onward] at hon
    refine .counted hc' (hon ▸ ih fun w c hw => hm w c (.head ⟨_, hit, ?_⟩ hw))
    exact List.mem_singleton_self _
  | left hit _ ih =>
    obtain ⟨c', hc', hon, -⟩ := hm _ _ .refl hit
    cases c' <;> simp only [Cursor.Onward] at hon
    refine .left hc' (hon.1 ▸ ih fun w c hw => hm w c (.head ⟨_, hit, ?_⟩ hw))
    exact List.mem_cons_self
  | right hit _ ih =>
    obtain ⟨c', hc', hon, -⟩ := hm _ _ .refl hit
    cases c' <;> simp only [Cursor.Onward] at hon
    refine .right hc' (hon.2 ▸ ih fun w c hw => hm w c (.head ⟨_, hit, ?_⟩ hw))
    exact List.mem_cons_of_mem _ List.mem_cons_self

namespace Space.Firm

variable {s s' : Space} {it v : Handle} {c c' : Cursor} {n m : Nat} {r : Option Handle}

theorem live_draws (i : s.Firm) (hit : s.heap.isLive it = true)
    (h : ReflTransGen s.heap.Draws it v) : s.heap.isLive v = true := by
  induction h with
  | refl => exact hit
  | tail _ hd ih => exact i.sound.live_restsOn ih hd.restsOn

theorem has_child (i : s.Firm) (hit : s.heap.isLive it = true)
    (hget : s.heap.get? it = some (.iter c)) : ∀ g ∈ c.children, ∃ o, s.heap.Has g o := by
  intro g hg
  have hlive := i.sound.live_child hit hget hg
  obtain ⟨o, ho, -⟩ := i.sound.get? hlive
  exact ⟨o, hlive, ho⟩

/-- What limits an iterator limits it after other iterators have moved on. -/
theorem limitedBy_moved (i : s.Firm) (hit : s.heap.isLive it = true)
    (hm : s.heap.Moved s'.heap) {P Q : Cursor → Prop}
    (hPQ : ∀ c c', (∀ g ∈ c.children, ∃ o, s.heap.Has g o) → c.Onward c' → P c → Q c')
    (h : s.heap.LimitedBy P it) : s'.heap.LimitedBy Q it := by
  refine h.mono fun w c hw hc => ?_
  have hlive := i.live_draws hit hw
  obtain ⟨c', hc', hon⟩ := hm.iter ⟨hlive, hc⟩
  exact ⟨c', hc'.2, hon, hPQ c c' (i.has_child hlive hc) hon⟩

theorem left_moved (i : s.Firm) (hit : s.heap.isLive it = true) (hm : s.heap.Moved s'.heap)
    (h : s.heap.LimitedBy (fun c => c.left s.heap ≤ m) it) :
    s'.heap.LimitedBy (fun c => c.left s'.heap ≤ m) it := by
  refine i.limitedBy_moved hit hm (fun c c' hc hon hle => ?_) h
  refine hon.left_le.trans ?_
  rw [Cursor.left_moved hm hc]
  exact hle

theorem atEnd_moved (i : s.Firm) (hit : s.heap.isLive it = true) (hm : s.heap.Moved s'.heap)
    (h : s.heap.LimitedBy (Cursor.AtEnd s.heap) it) :
    s'.heap.LimitedBy (Cursor.AtEnd s'.heap) it := by
  refine i.limitedBy_moved hit hm (fun c c' hc hon hend => ?_) h
  refine hend.onward hon fun u k position he => ?_
  subst he
  obtain ⟨o, ho⟩ := hc u (List.mem_singleton_self u)
  rw [hm.extent_eq ho]

/-- What limits an iterator that does not draw on another one is its own cursor. -/
theorem of_limitedBy_own {heap : Heap} {P : Cursor → Prop}
    (hget : heap.get? it = some (.iter c)) (ho : c.Plain) (h : heap.LimitedBy P it) : P c := by
  cases h with
  | own hget' _ hP =>
    obtain rfl := Object.iter.inj (Option.some.inj (hget.symm.trans hget'))
    exact hP
  | counted hget' | left hget' | right hget' =>
    obtain rfl := Object.iter.inj (Option.some.inj (hget.symm.trans hget'))
    exact ho.elim

theorem of_limitedBy_counted {heap : Heap} {P : Cursor → Prop} {inner : Handle} {k : Int64}
    (hget : heap.get? it = some (.iter (.enumerate inner k))) (h : heap.LimitedBy P it) :
    heap.LimitedBy P inner := by
  cases h with
  | own hget' ho =>
    obtain rfl := Object.iter.inj (Option.some.inj (hget.symm.trans hget'))
    exact ho.elim
  | counted hget' h =>
    obtain ⟨rfl, rfl⟩ := Cursor.enumerate.inj (Object.iter.inj
      (Option.some.inj (hget.symm.trans hget')))
    exact h
  | left hget' | right hget' => cases hget.symm.trans hget'

theorem of_limitedBy_zip {heap : Heap} {P : Cursor → Prop} {left right : Handle}
    (hget : heap.get? it = some (.iter (.zip left right))) (h : heap.LimitedBy P it) :
    heap.LimitedBy P left ∨ heap.LimitedBy P right := by
  cases h with
  | own hget' ho =>
    obtain rfl := Object.iter.inj (Option.some.inj (hget.symm.trans hget'))
    exact ho.elim
  | counted hget' => cases hget.symm.trans hget'
  | left hget' h =>
    obtain ⟨rfl, rfl⟩ := Cursor.zip.inj (Object.iter.inj (Option.some.inj (hget.symm.trans hget')))
    exact .inl h
  | right hget' h =>
    obtain ⟨rfl, rfl⟩ := Cursor.zip.inj (Object.iter.inj (Option.some.inj (hget.symm.trans hget')))
    exact .inr h

/-- **Values left.** An iterator that is limited to `m` values gives none, or has fewer left. -/
theorem limited_nextWithin (i : s.Firm) (hit : s.heap.isLive it = true)
    (h : nextWithin n it s = .ok (some v) s')
    (hl : s.heap.LimitedBy (fun c => c.left s.heap ≤ m) it) :
    ∃ k, m = k + 1 ∧ s'.heap.LimitedBy (fun c => c.left s'.heap ≤ k) it := by
  induction n generalizing s it v s' with
  | zero => cases h
  | succ n ih =>
    cases i.nextWithin_cases hit h with
    | @own c c' y hget ho hstep f =>
      obtain ⟨z, rfl⟩ := Option.isSome_iff_exists.1 f.isSome.symm
      have hon := Cursor.onward_step hstep
      have hless := Cursor.left_step (i.standing.cursors it c ⟨hit, hget⟩) hstep
      have hle := of_limitedBy_own hget ho hl
      refine ⟨m - 1, by omega, .own f.self.2 (hon.plain ho) ?_⟩
      rw [Cursor.left_moved f.moved (hon.children_eq ▸ i.has_child hit hget)]
      omega
    | @counted inner k k' q s₁ hget hinner hq l f =>
      obtain ⟨w, rfl⟩ : ∃ w, q = some w :=
        Option.isSome_iff_exists.1 (by simpa using f.isSome.symm)
      obtain ⟨j, rfl, hj⟩ := ih i hinner hq (of_limitedBy_counted hget hl)
      exact ⟨j, rfl, .counted f.self.2 (l.holds.left_moved (l.ok_mono _ hinner) f.moved hj)⟩
    | ended _ _ _ _ f => exact absurd f.isSome nofun
    | @paired left right a q s₁ s₂ hget hleft hright hq l₁ hq' l₂ f =>
      obtain ⟨w, rfl⟩ : ∃ w, q = some w :=
        Option.isSome_iff_exists.1 (by simpa using f.isSome.symm)
      have hright₁ := l₁.ok_mono _ hright
      rcases of_limitedBy_zip hget hl with hl | hl
      · obtain ⟨j, rfl, hj⟩ := ih i hleft hq hl
        have hm := (l₁.holds.nextWithin_later hright₁ hq').2.2.trans f.moved
        exact ⟨j, rfl, .left f.self.2 (l₁.holds.left_moved (l₁.ok_mono _ hleft) hm hj)⟩
      · have hm := (i.nextWithin_later hleft hq).2.2
        obtain ⟨j, rfl, hj⟩ := ih l₁.holds hright₁ hq' (i.left_moved hright hm hl)
        exact ⟨j, rfl, .right f.self.2 (l₂.holds.left_moved (l₂.ok_mono _ hright₁) f.moved hj)⟩

/-- **The end.** An iterator that gives none is limited by a cursor at its end. -/
theorem atEnd_of_nextWithin (i : s.Firm) (hit : s.heap.isLive it = true)
    (h : nextWithin n it s = .ok none s') :
    s'.heap.LimitedBy (Cursor.AtEnd s'.heap) it := by
  induction n generalizing s it s' with
  | zero => cases h
  | succ n ih =>
    cases i.nextWithin_cases hit h with
    | @own c c' y hget ho hstep f =>
      obtain rfl : y = none := Option.isNone_iff_eq_none.1 (by simpa using f.isSome.symm)
      have hon := Cursor.onward_step hstep
      refine .own f.self.2 (hon.plain ho) ?_
      refine (Cursor.atEnd_step ho hstep).onward (.refl c') fun u k position he => ?_
      obtain ⟨o, ho⟩ := i.has_child hit hget u (by
        rw [← hon.children_eq, he]
        exact List.mem_singleton_self u)
      rw [f.moved.extent_eq ho]
    | @counted inner k k' q s₁ hget hinner hq l f =>
      obtain rfl : q = none := Option.isNone_iff_eq_none.1 (by simpa using f.isSome.symm)
      exact .counted f.self.2 (l.holds.atEnd_moved (l.ok_mono _ hinner) f.moved (ih i hinner hq))
    | @ended left right s₁ hget hleft hq l f =>
      exact .left f.self.2 (l.holds.atEnd_moved (l.ok_mono _ hleft) f.moved (ih i hleft hq))
    | @paired left right a q s₁ s₂ hget hleft hright hq l₁ hq' l₂ f =>
      obtain rfl : q = none := Option.isNone_iff_eq_none.1 (by simpa using f.isSome.symm)
      have hright₁ := l₁.ok_mono _ hright
      exact .right f.self.2 (l₂.holds.atEnd_moved (l₂.ok_mono _ hright₁) f.moved
        (ih l₁.holds hright₁ hq'))

theorem limited_next (i : s.Firm) (hit : s.heap.isLive it = true)
    (h : next it s = .ok (some v) s') (hl : s.heap.LimitedBy (fun c => c.left s.heap ≤ m) it) :
    ∃ k, m = k + 1 ∧ s'.heap.LimitedBy (fun c => c.left s'.heap ≤ k) it := by
  rw [next, ask_bind_of_ok (Heap.depth_eq_ok.2 rfl)] at h
  exact i.limited_nextWithin hit h hl

theorem atEnd_of_next (i : s.Firm) (hit : s.heap.isLive it = true)
    (h : next it s = .ok none s') : s'.heap.LimitedBy (Cursor.AtEnd s'.heap) it := by
  rw [next, ask_bind_of_ok (Heap.depth_eq_ok.2 rfl)] at h
  exact i.atEnd_of_nextWithin hit h

end Space.Firm

end ObjectSpace
