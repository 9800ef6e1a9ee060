import ObjectSpace.Proofs.Table.Cursors
import ObjectSpace.Proofs.Value.Arrivals

/-!
# Traversing a table that changes

An iterator over a table has a position, which is a hash and a place under it, and gives the first
entry there or behind. In between entries come and go, and with them the places of the other entries
of their hash.

The invariant is about what the position has passed (`Passed`). An entry that was passed stays
passed as long as it is in the table: nothing under its hash comes in before it, and what is taken
away before it only brings it forward (`Passed.follows`). An entry that was not passed can be
skipped when something before it is taken away, and only then (`Passed.of_append`).

**Theorems.** In a traversal the hashes of the entries that are given ascend (`Traversal.ascends`).
An entry that is there for a stretch of it is given at most once then (`Traversal.count_le_one`). An
entry that is there all the time is given when it is passed, if nothing under its hash is taken away
(`Traversal.given_of_passed`).
-/

namespace ObjectSpace

variable {l m before now : List (UInt64 × Handle)} {hash hash' : UInt64} {place place' : Nat}
  {k : Handle} {e : UInt64 × Handle}

/-! ## Positions -/

/-- An entry stands before a position: its hash is smaller, or its place is. -/
def Passed (l : List (UInt64 × Handle)) (hash : UInt64) (place : Nat) (e : UInt64 × Handle) :
    Prop :=
  e.1 < hash ∨ e.1 = hash ∧ e.2 ∈ (under l hash).take place

theorem not_passed_start (l : List (UInt64 × Handle)) (e : UInt64 × Handle) :
    ¬ Passed l 0 0 e := by
  rintro (h | ⟨-, h⟩)
  · exact UInt64.not_lt.2 UInt64.zero_le h
  · rw [List.take_zero] at h
    cases h

/-- The first entry at a position or behind it, with its own position. -/
structure IsNext (l : List (UInt64 × Handle)) (hash : UInt64) (place : Nat) (hash' : UInt64)
    (place' : Nat) (k : Handle) : Prop where
  stands : (under l hash')[place']? = some k
  onward : hash' = hash ∧ place' = place ∨ hash < hash'
  first : ∀ e ∈ l, Passed l hash' place' e → Passed l hash place e

theorem mem_take_of_sublist {α : Type} {kept l : List α} {x : α} {n : Nat} (h : kept.Sublist l)
    (hl : l.Nodup) (hx : x ∈ kept) (hm : x ∈ l.take n) : x ∈ kept.take n := by
  induction h generalizing n with
  | slnil => exact hm
  | @cons kept l y h ih =>
    rw [List.nodup_cons] at hl
    cases n with
    | zero => cases hm
    | succ n =>
      rcases List.mem_cons.1 hm with rfl | hm
      · exact absurd (h.mem hx) hl.1
      · exact (List.take_sublist_take_left (Nat.le_succ n)).mem (ih hl.2 hx hm)
  | @cons_cons kept l y h ih =>
    rw [List.nodup_cons] at hl
    cases n with
    | zero => cases hm
    | succ n =>
      rcases List.mem_cons.1 hm with rfl | hm
      · exact List.mem_cons_self
      · rcases List.mem_cons.1 hx with rfl | hx
        · exact List.mem_cons_self
        · exact List.mem_cons_of_mem y (ih hl.2 hx hm)

namespace Passed

theorem mono (h : Passed l hash place e)
    (hle : hash < hash' ∨ hash' = hash ∧ place ≤ place') : Passed l hash' place' e := by
  rcases hle with hlt | ⟨rfl, hle⟩
  · refine .inl ?_
    rcases h with h | ⟨h, -⟩
    · exact UInt64.lt_trans h hlt
    · exact h ▸ hlt
  · exact h.imp_right fun ⟨heq, hm⟩ => ⟨heq, (List.take_sublist_take_left hle).mem hm⟩

theorem follows (h : Passed before hash place e) (hbefore : before.Nodup)
    (f : Follows (under before e.1) (under now e.1)) (he : e ∈ now) :
    Passed now hash place e := by
  refine h.imp_right ?_
  rintro ⟨rfl, hm⟩
  refine ⟨rfl, ?_⟩
  obtain ⟨kept, new, hnow, hkept, hnew⟩ := f
  have hmem : e.2 ∈ kept := by
    have he : e.2 ∈ under now e.1 := mem_under.2 he
    rw [hnow] at he
    exact (List.mem_append.1 he).resolve_right fun hn => hnew _ hn (List.mem_of_mem_take hm)
  have htake := mem_take_of_sublist hkept (nodup_under hbefore e.1) hmem hm
  rw [hnow, List.take_append]
  exact List.mem_append_left _ htake

/-- Where entries only come in behind it, what is passed was passed. -/
theorem of_append {new : List Handle} (h : Passed now hash place e)
    (happend : under now e.1 = under before e.1 ++ new) (hnow : now.Nodup) (he : e ∈ before) :
    Passed before hash place e := by
  refine h.imp_right ?_
  rintro ⟨rfl, hm⟩
  refine ⟨rfl, ?_⟩
  have hnodup := nodup_under hnow e.1
  rw [happend] at hm hnodup
  rw [List.take_append] at hm
  refine (List.mem_append.1 hm).resolve_right fun hn => ?_
  exact (List.nodup_append.1 hnodup).2.2 _ (mem_under.2 he) _ (List.mem_of_mem_take hn) rfl

end Passed

namespace IsNext

variable (h : IsNext l hash place hash' place' k)

include h

theorem le : hash < hash' ∨ hash' = hash ∧ place ≤ place' + 1 := by
  rcases h.onward with ⟨rfl, rfl⟩ | h
  · exact .inr ⟨rfl, Nat.le_succ _⟩
  · exact .inl h

theorem not_passed (hl : l.Nodup) : ¬ Passed l hash place (hash', k) := by
  obtain ⟨hlt, hget⟩ := List.getElem?_eq_some_iff.1 h.stands
  rintro (hless | ⟨heq, hm⟩)
  · rcases h.onward with ⟨rfl, -⟩ | hgt
    · exact UInt64.lt_irrefl _ hless
    · exact UInt64.lt_irrefl _ (UInt64.lt_trans hless hgt)
  · rcases h.onward with ⟨rfl, rfl⟩ | hgt
    · obtain ⟨i, hi, hik⟩ := List.mem_iff_getElem.1 hm
      rw [List.length_take] at hi
      rw [List.getElem_take] at hik
      have := (nodup_under hl hash').getElem_inj_iff.1 (hik.trans hget.symm)
      omega
    · exact UInt64.lt_irrefl _ (heq ▸ hgt)

/-- Behind the next entry, what is passed is what was passed, and it. -/
theorem passed_iff (he : e ∈ l) :
    Passed l hash' (place' + 1) e ↔ e = (hash', k) ∨ Passed l hash place e := by
  constructor
  · rintro (hlt | ⟨heq, hm⟩)
    · exact .inr (h.first e he (.inl hlt))
    · rw [List.take_add_one, h.stands] at hm
      rcases List.mem_append.1 hm with hm | hm
      · exact .inr (h.first e he (.inr ⟨heq, hm⟩))
      · exact .inl (Prod.ext heq (by simpa using hm))
  · rintro (rfl | hpassed)
    · refine .inr ⟨rfl, List.mem_iff_getElem?.2 ⟨place', ?_⟩⟩
      rw [List.getElem?_take_of_lt (Nat.lt_succ_self _), h.stands]
    · exact hpassed.mono h.le

end IsNext

/-! ## Positions of a table -/

namespace Table

variable {α : Type} {t : Table α} {keyOf : α → Handle} {x : α}

theorem under_filings (keyOf : α → Handle) (t : Table α) (hash : UInt64) :
    under (t.filings keyOf) hash = (t.bucket hash).map keyOf := by
  rw [under, filings, bucket_eq, List.filter_map, List.map_map, List.map_map]
  rfl

theorem passed_of_le (hbucket : (t.bucket hash).length ≤ place) (he : e ∈ t.filings keyOf)
    (hle : e.1 ≤ hash) : Passed (t.filings keyOf) hash place e := by
  by_cases heq : e.1 = hash
  · refine .inr ⟨heq, ?_⟩
    rw [List.take_of_length_le (by rwa [under_filings, List.length_map]), ← heq]
    exact mem_under.2 he
  · exact .inl (UInt64.lt_of_le_of_ne hle heq)

theorem isNext_of_nextFrom? (h : t.nextFrom? hash place = some (hash', place', x)) :
    IsNext (t.filings keyOf) hash place hash' place' (keyOf x) := by
  refine ⟨?_, nextFrom?_onward h, fun e he hpassed => ?_⟩
  · rw [under_filings, List.getElem?_map, bucket_of_nextFrom? h, Option.map_some]
  · rcases nextFrom?_place h with ⟨rfl, rfl, -⟩ | ⟨hle, rfl, r, hr⟩
    · exact hpassed
    · have hlt : e.1 < hash' := hpassed.resolve_right fun ⟨_, hm⟩ => by
        rw [List.take_zero] at hm
        cases hm
      obtain ⟨f, hf, rfl⟩ := List.mem_map.1 he
      refine passed_of_le hle he (UInt64.not_lt.1 fun hgt => ?_)
      exact UInt64.not_lt.2 (head_le hr (List.mem_filter.2 ⟨hf, decide_eq_true hgt⟩)) hlt

theorem passed_of_nextFrom?_eq_none (h : t.nextFrom? hash place = none)
    (he : e ∈ t.filings keyOf) : Passed (t.filings keyOf) hash place e := by
  obtain ⟨hle, hmax⟩ := le_of_nextFrom?_eq_none h
  obtain ⟨f, hf, rfl⟩ := List.mem_map.1 he
  exact passed_of_le hle he (hmax f hf)

end Table

/-! ## Traversals -/

/-- What a table has filed at a moment, and the entry that an iterator gave just then, if it did. -/
structure Moment where
  filed : List (UInt64 × Handle)
  given : Option (UInt64 × Handle)

/-- The entries that were given, the latest first. -/
def givenIn (log : List Moment) : List (UInt64 × Handle) := log.filterMap (·.given)

/-- From one moment to the next, nothing under a hash is taken away. The latest moment is the first
of the list. -/
def Undisturbed (hash : UInt64) (log : List Moment) : Prop :=
  log.IsChain fun now before => ∀ k, (hash, k) ∈ before.filed → (hash, k) ∈ now.filed

/-- A table changes, and an iterator that starts with it gives one entry after the other. Listed are
the last moment and those before it, the latest first, and where the iterator stands. -/
inductive Traversal : Moment → List Moment → UInt64 → Nat → Prop
  | start {l : List (UInt64 × Handle)} : l.Nodup → Traversal ⟨l, none⟩ [] 0 0
  | change {m : Moment} {past : List Moment} {hash : UInt64} {place : Nat}
      {l : List (UInt64 × Handle)} : Traversal m past hash place → l.Nodup →
      (∀ g, Follows (under m.filed g) (under l g)) → Traversal ⟨l, none⟩ (m :: past) hash place
  | give {m : Moment} {past : List Moment} {hash hash' : UInt64} {place place' : Nat} {k : Handle} :
      Traversal m past hash place → IsNext m.filed hash place hash' place' k →
      Traversal ⟨m.filed, some (hash', k)⟩ (m :: past) hash' (place' + 1)

namespace Traversal

variable {moment : Moment} {past : List Moment}

theorem nodup (t : Traversal moment past hash place) : moment.filed.Nodup := by
  induction t with
  | start h | change _ h => exact h
  | give _ _ ih => exact ih

theorem ascends (t : Traversal moment past hash place) :
    ((givenIn (moment :: past)).Pairwise fun later earlier => earlier.1 ≤ later.1) ∧
      ∀ e ∈ givenIn (moment :: past), e.1 ≤ hash := by
  induction t with
  | start => exact ⟨.nil, List.forall_mem_nil _⟩
  | change _ _ _ ih => exact ih
  | @give m past hash hash' place place' k t h ih =>
    have hle : hash ≤ hash' := by
      rcases h.onward with ⟨rfl, -⟩ | hlt
      · exact UInt64.le_refl _
      · exact UInt64.le_of_lt hlt
    have hpast : ∀ e ∈ givenIn (m :: past), e.1 ≤ hash' := fun e he =>
      UInt64.le_trans (ih.2 e he) hle
    exact ⟨List.pairwise_cons.2 ⟨hpast, ih.1⟩, List.forall_mem_cons.2 ⟨UInt64.le_refl _, hpast⟩⟩

/-- An entry that is there for the last stretch of a traversal is given at most once in it, and then
it is passed. -/
theorem count_recent (t : Traversal moment past hash place) {recent : List Moment}
    (hrecent : recent <+: moment :: past) (he : ∀ m ∈ recent, e ∈ m.filed) :
    (givenIn recent).count e = 0 ∨
      (givenIn recent).count e = 1 ∧ Passed moment.filed hash place e := by
  induction t generalizing recent with
  | start =>
    obtain rfl | ⟨rest, rfl, hrest⟩ := List.prefix_cons_iff.1 hrecent
    · exact .inl rfl
    · rw [List.prefix_nil.1 hrest]
      exact .inl rfl
  | @change m past hash place l t hl f ih =>
    obtain rfl | ⟨rest, rfl, hrest⟩ := List.prefix_cons_iff.1 hrecent
    · exact .inl rfl
    · rw [List.forall_mem_cons] at he
      exact (ih hrest he.2).imp_right fun ⟨hcount, hpassed⟩ =>
        ⟨hcount, hpassed.follows t.nodup (f e.1) he.1⟩
  | @give m past hash hash' place place' k t h ih =>
    obtain rfl | ⟨rest, rfl, hrest⟩ := List.prefix_cons_iff.1 hrecent
    · exact .inl rfl
    rw [List.forall_mem_cons] at he
    have hcons : givenIn (⟨m.filed, some (hash', k)⟩ :: rest) = (hash', k) :: givenIn rest :=
      rfl
    rw [hcons, List.count_cons, h.passed_iff he.1]
    rcases ih hrest he.2 with hcount | ⟨hcount, hpassed⟩
    · by_cases heq : e = (hash', k)
      · subst heq
        exact .inr ⟨by simp [hcount], .inl rfl⟩
      · exact .inl (by simp [hcount, Ne.symm heq])
    · -- what was passed is not given again
      have heq : (hash', k) ≠ e := fun heq => h.not_passed t.nodup (heq ▸ hpassed)
      exact .inr ⟨by simp [hcount, heq], .inr hpassed⟩

theorem of_suffix (t : Traversal moment past hash place) {now : Moment} {earlier : List Moment}
    (h : now :: earlier <:+ moment :: past) :
    ∃ hash place, Traversal now earlier hash place := by
  induction t with
  | start hl =>
    rcases List.suffix_cons_iff.1 h with h | h
    · obtain ⟨rfl, rfl⟩ := List.cons.inj h
      exact ⟨_, _, .start hl⟩
    · cases List.suffix_nil.1 h
  | change t hl f ih =>
    rcases List.suffix_cons_iff.1 h with h | h
    · obtain ⟨rfl, rfl⟩ := List.cons.inj h
      exact ⟨_, _, .change t hl f⟩
    · exact ih h
  | give t hnext ih =>
    rcases List.suffix_cons_iff.1 h with h | h
    · obtain ⟨rfl, rfl⟩ := List.cons.inj h
      exact ⟨_, _, .give t hnext⟩
    · exact ih h

/-- **At most once.** An entry that is there for a stretch of a traversal is given at most once in
it. -/
theorem count_le_one (t : Traversal moment past hash place) {stretch : List Moment}
    (hstretch : stretch <:+: moment :: past) (he : ∀ m ∈ stretch, e ∈ m.filed) :
    (givenIn stretch).count e ≤ 1 := by
  obtain ⟨later, older, hlog⟩ := hstretch
  cases stretch with
  | nil => exact Nat.zero_le 1
  | cons now stretch =>
    have hsuffix : now :: (stretch ++ older) <:+ moment :: past :=
      ⟨later, by rw [← hlog, List.append_assoc, List.cons_append]⟩
    obtain ⟨_, _, t⟩ := t.of_suffix hsuffix
    rcases t.count_recent (List.prefix_append (now :: stretch) older) he with hcount | ⟨hcount, -⟩
    · exact hcount ▸ Nat.zero_le 1
    · exact hcount ▸ Nat.le_refl 1

/-- What is passed has been given, if it was there all the time and nothing under its hash was taken
away. -/
theorem given_of_passed (t : Traversal moment past hash place)
    (he : ∀ m ∈ moment :: past, e ∈ m.filed) (hund : Undisturbed e.1 (moment :: past))
    (hpassed : Passed moment.filed hash place e) : e ∈ givenIn (moment :: past) := by
  induction t with
  | @start l => exact absurd hpassed (not_passed_start l e)
  | @change m past hash place l t hl f ih =>
    rw [List.forall_mem_cons] at he
    obtain ⟨hstep, hpast⟩ := List.isChain_cons_cons.1 hund
    obtain ⟨new, hnew⟩ := (f e.1).eq_append (nodup_under t.nodup e.1) fun k hk =>
      mem_under.2 (hstep k (mem_under.1 hk))
    exact ih he.2 hpast (hpassed.of_append hnew hl (he.2 m List.mem_cons_self))
  | @give m past hash hash' place place' k t h ih =>
    rw [List.forall_mem_cons] at he
    rcases (h.passed_iff he.1).1 hpassed with rfl | hpassed
    · exact List.mem_cons_self
    · exact List.mem_cons_of_mem _ (ih he.2 (List.isChain_cons_cons.1 hund).2 hpassed)

/-- **Exactly once.** Where everything is passed, every entry was given once that was there all the
time, if nothing under its hash was taken away. -/
theorem count_eq_one (t : Traversal moment past hash place)
    (hend : ∀ e ∈ moment.filed, Passed moment.filed hash place e)
    (he : ∀ m ∈ moment :: past, e ∈ m.filed) (hund : Undisturbed e.1 (moment :: past)) :
    (givenIn (moment :: past)).count e = 1 := by
  have hpassed := hend e (he moment List.mem_cons_self)
  have hpos := List.count_pos_iff.2 (t.given_of_passed he hund hpassed)
  exact Nat.le_antisymm (t.count_le_one (List.infix_refl _) he) hpos

end Traversal

end ObjectSpace
