import ObjectSpace.Proofs.Table.Entries
import ObjectSpace.Proofs.Value.Filed

/-!
# In which order entries came

A table has its entries in ascending order of hash, and those of one hash in the order in which they
came. What came when is told by what was filed at one moment after the other (`arrivals`): what was
not there a moment ago comes last.

**Theorem (`Came.eq_mergeSort`).** If under every hash some entries stay, in their order, and
behind them there are new ones (`Follows`), then what is filed at last is the stable sort by hash of
what came. `Change.follows` says that every change of a table is so.
-/

namespace ObjectSpace

/-! ## What stands under a hash -/

section Under

variable {α : Type} {l m : List (UInt64 × α)} {hash : UInt64} {x : α}

/-- What stands under a hash, in order. -/
def under (l : List (UInt64 × α)) (hash : UInt64) : List α :=
  (l.filter (·.1 = hash)).map (·.2)

theorem under_append (l m : List (UInt64 × α)) (hash : UInt64) :
    under (l ++ m) hash = under l hash ++ under m hash := by
  rw [under, List.filter_append, List.map_append]
  rfl

theorem under_cons_self (hash : UInt64) (x : α) (l : List (UInt64 × α)) :
    under ((hash, x) :: l) hash = x :: under l hash := by
  rw [under, List.filter_cons_of_pos (by simp)]
  rfl

theorem under_cons_ne {e : UInt64 × α} (h : e.1 ≠ hash) : under (e :: l) hash = under l hash := by
  rw [under, List.filter_cons_of_neg (by simpa using h)]
  rfl

theorem mem_under : x ∈ under l hash ↔ (hash, x) ∈ l := by
  simp only [under, List.mem_map, List.mem_filter, decide_eq_true_eq]
  constructor
  · rintro ⟨⟨h, y⟩, ⟨he, rfl⟩, rfl⟩
    exact he
  · exact fun he => ⟨(hash, x), ⟨he, rfl⟩, rfl⟩

theorem under_sublist (h : l.Sublist m) (hash : UInt64) : (under l hash).Sublist (under m hash) :=
  (h.filter _).map _

theorem nodup_under (h : l.Nodup) (hash : UInt64) : (under l hash).Nodup := by
  refine (List.nodup_map_iff_inj_on (h.filter _)).2 fun e he f hf hef => ?_
  have he := of_decide_eq_true (List.mem_filter.1 he).2
  have hf := of_decide_eq_true (List.mem_filter.1 hf).2
  exact Prod.ext (he.trans hf.symm) hef

/-- Taking out by a test on entries is taking out by a test on what stands under the hash. -/
theorem under_filter {p : UInt64 × α → Bool} {q : α → Bool} (h : ∀ x, p (hash, x) = q x) :
    under (l.filter p) hash = (under l hash).filter q := by
  rw [under, under, List.filter_map, List.filter_comm]
  congr 1
  refine List.filter_congr fun e he => ?_
  have hhash : e.1 = hash := of_decide_eq_true (List.mem_filter.1 he).2
  rw [Function.comp_apply, ← h, ← hhash]

/-- A list in order of hash is determined by what stands under each hash. -/
theorem eq_of_under (hl : l.Pairwise fun a b => a.1 ≤ b.1) (hm : m.Pairwise fun a b => a.1 ≤ b.1)
    (h : ∀ hash, under l hash = under m hash) : l = m := by
  induction l generalizing m with
  | nil =>
    cases m with
    | nil => rfl
    | cons b m =>
      have hb := h b.1
      rw [under_cons_self] at hb
      cases hb
  | cons a l ih =>
    cases m with
    | nil =>
      have ha := h a.1
      rw [under_cons_self] at ha
      cases ha
    | cons b m =>
      rw [List.pairwise_cons] at hl hm
      -- each of the first hashes is among the others, so neither is less
      have hmem : ∀ e, e ∈ a :: l ↔ e ∈ b :: m := fun e => by
        rw [← Prod.mk.eta (p := e), ← mem_under, h, mem_under]
      have hba : b.1 ≤ a.1 := by
        rcases List.mem_cons.1 ((hmem a).1 List.mem_cons_self) with rfl | ha
        · exact UInt64.le_refl _
        · exact hm.1 a ha
      have hab : a.1 ≤ b.1 := by
        rcases List.mem_cons.1 ((hmem b).2 List.mem_cons_self) with rfl | hb
        · exact UInt64.le_refl _
        · exact hl.1 b hb
      obtain ⟨g, x⟩ := a
      obtain ⟨g', y⟩ := b
      obtain rfl : g = g' := UInt64.le_antisymm hab hba
      have hfirst := h g
      rw [under_cons_self, under_cons_self, List.cons.injEq] at hfirst
      obtain ⟨rfl, hrest⟩ := hfirst
      rw [ih hl.2 hm.2 fun hash => ?_]
      by_cases hg : g = hash
      · exact hg ▸ hrest
      · have hother := h hash
        rwa [under_cons_ne hg, under_cons_ne hg] at hother

theorem trans_hash (a b c : UInt64 × α) (hab : decide (a.1 ≤ b.1) = true)
    (hbc : decide (b.1 ≤ c.1) = true) : decide (a.1 ≤ c.1) = true :=
  decide_eq_true (UInt64.le_trans (of_decide_eq_true hab) (of_decide_eq_true hbc))

theorem total_hash (a b : UInt64 × α) : (decide (a.1 ≤ b.1) || decide (b.1 ≤ a.1)) = true := by
  simpa using UInt64.le_total a.1 b.1

/-- Sorting by hash leaves what stands under a hash in its order. -/
theorem under_mergeSort (l : List (UInt64 × α)) (hash : UInt64) :
    under (l.mergeSort fun a b => a.1 ≤ b.1) hash = under l hash := by
  have hsorted : (l.filter (·.1 = hash)).Pairwise fun a b => decide (a.1 ≤ b.1) = true := by
    refine List.pairwise_of_forall_mem_list fun a ha b hb => ?_
    have ha := of_decide_eq_true (List.mem_filter.1 ha).2
    have hb := of_decide_eq_true (List.mem_filter.1 hb).2
    exact decide_eq_true (ha ▸ hb ▸ UInt64.le_refl _)
  have hsub := (List.sublist_mergeSort trans_hash total_hash hsorted
    List.filter_sublist).filter (·.1 = hash)
  simp only [List.filter_filter, Bool.and_self] at hsub
  have hlen := ((List.mergeSort_perm l fun a b => a.1 ≤ b.1).filter (·.1 = hash)).length_eq
  rw [under, under, hsub.eq_of_length hlen.symm]

end Under

/-! ## What comes later -/

/-- Some of what was there is there still, in its order, and behind it there is what is new. -/
def Follows {α : Type} (before now : List α) : Prop :=
  ∃ kept new, now = kept ++ new ∧ kept.Sublist before ∧ ∀ x ∈ new, x ∉ before

namespace Follows

variable {α : Type} {before now : List α}

theorem of_sublist (h : now.Sublist before) : Follows before now :=
  ⟨now, [], (List.append_nil now).symm, h, List.forall_mem_nil _⟩

/-- At the start everything is new. -/
theorem of_nil (now : List α) : Follows [] now :=
  ⟨[], now, rfl, .slnil, fun _ _ => List.not_mem_nil⟩

/-- If all is there still, the rest is behind it. -/
theorem eq_append (f : Follows before now) (hbefore : before.Nodup) (h : before ⊆ now) :
    ∃ new, now = before ++ new := by
  obtain ⟨kept, new, rfl, hkept, hnew⟩ := f
  have hsub : before ⊆ kept := fun x hx =>
    (List.mem_append.1 (h hx)).resolve_right fun hm => hnew x hm hx
  have hlen : before.length ≤ kept.length := (hbefore.subperm hsub).length_le
  exact ⟨new, congrArg (· ++ new) (hkept.eq_of_length_le hlen)⟩

end Follows

namespace Heap

/-- No value is unequal to itself. -/
theorem equal_self_ne (v : Handle) (heap : Heap) : equal v v heap ≠ .ok false := by
  intro h
  obtain ⟨n, -, h⟩ := bind_eq_ok.1 h
  cases n with
  | zero => cases h
  | succ n =>
    rw [equalWithin, if_pos rfl] at h
    cases h

end Heap

/-- A change of a table leaves what stands under a hash in its order, with what comes behind it. -/
theorem Change.follows {heap : Heap} {o o' : Object} (c : Change heap o o') (hash : UInt64) :
    Follows (under o.filings hash) (under o'.filings hash) := by
  rcases c.filings with hsub | ⟨hash', k, pre, post, h₁, h₂, hpost, -, hne⟩
  · exact .of_sublist (under_sublist hsub hash)
  by_cases hh : hash' = hash
  · subst hh
    have hbehind : under post hash' = [] := by
      refine List.eq_nil_iff_forall_not_mem.2 fun x hx => ?_
      exact UInt64.lt_irrefl _ (hpost _ (mem_under.1 hx))
    have hbefore : under o.filings hash' = under pre hash' := by
      rw [h₁, under_append, hbehind, List.append_nil]
    refine ⟨under pre hash', [k], ?_, hbefore ▸ .refl _, ?_⟩
    · rw [h₂, under_append, under_cons_self, hbehind]
    · rw [List.forall_mem_singleton]
      exact fun hk => Heap.equal_self_ne k heap (hne _ (mem_under.1 hk) rfl)
  · have hother : under o'.filings hash = under o.filings hash := by
      rw [h₁, h₂, under_append, under_append, under_cons_ne (e := (hash', k)) hh]
    exact .of_sublist (hother ▸ .refl _)

/-! ## In order of arrival -/

section Arrivals

variable {α : Type} [DecidableEq α]

/-- What is there at the last of the moments, in the order in which it came. The last moment is the
first of the list. -/
def arrivals : List (List α) → List α
  | [] => []
  | now :: before =>
    (arrivals before).filter (· ∈ now) ++ now.filter (· ∉ arrivals before)

variable {before now : List α}

theorem filter_mem_of_sublist {kept l : List α} (h : kept.Sublist l) (hl : l.Nodup) :
    l.filter (· ∈ kept) = kept := by
  induction h with
  | slnil => rfl
  | @cons kept l x h ih =>
    rw [List.nodup_cons] at hl
    have hx : x ∉ kept := fun hk => hl.1 (h.mem hk)
    rw [List.filter_cons_of_neg (by simpa using hx), ih hl.2]
  | @cons_cons kept l x h ih =>
    rw [List.nodup_cons] at hl
    rw [List.filter_cons_of_pos (by simp)]
    refine congrArg (x :: ·) ((List.filter_congr fun y hy => ?_).trans (ih hl.2))
    have hne : y ≠ x := fun hyx => hl.1 (hyx ▸ hy)
    simp [hne]

/-- What follows is what is left of what was there, and then what was not. -/
theorem Follows.eq (f : Follows before now) (hbefore : before.Nodup) :
    before.filter (· ∈ now) ++ now.filter (· ∉ before) = now := by
  obtain ⟨kept, new, rfl, hkept, hnew⟩ := f
  have hleft : before.filter (· ∈ kept ++ new) = kept := by
    refine (List.filter_congr fun x hx => ?_).trans (filter_mem_of_sublist hkept hbefore)
    have hx : x ∉ new := fun h => hnew x h hx
    simp [hx]
  have hold : kept.filter (· ∉ before) = [] :=
    List.filter_eq_nil_iff.2 fun x hx => by simpa using hkept.mem hx
  have hcame : new.filter (· ∉ before) = new :=
    List.filter_eq_self.2 fun x hx => by simpa using hnew x hx
  rw [hleft, List.filter_append, hold, hcame, List.nil_append]

end Arrivals

section Sorted

variable {α : Type} [DecidableEq α] {now : List (UInt64 × α)} {before : List (List (UInt64 × α))}

/-- The moments of a list follow each other under every hash, and nothing stands twice. -/
structure Came (moments : List (List (UInt64 × α))) : Prop where
  follows : moments.IsChain fun now before => ∀ hash, Follows (under before hash) (under now hash)
  nodup : ∀ now ∈ moments, now.Nodup

/-- Under every hash there is what came, in the order in which it came. -/
theorem Came.under_eq (c : Came (now :: before)) (hash : UInt64) :
    under (arrivals (now :: before)) hash = under now hash := by
  induction before generalizing now with
  | nil => simp [arrivals]
  | cons last before ih =>
    have hlast : Came (last :: before) :=
      ⟨c.follows.tail, fun l hl => c.nodup l (List.mem_cons_of_mem _ hl)⟩
    have hstands : ∀ x, (hash, x) ∈ arrivals (last :: before) ↔ x ∈ under last hash := fun x => by
      rw [← mem_under, ih hlast]
    rw [arrivals, under_append, under_filter (q := (· ∈ under now hash)),
      under_filter (q := (· ∉ under last hash)), ih hlast]
    · exact ((List.isChain_cons_cons.1 c.follows).1 hash).eq
        (nodup_under (c.nodup last (by simp)) hash)
    · exact fun x => decide_eq_decide.2 (not_congr (hstands x))
    · exact fun x => decide_eq_decide.2 mem_under.symm

/-- **The order of a table.** What is filed in order of hash, when what it was before is known, is
the stable sort by hash of what came. -/
theorem Came.eq_mergeSort (c : Came (now :: before))
    (hsorted : now.Pairwise fun a b => a.1 ≤ b.1) :
    now = (arrivals (now :: before)).mergeSort fun a b => a.1 ≤ b.1 := by
  refine eq_of_under hsorted ?_ fun hash => ?_
  · exact (List.pairwise_mergeSort trans_hash total_hash _).imp of_decide_eq_true
  · rw [under_mergeSort, c.under_eq]

end Sorted

end ObjectSpace
