import ObjectSpace.Operator
import Mathlib.Data.List.Forall2
import Mathlib.Data.List.Nodup
import Mathlib.Data.List.Perm.Subperm

/-!
# Verdicts

How two values stand to each other is a `Verdict`, or there is none. A verdict decides all four
ordering comparisons at once (`Verdict.holds`). `Coherent` says that verdicts fit together with a
notion of sameness: they turn around with the arguments, they do not tell same values apart, and
less is transitive.

**Theorem (`coherent_compare`, `coherent_lex`, `coherent_inclusion`).** Verdicts by a lawful
comparison, by the first difference of two sequences and by inclusion are coherent.

For sequences sameness has to be an equivalence. Where two sequences in a row are both less, the
first differences may be at one place or at two; at two, one of them is passed on along same
elements, and at one place, less is transitive and does not hold between same elements.
-/

namespace ObjectSpace

/-- Less in an order by `<`. -/
theorem Comparison.holds_lt {α : Type} [LT α] [DecidableLT α] [DecidableEq α] (x y : α) :
    lt.holds (compareOfLessAndEq x y) = decide (x < y) := by
  rw [Comparison.holds, beq_eq_decide]
  by_cases h : x < y
  · simp [compareOfLessAndEq, h]
  · by_cases he : x = y <;> simp [compareOfLessAndEq, h, he]

/-- How two values stand to each other; values that are apart are not the same, and none of them is
less. -/
inductive Verdict where
  | less | same | greater | apart
  deriving DecidableEq

namespace Verdict

/-- The verdict with the values in the other order. -/
def swap : Verdict → Verdict
  | less => greater
  | same => same
  | greater => less
  | apart => apart

/-- The verdict of an order in which nothing is apart. -/
def ofOrdering : Ordering → Verdict
  | .lt => less
  | .eq => same
  | .gt => greater

/-- What a comparison says of two values. -/
def holds : Verdict → Comparison → Bool
  | v, .eq => v == same
  | v, .ne => v != same
  | v, .lt => v == less
  | v, .le => v == less || v == same
  | v, .gt => v == greater
  | v, .ge => v == greater || v == same

theorem holds_ofOrdering (o : Ordering) (op : Comparison) :
    (ofOrdering o).holds op = op.holds o := by
  cases o <;> cases op <;> rfl

theorem ofOrdering_swap (o : Ordering) : ofOrdering o.swap = (ofOrdering o).swap := by
  cases o <;> rfl

/-- With the values in the other order the comparison turns around. -/
theorem swap_holds (v : Verdict) :
    v.swap.holds .lt = v.holds .gt ∧ v.swap.holds .le = v.holds .ge := by
  cases v <;> exact ⟨rfl, rfl⟩

theorem ofOrdering_ne_apart (o : Ordering) : ofOrdering o ≠ apart := by
  cases o <;> nofun

/-- Inclusion of one collection in another, given which of them are included and their sizes. -/
def ofInclusion (sub sup : Bool) (m n : Nat) : Verdict :=
  if m < n then if sub then less else apart
  else if n < m then if sup then greater else apart
  else if sub then same else apart

end Verdict

/-! ## Coherence -/

/-- Verdicts on the values with `P` that fit together with a notion of sameness. -/
structure Coherent {α : Type} (P : α → Prop) (same : α → α → Prop)
    (verdict : α → α → Option Verdict) : Prop where
  swap : ∀ a b, P a → P b → verdict b a = (verdict a b).map Verdict.swap
  same_iff : ∀ a b v, P a → P b → verdict a b = some v → (v = .same ↔ same a b)
  congr : ∀ a b c, P a → P b → P c → same b c → verdict a b = verdict a c
  trans : ∀ a b c, P a → P b → P c → verdict a b = some .less → verdict b c = some .less →
    verdict a c = some .less

/-- Sameness is an equivalence on the values with `P`. -/
structure SameOn {α : Type} (P : α → Prop) (same : α → α → Prop) : Prop where
  refl : ∀ a, P a → same a a
  symm : ∀ a b, P a → P b → same a b → same b a
  trans : ∀ a b c, P a → P b → P c → same a b → same b c → same a c

namespace Coherent

variable {α : Type} {P : α → Prop} {same : α → α → Prop} {verdict : α → α → Option Verdict}
  {a b c : α}

/-- The first argument can be replaced as the second can. -/
theorem congr_left (h : Coherent P same verdict) (ha : P a) (hb : P b) (hc : P c)
    (hab : same a b) : verdict a c = verdict b c := by
  rw [h.swap c a hc ha, h.swap c b hc hb, h.congr c a b hc ha hb hab]

/-- Of two values one of which is less, none is the same as the other. -/
theorem not_same (h : Coherent P same verdict) (ha : P a) (hb : P b)
    (hless : verdict a b = some .less) : ¬ same a b := by
  intro hsame
  have hv := (h.same_iff a b .less ha hb hless).2 hsame
  cases hv

end Coherent

/-- Verdicts on what values are seen as, where those that are seen as nothing have none. -/
theorem Coherent.comap {α β : Type} {P : α → Prop} {Q : β → Prop} {same : α → α → Prop}
    {same' : β → β → Prop} {verdict : β → β → Option Verdict} {f : α → Option β}
    (h : Coherent Q same' verdict) (hP : ∀ a r, P a → f a = some r → Q r)
    (hsame : ∀ a b r r', P a → P b → f a = some r → f b = some r' → (same a b ↔ same' r r'))
    (hnone : ∀ a b, P a → P b → same a b → (f a = none ↔ f b = none)) :
    Coherent P same fun a b => (f a).bind fun r => (f b).bind fun r' => verdict r r' := by
  have hpeel : ∀ {a b v}, ((f a).bind fun r => (f b).bind fun r' => verdict r r') = some v →
      ∃ r r', f a = some r ∧ f b = some r' ∧ verdict r r' = some v := by
    intro a b v hv
    obtain ⟨r, hr, hv⟩ := Option.bind_eq_some_iff.1 hv
    obtain ⟨r', hr', hv⟩ := Option.bind_eq_some_iff.1 hv
    exact ⟨r, r', hr, hr', hv⟩
  refine ⟨fun a b ha hb => ?_, fun a b v ha hb hv => ?_, fun a b c ha hb hc hbc => ?_,
    fun a b c ha hb hc hab hbc => ?_⟩
  · cases hra : f a with
    | none => cases f b <;> rfl
    | some r =>
      cases hrb : f b with
      | none => rfl
      | some r' => exact h.swap r r' (hP a r ha hra) (hP b r' hb hrb)
  · obtain ⟨r, r', hr, hr', hv⟩ := hpeel hv
    rw [hsame a b r r' ha hb hr hr']
    exact h.same_iff r r' v (hP a r ha hr) (hP b r' hb hr') hv
  · cases hrb : f b with
    | none => rw [(hnone b c hb hc hbc).1 hrb]
    | some r =>
      cases hrc : f c with
      | none =>
        rw [(hnone b c hb hc hbc).2 hrc] at hrb
        cases hrb
      | some r' =>
        cases hra : f a with
        | none => rfl
        | some q =>
          exact h.congr q r r' (hP a q ha hra) (hP b r hb hrb) (hP c r' hc hrc)
            ((hsame b c r r' hb hc hrb hrc).1 hbc)
  · obtain ⟨r, r', hr, hr', hab⟩ := hpeel hab
    obtain ⟨q, q', hq, hq', hbc⟩ := hpeel hbc
    rw [hr', Option.some.injEq] at hq
    subst hq
    rw [hr, hq']
    exact h.trans r r' q' (hP a r ha hr) (hP b r' hb hr') (hP c q' hc hq') hab hbc

/-- Verdicts by a lawful comparison. -/
theorem coherent_compare {α : Type} (cmp : α → α → Ordering) [Std.TransCmp cmp]
    [Std.LawfulEqCmp cmp] :
    Coherent (fun _ => True) Eq fun a b => some (Verdict.ofOrdering (cmp a b)) := by
  have hless : ∀ a b, some (Verdict.ofOrdering (cmp a b)) = some .less ↔ cmp a b = .lt := by
    intro a b
    cases cmp a b <;> simp [Verdict.ofOrdering]
  refine ⟨fun a b _ _ => ?_, fun a b v _ _ hv => ?_, ?_, fun a b c _ _ _ hab hbc => ?_⟩
  · rw [Option.map_some, ← Verdict.ofOrdering_swap,
      ← (Std.OrientedCmp.eq_swap : cmp b a = (cmp a b).swap)]
  · rw [← (Std.LawfulEqCmp.compare_eq_iff_eq : cmp a b = .eq ↔ a = b), ← Option.some.inj hv]
    cases cmp a b <;> simp [Verdict.ofOrdering]
  · rintro a b _ - - - rfl
    rfl
  · rw [hless] at hab hbc ⊢
    exact Std.TransCmp.lt_trans hab hbc

/-! ## Sequences -/

open Classical in
/-- The verdict on two sequences: that on the first two elements at one place that are not the same,
or else that on the lengths. -/
noncomputable def lexVerdict {α : Type} (same : α → α → Prop) (verdict : α → α → Option Verdict) :
    List α → List α → Option Verdict
  | [], [] => some .same
  | [], _ :: _ => some .less
  | _ :: _, [] => some .greater
  | x :: xs, y :: ys => if same x y then lexVerdict same verdict xs ys else verdict x y

section Lex

variable {α : Type} {P : α → Prop} {same : α → α → Prop} {verdict : α → α → Option Verdict}
  {xs ys zs : List α}

open Classical in
theorem lexVerdict_cons (x y : α) (xs ys : List α) :
    lexVerdict same verdict (x :: xs) (y :: ys) =
      if same x y then lexVerdict same verdict xs ys else verdict x y := rfl

theorem lexVerdict_swap (h : Coherent P same verdict) (e : SameOn P same) (hx : ∀ x ∈ xs, P x)
    (hy : ∀ y ∈ ys, P y) :
    lexVerdict same verdict ys xs = (lexVerdict same verdict xs ys).map Verdict.swap := by
  induction xs generalizing ys with
  | nil => cases ys <;> rfl
  | cons x xs ih =>
    cases ys with
    | nil => rfl
    | cons y ys =>
      rw [List.forall_mem_cons] at hx hy
      rw [lexVerdict_cons, lexVerdict_cons]
      by_cases hxy : same x y
      · rw [if_pos hxy, if_pos (e.symm x y hx.1 hy.1 hxy), ih hx.2 hy.2]
      · rw [if_neg hxy, if_neg fun hyx => hxy (e.symm y x hy.1 hx.1 hyx), h.swap x y hx.1 hy.1]

theorem lexVerdict_same_iff (h : Coherent P same verdict) (hx : ∀ x ∈ xs, P x)
    (hy : ∀ y ∈ ys, P y) {v : Verdict} (hv : lexVerdict same verdict xs ys = some v) :
    v = .same ↔ List.Forall₂ same xs ys := by
  induction xs generalizing ys with
  | nil =>
    cases ys with
    | nil => exact ⟨fun _ => .nil, fun _ => (Option.some.inj hv).symm⟩
    | cons y ys =>
      obtain rfl := Option.some.inj hv
      exact ⟨nofun, nofun⟩
  | cons x xs ih =>
    cases ys with
    | nil =>
      obtain rfl := Option.some.inj hv
      exact ⟨nofun, nofun⟩
    | cons y ys =>
      rw [List.forall_mem_cons] at hx hy
      rw [lexVerdict_cons] at hv
      rw [List.forall₂_cons]
      by_cases hxy : same x y
      · rw [if_pos hxy] at hv
        rw [ih hx.2 hy.2 hv]
        exact ⟨fun hall => ⟨hxy, hall⟩, And.right⟩
      · rw [if_neg hxy] at hv
        rw [h.same_iff x y v hx.1 hy.1 hv]
        exact ⟨fun hs => absurd hs hxy, fun hs => absurd hs.1 hxy⟩

theorem lexVerdict_congr (h : Coherent P same verdict) (e : SameOn P same) (hx : ∀ x ∈ xs, P x)
    (hy : ∀ y ∈ ys, P y) (hz : ∀ z ∈ zs, P z) (hyz : List.Forall₂ same ys zs) :
    lexVerdict same verdict xs ys = lexVerdict same verdict xs zs := by
  induction hyz generalizing xs with
  | nil => rfl
  | @cons y z ys zs hyz _ ih =>
    cases xs with
    | nil => rfl
    | cons x xs =>
      rw [List.forall_mem_cons] at hx hy hz
      have hiff : same x y ↔ same x z :=
        ⟨fun hxy => e.trans x y z hx.1 hy.1 hz.1 hxy hyz,
          fun hxz => e.trans x z y hx.1 hz.1 hy.1 hxz (e.symm y z hy.1 hz.1 hyz)⟩
      rw [lexVerdict_cons, lexVerdict_cons]
      by_cases hxy : same x y
      · rw [if_pos hxy, if_pos (hiff.1 hxy), ih hx.2 hy.2 hz.2]
      · rw [if_neg hxy, if_neg (mt hiff.2 hxy), h.congr x y z hx.1 hy.1 hz.1 hyz]

theorem lexVerdict_trans (h : Coherent P same verdict) (e : SameOn P same) (hx : ∀ x ∈ xs, P x)
    (hy : ∀ y ∈ ys, P y) (hz : ∀ z ∈ zs, P z) (hxy : lexVerdict same verdict xs ys = some .less)
    (hyz : lexVerdict same verdict ys zs = some .less) :
    lexVerdict same verdict xs zs = some .less := by
  induction xs generalizing ys zs with
  | nil =>
    cases zs with
    | nil => cases ys <;> cases hyz
    | cons z zs => rfl
  | cons x xs ih =>
    cases ys with
    | nil => cases hxy
    | cons y ys =>
      cases zs with
      | nil => cases hyz
      | cons z zs =>
        rw [List.forall_mem_cons] at hx hy hz
        rw [lexVerdict_cons] at hxy hyz ⊢
        by_cases sxy : same x y <;> by_cases syz : same y z
        · rw [if_pos sxy] at hxy
          rw [if_pos syz] at hyz
          rw [if_pos (e.trans x y z hx.1 hy.1 hz.1 sxy syz)]
          exact ih hx.2 hy.2 hz.2 hxy hyz
        · rw [if_neg syz] at hyz
          have hxz := (h.congr_left hx.1 hy.1 hz.1 sxy).trans hyz
          rwa [if_neg (h.not_same hx.1 hz.1 hxz)]
        · rw [if_neg sxy] at hxy
          have hxz := (h.congr x y z hx.1 hy.1 hz.1 syz).symm.trans hxy
          rwa [if_neg (h.not_same hx.1 hz.1 hxz)]
        · rw [if_neg sxy] at hxy
          rw [if_neg syz] at hyz
          have hxz := h.trans x y z hx.1 hy.1 hz.1 hxy hyz
          rwa [if_neg (h.not_same hx.1 hz.1 hxz)]

/-- **Sequences.** Verdicts by the first difference are coherent. -/
theorem coherent_lex (h : Coherent P same verdict) (e : SameOn P same) :
    Coherent (fun l => ∀ x ∈ l, P x) (List.Forall₂ same) (lexVerdict same verdict) where
  swap _ _ := lexVerdict_swap h e
  same_iff _ _ _ hx hy := lexVerdict_same_iff h hx hy
  congr _ _ _ := lexVerdict_congr h e
  trans _ _ _ := lexVerdict_trans h e

end Lex

/-! ## Inclusion -/

section Inclusion

variable {κ : Type}

open Classical in
/-- The verdict on two collections by inclusion. -/
noncomputable def inclusionVerdict (s t : List κ) : Verdict :=
  .ofInclusion (decide (s ⊆ t)) (decide (t ⊆ s)) s.length t.length

/-- A collection that is included in one of the same size includes it. -/
theorem subset_of_length {s t : List κ} (hs : s.Nodup) (ht : t.length ≤ s.length) (h : s ⊆ t) :
    t ⊆ s := fun _ hx => ((hs.subperm h).perm_of_length_le ht).mem_iff.2 hx

theorem inclusionVerdict_less {s t : List κ} :
    inclusionVerdict s t = .less ↔ s.length < t.length ∧ s ⊆ t := by
  unfold inclusionVerdict Verdict.ofInclusion
  by_cases hlt : s.length < t.length
  · rw [if_pos hlt]
    by_cases hsub : s ⊆ t <;> simp [hlt, hsub]
  · rw [if_neg hlt]
    split <;> split <;> simp [hlt]

theorem inclusionVerdict_same {s t : List κ} :
    inclusionVerdict s t = .same ↔ s.length = t.length ∧ s ⊆ t := by
  unfold inclusionVerdict Verdict.ofInclusion
  rcases Nat.lt_trichotomy s.length t.length with hlen | hlen | hlen
  · rw [if_pos hlen]
    split <;> simp [Nat.ne_of_lt hlen]
  · by_cases hsub : s ⊆ t <;> simp [hlen, hsub]
  · rw [if_neg (Nat.lt_asymm hlen), if_pos hlen]
    split <;> simp [Nat.ne_of_gt hlen]

theorem inclusionVerdict_lt {s t : List κ} :
    (inclusionVerdict s t).holds .lt = true ↔ s.length < t.length ∧ s ⊆ t := by
  rw [← inclusionVerdict_less, Verdict.holds, beq_iff_eq]

theorem inclusionVerdict_le {s t : List κ} :
    (inclusionVerdict s t).holds .le = true ↔ s.length ≤ t.length ∧ s ⊆ t := by
  rw [Verdict.holds, Bool.or_eq_true, beq_iff_eq, beq_iff_eq, inclusionVerdict_less,
    inclusionVerdict_same, ← or_and_right, Nat.le_iff_lt_or_eq]

/-- What is included is not greater. -/
theorem inclusionVerdict_le_iff {s t : List κ} (hs : s.Nodup) :
    (inclusionVerdict s t).holds .le = true ↔ s ⊆ t := by
  rw [inclusionVerdict_le]
  exact and_iff_right_of_imp fun h => (hs.subperm h).length_le

/-- What is included without including is less. -/
theorem inclusionVerdict_lt_iff {s t : List κ} (hs : s.Nodup) (ht : t.Nodup) :
    (inclusionVerdict s t).holds .lt = true ↔ s ⊆ t ∧ ¬ t ⊆ s := by
  rw [inclusionVerdict_lt, and_comm]
  refine and_congr_right fun h => ⟨fun hlt hsub => ?_, fun hsub => ?_⟩
  · exact absurd (ht.subperm hsub).length_le (Nat.not_le_of_lt hlt)
  · by_contra hlen
    exact hsub (subset_of_length hs (Nat.le_of_not_lt hlen) h)

/-- **Inclusion.** Verdicts by inclusion are coherent. -/
theorem coherent_inclusion : Coherent (fun s : List κ => s.Nodup)
    (fun s t => s.length = t.length ∧ s ⊆ t) fun s t => some (inclusionVerdict s t) := by
  refine ⟨fun s t hs ht => ?_, fun s t v _ _ hv => ?_, fun s t u _ ht hu htu => ?_,
    fun s t u _ _ _ hst htu => ?_⟩
  · rw [Option.map_some, Option.some.injEq]
    unfold inclusionVerdict Verdict.ofInclusion
    rcases Nat.lt_trichotomy s.length t.length with hlen | hlen | hlen
    · rw [if_neg (Nat.lt_asymm hlen), if_pos hlen, if_pos hlen]
      split <;> rfl
    · have hiff : t ⊆ s ↔ s ⊆ t :=
        ⟨subset_of_length ht (Nat.le_of_eq hlen), subset_of_length hs (Nat.le_of_eq hlen.symm)⟩
      by_cases hsub : s ⊆ t <;> simp [hlen, hsub, hiff, Verdict.swap]
    · rw [if_pos hlen, if_neg (Nat.lt_asymm hlen), if_pos hlen]
      split <;> rfl
  · rw [← inclusionVerdict_same, Option.some.inj hv]
  · have hmem : ∀ x, x ∈ t ↔ x ∈ u := fun x =>
      ⟨fun hx => htu.2 hx, fun hx => subset_of_length ht (Nat.le_of_eq htu.1.symm) htu.2 hx⟩
    have hsub : s ⊆ t ↔ s ⊆ u := forall_congr' fun x => by rw [hmem]
    have hsup : t ⊆ s ↔ u ⊆ s := forall_congr' fun x => by rw [hmem]
    rw [inclusionVerdict, inclusionVerdict, htu.1, decide_eq_decide.2 hsub,
      decide_eq_decide.2 hsup]
  · rw [Option.some.injEq, inclusionVerdict_less] at hst htu ⊢
    exact ⟨Nat.lt_trans hst.1 htu.1, fun x hx => htu.2 (hst.2 hx)⟩

end Inclusion

end ObjectSpace
