import ObjectSpace.Ordering
import ObjectSpace.Proofs.Value.Resemblance

/-!
# What ordering sees of a value

Ordering sees integers and Booleans as numbers, texts, bytes, lists and tuples as they are, and sets
as their keys; it does not see any other value. This is the `Rank` of a value. Two ranked values
resemble each other when their ranks are the same (`resemble_iff_rank`), and of values that resemble
each other both are ranked or none is.

**Theorem (`coherent_verdict`).** The verdicts on values, by their ranks and to a given depth, are
coherent with resemblance, also on values that contain themselves.
-/

namespace ObjectSpace

variable {heap : Heap}

/-! ## Ranks -/

/-- What ordering sees of a value; sets are seen as their keys, which come from `κ`. -/
inductive Rank (κ : Type) where
  | number (n : Int64)
  | text (s : String)
  | bytes (bs : List UInt8)
  | list (items : List Handle)
  | tuple (items : List Handle)
  | set (keys : List κ)

namespace Rank

variable {κ : Type} {P : Handle → Prop} {same : Handle → Handle → Prop}
  {verdict : Handle → Handle → Option Verdict}

/-- The elements of a sequence have `P`, and the keys of a set are different. -/
def Fits (P : Handle → Prop) : Rank κ → Prop
  | list items | tuple items => ∀ p ∈ items, P p
  | set keys => keys.Nodup
  | _ => True

/-- Ranks of one kind and content, up to sameness of elements. -/
def Same (same : Handle → Handle → Prop) : Rank κ → Rank κ → Prop
  | number i, number j => i = j
  | text s, text t => s = t
  | bytes s, bytes t => s = t
  | list xs, list ys | tuple xs, tuple ys => List.Forall₂ same xs ys
  | set s, set t => s.length = t.length ∧ s ⊆ t
  | _, _ => False

/-- The verdict on two ranks; there is none on ranks of different kinds. -/
noncomputable def judge (same : Handle → Handle → Prop)
    (verdict : Handle → Handle → Option Verdict) : Rank κ → Rank κ → Option Verdict
  | number i, number j => some (.ofOrdering (compare i j))
  | text s, text t => some (.ofOrdering (compare s t))
  | bytes s, bytes t => some (.ofOrdering (List.compareLex compare s t))
  | list xs, list ys | tuple xs, tuple ys => lexVerdict same verdict xs ys
  | set s, set t => some (inclusionVerdict s t)
  | _, _ => none

/-- Ranks of one kind. -/
inductive Kin : Rank κ → Rank κ → Prop
  | number (i j : Int64) : Kin (number i) (number j)
  | text (s t : String) : Kin (text s) (text t)
  | bytes (s t : List UInt8) : Kin (bytes s) (bytes t)
  | list (xs ys : List Handle) : Kin (list xs) (list ys)
  | tuple (xs ys : List Handle) : Kin (tuple xs) (tuple ys)
  | set (s t : List κ) : Kin (set s) (set t)

theorem kin_of_judge {a b : Rank κ} {v : Verdict} (h : judge same verdict a b = some v) :
    Kin a b := by
  cases a <;> cases b <;> first | constructor | simp [judge] at h

theorem kin_of_same {a b : Rank κ} (h : Same same a b) : Kin a b := by
  cases a <;> cases b <;> first | constructor | exact h.elim

theorem judge_eq_none {a b : Rank κ} (h : ¬ Kin a b) : judge same verdict a b = none := by
  cases hv : judge same verdict a b with
  | none => rfl
  | some v => exact absurd (kin_of_judge hv) h

theorem Kin.symm {a b : Rank κ} (h : Kin a b) : Kin b a := by
  cases h <;> constructor

theorem Kin.trans {a b c : Rank κ} (h : Kin a b) (h' : Kin b c) : Kin a c := by
  cases h <;> cases h' <;> constructor

/-- **Ranks.** Verdicts on ranks are coherent when those on elements are. -/
theorem coherent_judge (h : Coherent P same verdict) (e : SameOn P same) :
    Coherent (Fits P) (Same (κ := κ) same) (judge same verdict) := by
  have hnumber := coherent_compare (compare : Int64 → Int64 → Ordering)
  have htext := coherent_compare (compare : String → String → Ordering)
  have hbytes := coherent_compare (List.compareLex (compare : UInt8 → UInt8 → Ordering))
  have hlex := coherent_lex h e
  have hset := coherent_inclusion (κ := κ)
  refine ⟨fun a b ha hb => ?_, fun a b v ha hb hv => ?_, fun a b c ha hb hc hbc => ?_,
    fun a b c ha hb hc hab hbc => ?_⟩
  · by_cases hk : Kin a b
    · cases hk with
      | number i j => exact hnumber.swap i j trivial trivial
      | text s t => exact htext.swap s t trivial trivial
      | bytes s t => exact hbytes.swap s t trivial trivial
      | list xs ys => exact hlex.swap xs ys ha hb
      | tuple xs ys => exact hlex.swap xs ys ha hb
      | set s t => exact hset.swap s t ha hb
    · rw [judge_eq_none hk, judge_eq_none (mt Kin.symm hk), Option.map_none]
  · cases kin_of_judge hv with
    | number i j => exact hnumber.same_iff i j v trivial trivial hv
    | text s t => exact htext.same_iff s t v trivial trivial hv
    | bytes s t => exact hbytes.same_iff s t v trivial trivial hv
    | list xs ys => exact hlex.same_iff xs ys v ha hb hv
    | tuple xs ys => exact hlex.same_iff xs ys v ha hb hv
    | set s t => exact hset.same_iff s t v ha hb hv
  · have hkin := kin_of_same hbc
    by_cases hk : Kin a b
    · cases hk with
      | number i j =>
        cases hkin with
        | number _ k => exact hnumber.congr i j k trivial trivial trivial hbc
      | text s t =>
        cases hkin with
        | text _ u => exact htext.congr s t u trivial trivial trivial hbc
      | bytes s t =>
        cases hkin with
        | bytes _ u => exact hbytes.congr s t u trivial trivial trivial hbc
      | list xs ys =>
        cases hkin with
        | list _ zs => exact hlex.congr xs ys zs ha hb hc hbc
      | tuple xs ys =>
        cases hkin with
        | tuple _ zs => exact hlex.congr xs ys zs ha hb hc hbc
      | set s t =>
        cases hkin with
        | set _ u => exact hset.congr s t u ha hb hc hbc
    · rw [judge_eq_none hk, judge_eq_none fun hac => hk (hac.trans hkin.symm)]
  · have hkin := kin_of_judge hbc
    cases kin_of_judge hab with
    | number i j =>
      cases hkin with
      | number _ k => exact hnumber.trans i j k trivial trivial trivial hab hbc
    | text s t =>
      cases hkin with
      | text _ u => exact htext.trans s t u trivial trivial trivial hab hbc
    | bytes s t =>
      cases hkin with
      | bytes _ u => exact hbytes.trans s t u trivial trivial trivial hab hbc
    | list xs ys =>
      cases hkin with
      | list _ zs => exact hlex.trans xs ys zs ha hb hc hab hbc
    | tuple xs ys =>
      cases hkin with
      | tuple _ zs => exact hlex.trans xs ys zs ha hb hc hab hbc
    | set s t =>
      cases hkin with
      | set _ u => exact hset.trans s t u ha hb hc hab hbc

end Rank

theorem Rank.same_refl {κ : Type} {same : Handle → Handle → Prop} (h : ∀ a, same a a)
    (r : Rank κ) : r.Same same r := by
  cases r with
  | number | text | bytes => rfl
  | list | tuple => exact List.forall₂_same.2 fun a _ => h a
  | set => exact ⟨rfl, List.Subset.refl _⟩

/-! ## Ranks of objects -/

/-- What ordering sees of an object. -/
def Object.rank? (heap : Heap) (see : Handle → Option Object) : Object → Option (Rank (Option Key))
  | .int n => some (.number n)
  | .bool b => some (.number (if b then 1 else 0))
  | .str s _ => some (.text s)
  | .bytes bs => some (.bytes bs.toList)
  | .list items => some (.list items.toList)
  | .tuple items => some (.tuple items.toList)
  | .set t => some (.set (t.toList.map (Legible.keyAt heap see)))
  | _ => none

namespace Object

variable {see : Handle → Option Object} {x : Object}

theorem rank?_of_asInt? {n : Int64} (h : x.asInt? = some n) :
    x.rank? heap see = some (.number n) := by
  cases x with
  | bool | int =>
    obtain rfl := Option.some.inj h
    rfl
  | _ => cases h

/-- The objects with a rank. -/
inductive HasRank (heap : Heap) (see : Handle → Option Object) :
    Object → Rank (Option Key) → Prop
  | number {x : Object} {n : Int64} : x.asInt? = some n → HasRank heap see x (.number n)
  | text (s : String) (hash? : Option UInt64) : HasRank heap see (.str s hash?) (.text s)
  | bytes (bs : Array UInt8) : HasRank heap see (.bytes bs) (.bytes bs.toList)
  | list (items : Array Handle) : HasRank heap see (.list items) (.list items.toList)
  | tuple (items : Array Handle) : HasRank heap see (.tuple items) (.tuple items.toList)
  | set (t : Table Handle) :
      HasRank heap see (.set t) (.set (t.toList.map (Legible.keyAt heap see)))

theorem hasRank_of_rank? {r : Rank (Option Key)} (h : x.rank? heap see = some r) :
    x.HasRank heap see r := by
  cases x with
  | bool | int =>
    obtain rfl := Option.some.inj h
    exact .number rfl
  | str s hash? =>
    obtain rfl := Option.some.inj h
    exact .text s hash?
  | bytes bs =>
    obtain rfl := Option.some.inj h
    exact .bytes bs
  | list items =>
    obtain rfl := Option.some.inj h
    exact .list items
  | tuple items =>
    obtain rfl := Option.some.inj h
    exact .tuple items
  | set t =>
    obtain rfl := Option.some.inj h
    exact .set t
  | _ => cases h

theorem of_rank?_number {n : Int64} (h : x.rank? heap see = some (.number n)) :
    x.asInt? = some n := by
  cases hasRank_of_rank? h with
  | number h => exact h

theorem of_rank?_text {s : String} (h : x.rank? heap see = some (.text s)) :
    ∃ hash, x = .str s hash := by
  cases hasRank_of_rank? h with
  | text _ hash? => exact ⟨hash?, rfl⟩

theorem of_rank?_bytes {bs : List UInt8} (h : x.rank? heap see = some (.bytes bs)) :
    x = .bytes bs.toArray := by
  cases hasRank_of_rank? h with
  | bytes => rfl

theorem of_rank?_list {items : List Handle} (h : x.rank? heap see = some (.list items)) :
    x = .list items.toArray := by
  cases hasRank_of_rank? h with
  | list => rfl

theorem of_rank?_tuple {items : List Handle} (h : x.rank? heap see = some (.tuple items)) :
    x = .tuple items.toArray := by
  cases hasRank_of_rank? h with
  | tuple => rfl

theorem of_rank?_set {keys : List (Option Key)} (h : x.rank? heap see = some (.set keys)) :
    ∃ t, x = .set t ∧ t.toList.map (Legible.keyAt heap see) = keys := by
  cases hasRank_of_rank? h with
  | set t => exact ⟨t, rfl, rfl⟩

end Object

/-! ## Resemblance of ranked values -/

section Resemblance

variable {see : Handle → Option Object} {P : Handle → Prop} {R : Handle → Handle → Prop}
  {a b : Handle} {x y : Object} {r r' : Rank (Option Key)}

/-- The elements of an object are among its parts, and its keys are different. -/
theorem Entered.fits (L : Legible heap see) (ex : Entered see P x)
    (hr : x.rank? heap see = some r) : r.Fits P := by
  cases x with
  | list | tuple =>
    obtain rfl := Option.some.inj hr
    exact ex.parts
  | set =>
    obtain rfl := Option.some.inj hr
    exact ex.nodup_set L
  | int | bool | str | bytes =>
    obtain rfl := Option.some.inj hr
    trivial
  | _ => cases hr

/-- Sets have the same content when their keys are the same. -/
theorem covers_keys_iff {key : Handle → Option Key} {t u : Table Handle} (ht : t.Trim)
    (hu : u.Trim) : t.size = u.size ∧ Covers key (fun _ _ => True) t.toList u.toList ↔
      (t.toList.map key).length = (u.toList.map key).length ∧
        t.toList.map key ⊆ u.toList.map key := by
  rw [List.length_map, List.length_map, ht.size_eq_iff hu]
  refine and_congr_right fun _ => ?_
  simp only [Covers, and_true, List.subset_def, List.mem_map, forall_exists_index, and_imp,
    forall_apply_eq_imp_iff₂]

/-- Ranked objects resemble each other when their ranks are the same. -/
theorem Object.resembles_iff_rank (tx : x.Trim) (ty : y.Trim) (hr : x.rank? heap see = some r)
    (hr' : y.rank? heap see = some r') :
    x.Resembles (Legible.keyAt heap see) R y ↔ r.Same R r' := by
  constructor
  · intro h
    cases h with
    | str | bytes =>
      obtain rfl := Option.some.inj hr
      obtain rfl := Option.some.inj hr'
      rfl
    | number hi hj =>
      rw [Object.rank?_of_asInt? hi, Option.some.injEq] at hr
      rw [Object.rank?_of_asInt? hj, Option.some.injEq] at hr'
      subst hr hr'
      rfl
    | list h | tuple h =>
      obtain rfl := Option.some.inj hr
      obtain rfl := Option.some.inj hr'
      exact h
    | set hsize h =>
      obtain rfl := Option.some.inj hr
      obtain rfl := Option.some.inj hr'
      exact (covers_keys_iff tx ty).1 ⟨hsize, h⟩
    | dict | range | boundMethod => cases hr
  · intro h
    cases Rank.kin_of_same h with
    | number i j =>
      obtain rfl : i = j := h
      exact .number (Object.of_rank?_number hr) (Object.of_rank?_number hr')
    | text s t =>
      obtain rfl : s = t := h
      obtain ⟨_, rfl⟩ := Object.of_rank?_text hr
      obtain ⟨_, rfl⟩ := Object.of_rank?_text hr'
      exact .str ..
    | bytes s t =>
      obtain rfl : s = t := h
      obtain rfl := Object.of_rank?_bytes hr
      obtain rfl := Object.of_rank?_bytes hr'
      exact .bytes _
    | list xs ys =>
      obtain rfl := Object.of_rank?_list hr
      obtain rfl := Object.of_rank?_list hr'
      exact .list h
    | tuple xs ys =>
      obtain rfl := Object.of_rank?_tuple hr
      obtain rfl := Object.of_rank?_tuple hr'
      exact .tuple h
    | set s t =>
      obtain ⟨t, rfl, rfl⟩ := Object.of_rank?_set hr
      obtain ⟨u, rfl, rfl⟩ := Object.of_rank?_set hr'
      obtain ⟨hsize, hcovers⟩ := (covers_keys_iff tx ty).2 h
      exact .set hsize hcovers

/-- Ranked values resemble each other when their ranks are the same. -/
theorem resemble_iff_rank (hx : see a = some x) (hy : see b = some y) (tx : x.Trim) (ty : y.Trim)
    (hr : x.rank? heap see = some r) (hr' : y.rank? heap see = some r') :
    heap.Resemble see a b ↔ r.Same (heap.Resemble see) r' := by
  rw [Heap.resemble_iff hx hy, Object.resembles_iff_rank tx ty hr hr']
  refine or_iff_right_of_imp fun hab => ?_
  subst hab
  rw [hx, Option.some.injEq] at hy
  subst hy
  rw [hr, Option.some.injEq] at hr'
  exact hr' ▸ Rank.same_refl (fun _ => .refl _) r

/-- Of values that resemble each other both are ranked or none is. -/
theorem rank?_none_iff (hx : see a = some x) (hy : see b = some y) (h : heap.Resemble see a b) :
    x.rank? heap see = none ↔ y.rank? heap see = none := by
  rcases (Heap.resemble_iff hx hy).1 h with rfl | h
  · rw [hx, Option.some.injEq] at hy
    rw [hy]
  · cases h with
    | number hi hj => rw [Object.rank?_of_asInt? hi, Object.rank?_of_asInt? hj]
    | dict | range | boundMethod => exact Iff.rfl
    | _ => exact ⟨nofun, nofun⟩

end Resemblance

/-! ## Verdicts on values -/

/-- The verdict on two values by their ranks, to the given depth of sequences in sequences. -/
noncomputable def Heap.verdict (heap : Heap) (see : Handle → Option Object) :
    Nat → Handle → Handle → Option Verdict
  | 0, _, _ => none
  | n + 1, a, b => ((see a).bind (Object.rank? heap see)).bind fun r =>
      ((see b).bind (Object.rank? heap see)).bind fun r' =>
        r.judge (heap.Resemble see) (heap.verdict see n) r'

/-- **Values.** Verdicts on values are coherent with resemblance. -/
theorem Legible.coherent_verdict {see : Handle → Option Object} (L : Legible heap see)
    {P : Handle → Prop} (hP : Readable see P) (n : Nat) :
    Coherent P (heap.Resemble see) (heap.verdict see n) := by
  induction n with
  | zero => exact ⟨fun _ _ _ _ => rfl, nofun, fun _ _ _ _ _ _ _ => rfl, nofun⟩
  | succ n ih =>
    refine (Rank.coherent_judge ih (sameOn_resemble L hP)).comap (fun a r ha hr => ?_)
      (fun a b r r' _ _ hr hr' => ?_) fun a b ha hb hab => ?_
    · obtain ⟨x, hx, hr⟩ := Option.bind_eq_some_iff.1 hr
      exact (hP.entered_of L ha hx).fits L hr
    · obtain ⟨x, hx, hr⟩ := Option.bind_eq_some_iff.1 hr
      obtain ⟨y, hy, hr'⟩ := Option.bind_eq_some_iff.1 hr'
      have htrim : ∀ v o, see v = some o → o.Trim := fun v o ho => L.trim v o (L.shows v o ho)
      exact resemble_iff_rank hx hy (htrim a x hx) (htrim b y hy) hr hr'
    · obtain ⟨x, hx, -⟩ := hP.entered L ha
      obtain ⟨y, hy, -⟩ := hP.entered L hb
      rw [hx, hy, Option.bind_some, Option.bind_some]
      exact rank?_none_iff hx hy hab

end ObjectSpace
