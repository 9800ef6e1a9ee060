import ObjectSpace.Proofs.Value.Ranking
import ObjectSpace.Proofs.Value.Runs

/-!
# Ordering in runs

**Theorem (`order_coherent`).** In every state that a run reaches, the four ordering comparisons fit
together on valid values that do not contain themselves: if one of them answers on two values, so do
all four, in both orders of the arguments; they turn around with the arguments; less or equal is
less or equal to; and less is irreflexive and transitive. Where no set takes part, of two values
that can be compared one is less or they are equal.

Each comparison answers as the verdict on the two values says, and it does not answer if there is
none (`orderedWithin_verdict`). This is so for values that contain themselves as well, but those may
have a verdict where the comparison does not end. On values that do not contain themselves it ends
(`orderedWithin_judged`), and resemblance is equality. The rest is coherence of verdicts.
-/

namespace ObjectSpace

open Heap (bind_of_ok bind_of_error)

/-- The comparisons that order. -/
def Comparison.Orders (op : Comparison) : Prop := op ≠ .eq ∧ op ≠ .ne

/-- A comparison answers, or it stops. -/
def Answers (r : Except Halt Bool) : Option Bool → Prop
  | some b => r = .ok b
  | none => ∃ e, r = .error e

variable {heap : Heap} {see : Handle → Option Object}

namespace Heap

theorem unsupported_error (operation : String) (a b : Handle) :
    ∃ e, (unsupported operation a b : Query Bool) heap = .error e := by
  unfold unsupported
  cases hl : typeName a heap with
  | error e => exact ⟨e, bind_of_error hl⟩
  | ok l =>
    rw [bind_of_ok hl]
    cases hr : typeName b heap with
    | error e => exact ⟨e, bind_of_error hr⟩
    | ok r =>
      rw [bind_of_ok hr]
      exact ⟨_, rfl⟩

theorem allM_of_ok {α : Type} {f : α → Query Bool} {g : α → Bool} {l : List α}
    (h : ∀ a ∈ l, f a heap = .ok (g a)) : l.allM f heap = .ok (l.all g) := by
  induction l with
  | nil => rfl
  | cons a l ih =>
    rw [List.forall_mem_cons] at h
    rw [List.allM, bind_of_ok h.1, List.all_cons]
    cases g a with
    | false => rfl
    | true => exact ih h.2

/-- A search for the first difference that ends has found what decides the verdict. -/
theorem firstDifference_verdict {same : Handle → Handle → Prop}
    (verdict : Handle → Handle → Option Verdict) {xs ys : List Handle}
    {d : Option (Handle × Handle)}
    (hsame : ∀ x ∈ xs, ∀ y ∈ ys, ∀ r, equal x y heap = .ok r → (r = true ↔ same x y))
    (h : firstDifference xs ys heap = .ok d) :
    (∃ x ∈ xs, ∃ y ∈ ys, d = some (x, y) ∧ lexVerdict same verdict xs ys = verdict x y) ∨
    d = none ∧
      lexVerdict same verdict xs ys = some (.ofOrdering (compare xs.length ys.length)) := by
  induction xs generalizing ys with
  | nil => cases ys <;> exact .inr ⟨(pure_eq_ok.1 h).symm, rfl⟩
  | cons x xs ih =>
    cases ys with
    | nil => exact .inr ⟨(pure_eq_ok.1 h).symm, rfl⟩
    | cons y ys =>
      obtain ⟨r, hr, h⟩ := bind_eq_ok.1 h
      have hxy := hsame x List.mem_cons_self y List.mem_cons_self r hr
      rw [lexVerdict_cons]
      cases r with
      | false =>
        rw [if_neg fun he => Bool.false_ne_true (hxy.2 he)]
        exact .inl ⟨x, List.mem_cons_self, y, List.mem_cons_self, (pure_eq_ok.1 h).symm, rfl⟩
      | true =>
        rw [if_pos (hxy.1 rfl)]
        have hlen : compare (x :: xs).length (y :: ys).length = compare xs.length ys.length := by
          simp [compare, compareOfLessAndEq]
        rw [hlen]
        rcases ih (fun x hx y hy =>
          hsame x (List.mem_cons_of_mem _ hx) y (List.mem_cons_of_mem _ hy)) h with
          ⟨p, hp, q, hq, hd⟩ | hd
        · exact .inl ⟨p, List.mem_cons_of_mem _ hp, q, List.mem_cons_of_mem _ hq, hd⟩
        · exact .inr hd

theorem firstDifference_ok {xs ys : List Handle}
    (h : ∀ x ∈ xs, ∀ y ∈ ys, ∃ r, equal x y heap = .ok r) :
    ∃ d, firstDifference xs ys heap = .ok d := by
  induction xs generalizing ys with
  | nil => cases ys <;> exact ⟨none, rfl⟩
  | cons x xs ih =>
    cases ys with
    | nil => exact ⟨none, rfl⟩
    | cons y ys =>
      obtain ⟨r, hr⟩ := h x List.mem_cons_self y List.mem_cons_self
      rw [firstDifference, bind_of_ok hr]
      cases r with
      | false => exact ⟨some (x, y), rfl⟩
      | true =>
        exact ih fun x hx y hy => h x (List.mem_cons_of_mem _ hx) y (List.mem_cons_of_mem _ hy)

end Heap

/-! ## Answers by verdicts -/

namespace Legible

variable (L : Legible heap see) {a b : Handle} {t u : Table Handle}

include L

open Classical in
/-- Whether a set has a member is a matter of keys. -/
theorem setContains_eq (ga : Grounded see a) (gb : Grounded see b) (ha : see a = some (.set t))
    (hb : see b = some (.set u)) {k : Handle} (hk : k ∈ t.toList) :
    Heap.setContains b k heap =
      .ok (decide (keyAt heap see k ∈ u.toList.map (keyAt heap see))) := by
  have gt : ∀ k ∈ t.toList, Grounded see k := fun k hk => ga.part ⟨_, ha, hk⟩
  have gu : ∀ q ∈ u.toList, Grounded see q := fun q hq => gb.part ⟨_, hb, hq⟩
  have ft : Filed see (t.filings id) := L.filed a _ ha
  have fu : Filed see (u.filings id) := L.filed b _ hb
  obtain ⟨h, κ, -, hκ, hh, hhash⟩ := L.keyed ft hk (gt k hk)
  have htest : ∀ q ∈ u.bucket h, ∃ r, Heap.equal q k heap = .ok r := fun q hq =>
    L.equality.total q k (gu q (Table.mem_of_mem_bucket hq)) (gt k hk)
  have hplace : ∀ p, Heap.findPlace (fun q => Heap.equal q k) (u.bucket h) heap = .ok p →
      Heap.setContains b k heap = .ok p.isSome := by
    intro p hp
    have hset := Heap.setPlace_eq_ok.2 ⟨hhash, u, L.shows b _ hb, hp⟩
    exact Heap.bind_eq_ok.2 ⟨_, hset, rfl⟩
  rcases Heap.findPlace_ok htest with ⟨i, q, hp, hq, heq⟩ | ⟨hp, hfalse⟩
  · rw [hplace _ hp]
    have hmem := Table.mem_of_mem_bucket (List.mem_of_getElem? hq)
    obtain ⟨l, -, heq⟩ := Heap.bind_eq_ok.1 heq
    have hkey := L.keyAt_eq fu ft hmem hk (gu q hmem) (gt k hk) heq
    exact congrArg Except.ok (decide_eq_true (List.mem_map.2 ⟨q, hmem, hkey.symm⟩)).symm
  · rw [hplace _ hp]
    refine congrArg Except.ok (decide_eq_false fun hm => ?_).symm
    obtain ⟨q, hq, hkey⟩ := List.mem_map.1 hm
    obtain ⟨h', κ', hbucket, hκ', hh', -⟩ := L.keyed fu hq (gu q hq)
    obtain rfl : κ' = κ := Option.some.inj (hκ'.symm.trans (hkey.trans hκ))
    obtain rfl : h' = h := Option.some.inj (hh'.symm.trans hh)
    obtain ⟨l, -, heq⟩ := Heap.bind_eq_ok.1 (hfalse q hbucket)
    exact absurd ((equal_iff_key L.shows hκ' hκ hh' hh heq).2 rfl) nofun

open Classical in
theorem isSubset_eq (ga : Grounded see a) (gb : Grounded see b) (ha : see a = some (.set t))
    (hb : see b = some (.set u)) : Heap.isSubset a b heap =
      .ok (decide (t.toList.map (keyAt heap see) ⊆ u.toList.map (keyAt heap see))) := by
  refine (bind_of_ok (Heap.set_eq_ok.2 (L.shows a _ ha))).trans ?_
  rw [Heap.allM_of_ok fun k hk => L.setContains_eq ga gb ha hb hk]
  refine congrArg Except.ok (Bool.eq_iff_iff.2 ?_)
  simp [List.subset_def]

open Classical in
theorem isSubset_if (ga : Grounded see a) (gb : Grounded see b) (ha : see a = some (.set t))
    (hb : see b = some (.set u)) {c : Prop} {r : Bool} [Decidable c]
    (hr : r = true ↔ c ∧ t.toList.map (keyAt heap see) ⊆ u.toList.map (keyAt heap see)) :
    (if c then Heap.isSubset a b else return false) heap = .ok r := by
  by_cases hc : c
  · rw [if_pos hc, L.isSubset_eq ga gb ha hb]
    apply congrArg Except.ok
    apply Bool.eq_iff_iff.2
    rw [hr, decide_eq_true_iff, and_iff_right hc]
  · rw [if_neg hc]
    apply congrArg Except.ok
    apply Bool.eq_iff_iff.2
    simp [hr, hc]

theorem nodup_set (ga : Grounded see a) (ha : see a = some (.set t)) :
    (t.toList.map (keyAt heap see)).Nodup :=
  ((readable_grounded see).entered_of L ga ha).nodup_set L

theorem orderedWithin_sets (ga : Grounded see a) (gb : Grounded see b)
    (ha : see a = some (.set t)) (hb : see b = some (.set u)) {op : Comparison} (hop : op.Orders)
    (n : Nat) : Heap.orderedWithin (n + 1) op a b heap = .ok ((inclusionVerdict
      (t.toList.map (keyAt heap see)) (u.toList.map (keyAt heap see))).holds op) := by
  have hswap : inclusionVerdict (u.toList.map (keyAt heap see)) (t.toList.map (keyAt heap see)) =
      (inclusionVerdict (t.toList.map (keyAt heap see)) (u.toList.map (keyAt heap see))).swap :=
    Option.some.inj (coherent_inclusion.swap _ _ (L.nodup_set ga ha) (L.nodup_set gb hb))
  have hta : t.Trim := L.trim a _ (L.shows a _ ha)
  have htb : u.Trim := L.trim b _ (L.shows b _ hb)
  have hlen : (t.toList.map (keyAt heap see)).length = t.size ∧
      (u.toList.map (keyAt heap see)).length = u.size := by
    rw [List.length_map, List.length_map, hta.length_toList, htb.length_toList]
    exact ⟨rfl, rfl⟩
  rw [Heap.orderedWithin, bind_of_ok (Heap.get_eq_ok.2 (L.shows a _ ha)),
    bind_of_ok (Heap.get_eq_ok.2 (L.shows b _ hb))]
  cases op with
  | eq => exact absurd rfl hop.1
  | ne => exact absurd rfl hop.2
  | lt =>
    apply L.isSubset_if ga gb ha hb
    rw [inclusionVerdict_lt, hlen.1, hlen.2]
  | le =>
    apply L.isSubset_if ga gb ha hb
    rw [inclusionVerdict_le, hlen.1, hlen.2]
  | gt =>
    apply L.isSubset_if gb ga hb ha
    rw [← (Verdict.swap_holds _).1, ← hswap, inclusionVerdict_lt, hlen.1, hlen.2]
  | ge =>
    apply L.isSubset_if gb ga hb ha
    rw [← (Verdict.swap_holds _).2, ← hswap, inclusionVerdict_le, hlen.1, hlen.2]

end Legible

section Verdict

variable (L : Legible heap see) {P : Handle → Prop} {op : Comparison} {n : Nat} {a b : Handle}

include L

theorem verdict_of_items (hP : Readable see P) {xs ys : Array Handle} {r : Bool}
    (hx : ∀ p ∈ xs.toList, P p) (hy : ∀ q ∈ ys.toList, P q)
    (hitems : ∀ p ∈ xs.toList, ∀ q ∈ ys.toList, ∀ r, Heap.orderedWithin n op p q heap = .ok r →
      ∃ v, heap.verdict see n p q = some v ∧ v.holds op = r)
    (h : (do
      match ← Heap.firstDifference xs.toList ys.toList with
      | some (x, y) => Heap.orderedWithin n op x y
      | none => return op.holds (compare xs.size ys.size) : Query Bool) heap = .ok r) :
    ∃ v, lexVerdict (heap.Resemble see) (heap.verdict see n) xs.toList ys.toList = some v ∧
      v.holds op = r := by
  obtain ⟨d, hd, h⟩ := Heap.bind_eq_ok.1 h
  rcases Heap.firstDifference_verdict (heap.verdict see n) (fun p hp q hq _ =>
    L.equal_iff_resemble hP (hx p hp) (hy q hq)) hd with ⟨p, hp, q, hq, rfl, hv⟩ | ⟨rfl, hv⟩
  · rw [hv]
    exact hitems p hp q hq r h
  · refine ⟨_, hv, ?_⟩
    rw [Verdict.holds_ofOrdering, Array.length_toList, Array.length_toList]
    exact Heap.pure_eq_ok.1 h

/-- **Answers.** A comparison answers as the verdict says, also on values that contain
themselves. -/
theorem orderedWithin_verdict (hP : Readable see P) (hop : op.Orders) {r : Bool} (ha : P a)
    (hb : P b) (h : Heap.orderedWithin n op a b heap = .ok r) :
    ∃ v, heap.verdict see n a b = some v ∧ v.holds op = r := by
  induction n generalizing a b r with
  | zero => cases h
  | succ n ih =>
    obtain ⟨x, hx, ex⟩ := hP.entered L ha
    obtain ⟨y, hy, ey⟩ := hP.entered L hb
    have hsets : ∀ t u, x = .set t → y = .set u →
        Heap.orderedWithin (n + 1) op a b heap = .ok ((inclusionVerdict
          (t.toList.map (Legible.keyAt heap see))
          (u.toList.map (Legible.keyAt heap see))).holds op) := by
      rintro t u rfl rfl
      exact L.orderedWithin_sets (.intro hx ex.key_of_set) (.intro hy ey.key_of_set) hx hy hop n
    have hanswer : ∀ {o : Ordering}, (pure (op.holds o) : Query Bool) heap = .ok r →
        (Verdict.ofOrdering o).holds op = r := fun h => by
      rw [Verdict.holds_ofOrdering]
      exact Heap.pure_eq_ok.1 h
    rw [Heap.verdict, hx, hy, Option.bind_some, Option.bind_some]
    rw [Heap.orderedWithin, bind_of_ok (Heap.get_eq_ok.2 (L.shows a x hx)),
      bind_of_ok (Heap.get_eq_ok.2 (L.shows b y hy))] at h hsets
    split at h
    case h_1 => exact ⟨_, rfl, hanswer h⟩
    case h_2 => exact ⟨_, rfl, hanswer h⟩
    case h_3 => exact verdict_of_items L hP ex.parts ey.parts (fun p hp q hq r =>
      ih (ex.parts p hp) (ey.parts q hq)) h
    case h_4 => exact verdict_of_items L hP ex.parts ey.parts (fun p hp q hq r =>
      ih (ex.parts p hp) (ey.parts q hq)) h
    case h_5 t u => exact ⟨_, rfl, Except.ok.inj ((hsets t u rfl rfl).symm.trans h)⟩
    case h_6 =>
      have hno : (Heap.unsupported op.name a b : Query Bool) heap ≠ .ok r := fun h => by
        obtain ⟨e, he⟩ := Heap.unsupported_error op.name a b
        cases h.symm.trans he
      cases hi : x.asInt? with
      | none =>
        rw [hi] at h
        exact absurd h hno
      | some i =>
        cases hj : y.asInt? with
        | none =>
          rw [hi, hj] at h
          exact absurd h hno
        | some j =>
          rw [hi, hj] at h
          rw [Object.rank?_of_asInt? hi, Object.rank?_of_asInt? hj]
          exact ⟨_, rfl, hanswer h⟩

theorem items_ok {xs ys : Array Handle} {v : Verdict} (hx : ∀ p ∈ xs.toList, Grounded see p)
    (hy : ∀ q ∈ ys.toList, Grounded see q)
    (hitems : ∀ p ∈ xs.toList, ∀ q ∈ ys.toList, heap.verdict see n p q = some v →
      ∃ r, Heap.orderedWithin n op p q heap = .ok r)
    (h : lexVerdict (heap.Resemble see) (heap.verdict see n) xs.toList ys.toList = some v) :
    ∃ r, (do
      match ← Heap.firstDifference xs.toList ys.toList with
      | some (x, y) => Heap.orderedWithin n op x y
      | none => return op.holds (compare xs.size ys.size) : Query Bool) heap = .ok r := by
  obtain ⟨d, hd⟩ := Heap.firstDifference_ok fun p hp q hq =>
    L.equality.total p q (hx p hp) (hy q hq)
  rw [bind_of_ok hd]
  rcases Heap.firstDifference_verdict (heap.verdict see n) (fun p hp q hq _ =>
    L.equal_iff_resemble (readable_grounded see) (hx p hp) (hy q hq)) hd with
    ⟨p, hp, q, hq, rfl, hv⟩ | ⟨rfl, -⟩
  · exact hitems p hp q hq (hv.symm.trans h)
  · exact ⟨_, rfl⟩

omit L in
theorem orderedWithin_numbers {x y : Object} {i j : Int64} (hx : heap.get? a = some x)
    (hy : heap.get? b = some y) (hi : x.asInt? = some i) (hj : y.asInt? = some j) :
    Heap.orderedWithin (n + 1) op a b heap = .ok (op.holds (compare i j)) := by
  rw [Heap.orderedWithin, bind_of_ok (Heap.get_eq_ok.2 hx), bind_of_ok (Heap.get_eq_ok.2 hy)]
  cases x <;> simp only [Object.asInt?, reduceCtorEq] at hi <;>
    cases y <;> simp only [Object.asInt?, reduceCtorEq] at hj <;>
    (obtain rfl := Option.some.inj hi; obtain rfl := Option.some.inj hj; rfl)

theorem orderedWithin_ok (hop : op.Orders) {v : Verdict} (ga : Grounded see a)
    (gb : Grounded see b) (h : heap.verdict see n a b = some v) :
    ∃ r, Heap.orderedWithin n op a b heap = .ok r := by
  induction n generalizing a b v with
  | zero => cases h
  | succ n ih =>
    obtain ⟨r, hr, h⟩ := Option.bind_eq_some_iff.1 h
    obtain ⟨r', hr', h⟩ := Option.bind_eq_some_iff.1 h
    obtain ⟨x, hx, hr⟩ := Option.bind_eq_some_iff.1 hr
    obtain ⟨y, hy, hr'⟩ := Option.bind_eq_some_iff.1 hr'
    have hparts : ∀ p ∈ x.parts, Grounded see p := fun p hp => ga.part ⟨x, hx, hp⟩
    have hparts' : ∀ q ∈ y.parts, Grounded see q := fun q hq => gb.part ⟨y, hy, hq⟩
    have hget := Heap.get_eq_ok.2 (L.shows a x hx)
    have hget' := Heap.get_eq_ok.2 (L.shows b y hy)
    cases Rank.kin_of_judge h with
    | number i j => exact ⟨_, orderedWithin_numbers (L.shows a x hx) (L.shows b y hy)
        (Object.of_rank?_number hr) (Object.of_rank?_number hr')⟩
    | text s t =>
      obtain ⟨_, rfl⟩ := Object.of_rank?_text hr
      obtain ⟨_, rfl⟩ := Object.of_rank?_text hr'
      rw [Heap.orderedWithin, bind_of_ok hget, bind_of_ok hget']
      exact ⟨_, rfl⟩
    | bytes s t =>
      obtain rfl := Object.of_rank?_bytes hr
      obtain rfl := Object.of_rank?_bytes hr'
      rw [Heap.orderedWithin, bind_of_ok hget, bind_of_ok hget']
      exact ⟨_, rfl⟩
    | list xs ys =>
      obtain rfl := Object.of_rank?_list hr
      obtain rfl := Object.of_rank?_list hr'
      rw [Heap.orderedWithin, bind_of_ok hget, bind_of_ok hget']
      exact items_ok L hparts hparts' (fun p hp q hq => ih (hparts p hp) (hparts' q hq)) h
    | tuple xs ys =>
      obtain rfl := Object.of_rank?_tuple hr
      obtain rfl := Object.of_rank?_tuple hr'
      rw [Heap.orderedWithin, bind_of_ok hget, bind_of_ok hget']
      exact items_ok L hparts hparts' (fun p hp q hq => ih (hparts p hp) (hparts' q hq)) h
    | set s t =>
      obtain ⟨t, rfl, -⟩ := Object.of_rank?_set hr
      obtain ⟨u, rfl, -⟩ := Object.of_rank?_set hr'
      exact ⟨_, L.orderedWithin_sets ga gb hx hy hop n⟩

/-- **Comparisons.** They answer as the verdict says, if there is one. -/
theorem orderedWithin_judged (hop : op.Orders) (ga : Grounded see a) (gb : Grounded see b) :
    Answers (Heap.orderedWithin n op a b heap) ((heap.verdict see n a b).map (·.holds op)) := by
  have hP := readable_grounded see
  cases hr : Heap.orderedWithin n op a b heap with
  | ok r =>
    obtain ⟨v, hv, rfl⟩ := orderedWithin_verdict L hP hop ga gb hr
    rw [hv]
    rfl
  | error e =>
    cases hv : heap.verdict see n a b with
    | none => exact ⟨e, rfl⟩
    | some v =>
      obtain ⟨r, hr'⟩ := orderedWithin_ok L hop ga gb hv
      rw [hr] at hr'
      cases hr'

end Verdict

/-! ## Coherence of the comparisons -/

/-- A value without a set in it, as far as lists and tuples are nested. -/
inductive SetFree (see : Handle → Option Object) : Handle → Prop
  | intro {v : Handle} {o : Object} : see v = some o → (∀ t, o ≠ .set t) →
      (∀ items, o.asSequence? = some items → ∀ p ∈ items.toList, SetFree see p) → SetFree see v

/-- One of three holds, and the other two do not. -/
def ExactlyOne (p q r : Prop) : Prop := p ∧ ¬ q ∧ ¬ r ∨ ¬ p ∧ q ∧ ¬ r ∨ ¬ p ∧ ¬ q ∧ r

/-- The four ordering comparisons fit together, with each other and with equality. -/
structure OrderCoherent (heap : Heap) (see : Handle → Option Object) : Prop where
  defined : ∀ a b op op', Grounded see a → Grounded see b → op.Orders → op'.Orders →
    (∃ r, Heap.compares op a b heap = .ok r) →
    (∃ r, Heap.compares op' a b heap = .ok r) ∧ ∃ r, Heap.compares op' b a heap = .ok r
  lt_iff_gt : ∀ a b r, Grounded see a → Grounded see b →
    (Heap.compares .lt a b heap = .ok r ↔ Heap.compares .gt b a heap = .ok r)
  le_iff_ge : ∀ a b r, Grounded see a → Grounded see b →
    (Heap.compares .le a b heap = .ok r ↔ Heap.compares .ge b a heap = .ok r)
  le_iff : ∀ a b, Grounded see a → Grounded see b → (∃ r, Heap.compares .le a b heap = .ok r) →
    (Heap.compares .le a b heap = .ok true ↔
      Heap.compares .lt a b heap = .ok true ∨ Heap.equal a b heap = .ok true)
  irrefl : ∀ a, Grounded see a → Heap.compares .lt a a heap ≠ .ok true
  trans : ∀ a b c, Grounded see a → Grounded see b → Grounded see c →
    Heap.compares .lt a b heap = .ok true → Heap.compares .lt b c heap = .ok true →
    Heap.compares .lt a c heap = .ok true
  antisymm : ∀ a b, Grounded see a → Grounded see b → Heap.compares .le a b heap = .ok true →
    Heap.compares .ge a b heap = .ok true → Heap.equal a b heap = .ok true
  trichotomy : ∀ a b, Grounded see a → Grounded see b → SetFree see a → SetFree see b →
    (∃ r, Heap.compares .lt a b heap = .ok r) →
    ExactlyOne (Heap.compares .lt a b heap = .ok true) (Heap.equal a b heap = .ok true)
      (Heap.compares .gt a b heap = .ok true)

theorem compares_eq {op : Comparison} (hop : op.Orders) (a b : Handle) :
    Heap.compares op a b heap = Heap.orderedWithin (heap.capacity + 1) op a b heap := by
  cases op with
  | eq => exact absurd rfl hop.1
  | ne => exact absurd rfl hop.2
  | lt | le | gt | ge => exact bind_of_ok (Heap.depth_eq_ok.2 rfl)

/-- A verdict by the first difference is that on two elements, or nothing is apart. -/
theorem lexVerdict_apart {same : Handle → Handle → Prop}
    {verdict : Handle → Handle → Option Verdict} {xs ys : List Handle}
    (h : lexVerdict same verdict xs ys = some .apart) :
    ∃ x ∈ xs, ∃ y ∈ ys, verdict x y = some .apart := by
  induction xs generalizing ys with
  | nil => cases ys <;> cases h
  | cons x xs ih =>
    cases ys with
    | nil => cases h
    | cons y ys =>
      rw [lexVerdict_cons] at h
      split at h
      · obtain ⟨p, hp, q, hq, hv⟩ := ih h
        exact ⟨p, List.mem_cons_of_mem _ hp, q, List.mem_cons_of_mem _ hq, hv⟩
      · exact ⟨x, List.mem_cons_self, y, List.mem_cons_self, h⟩

theorem verdict_ne_apart {n : Nat} {a b : Handle} (fa : SetFree see a) (fb : SetFree see b) :
    heap.verdict see n a b ≠ some .apart := by
  induction n generalizing a b with
  | zero => nofun
  | succ n ih =>
    intro hv
    obtain ⟨hx, hset, hitems⟩ := fa
    obtain ⟨hy, -, hitems'⟩ := fb
    rename_i x y
    rw [Heap.verdict, hx, hy, Option.bind_some, Option.bind_some] at hv
    obtain ⟨r, hr, hv⟩ := Option.bind_eq_some_iff.1 hv
    obtain ⟨r', hr', hv⟩ := Option.bind_eq_some_iff.1 hv
    cases Rank.kin_of_judge hv with
    | number | text | bytes => exact Verdict.ofOrdering_ne_apart _ (Option.some.inj hv)
    | list xs ys =>
      obtain rfl := Object.of_rank?_list hr
      obtain rfl := Object.of_rank?_list hr'
      obtain ⟨p, hp, q, hq, hpq⟩ := lexVerdict_apart hv
      exact ih (hitems _ rfl p hp) (hitems' _ rfl q hq) hpq
    | tuple xs ys =>
      obtain rfl := Object.of_rank?_tuple hr
      obtain rfl := Object.of_rank?_tuple hr'
      obtain ⟨p, hp, q, hq, hpq⟩ := lexVerdict_apart hv
      exact ih (hitems _ rfl p hp) (hitems' _ rfl q hq) hpq
    | set s t =>
      obtain ⟨t, rfl, -⟩ := Object.of_rank?_set hr
      exact hset t rfl

namespace Legible

variable (L : Legible heap see) {a b : Handle}

include L

theorem compares_iff {op : Comparison} (hop : op.Orders) (ga : Grounded see a)
    (gb : Grounded see b) {r : Bool} : Heap.compares op a b heap = .ok r ↔
      ∃ v, heap.verdict see (heap.capacity + 1) a b = some v ∧ v.holds op = r := by
  have h := orderedWithin_judged L (n := heap.capacity + 1) hop ga gb
  rw [compares_eq hop]
  cases hv : heap.verdict see (heap.capacity + 1) a b with
  | none =>
    rw [hv] at h
    obtain ⟨e, he⟩ := h
    simp [he]
  | some v =>
    rw [hv] at h
    have hanswer : Heap.orderedWithin (heap.capacity + 1) op a b heap = .ok (v.holds op) := h
    simp [hanswer]

theorem verdict_swap (ga : Grounded see a) (gb : Grounded see b) {v : Verdict}
    (hv : heap.verdict see (heap.capacity + 1) a b = some v) :
    heap.verdict see (heap.capacity + 1) b a = some v.swap := by
  rw [(L.coherent_verdict (readable_grounded see) _).swap a b ga gb, hv, Option.map_some]

theorem compares_swap {op op' : Comparison} (hop : op.Orders) (hop' : op'.Orders)
    (hholds : ∀ v : Verdict, v.swap.holds op' = v.holds op ∧ v.swap.holds op = v.holds op')
    (ga : Grounded see a) (gb : Grounded see b) {r : Bool} :
    Heap.compares op a b heap = .ok r ↔ Heap.compares op' b a heap = .ok r := by
  rw [L.compares_iff hop ga gb, L.compares_iff hop' gb ga]
  constructor
  · rintro ⟨v, hv, rfl⟩
    exact ⟨v.swap, L.verdict_swap ga gb hv, (hholds v).1⟩
  · rintro ⟨v, hv, rfl⟩
    exact ⟨v.swap, L.verdict_swap gb ga hv, (hholds v).2⟩

theorem compares_lt_iff (ga : Grounded see a) (gb : Grounded see b) :
    Heap.compares .lt a b heap = .ok true ↔
      heap.verdict see (heap.capacity + 1) a b = some .less := by
  have hlt : Comparison.lt.Orders := ⟨nofun, nofun⟩
  rw [L.compares_iff hlt ga gb]
  constructor
  · rintro ⟨v, hv, hholds⟩
    rw [hv, beq_iff_eq.1 hholds]
  · exact fun hv => ⟨_, hv, rfl⟩

/-- **Coherence.** On grounded values the comparisons fit together. -/
theorem orderCoherent : OrderCoherent heap see := by
  have C := L.coherent_verdict (readable_grounded see) (heap.capacity + 1)
  have hlt : Comparison.lt.Orders := ⟨nofun, nofun⟩
  have hle : Comparison.le.Orders := ⟨nofun, nofun⟩
  have hgt : Comparison.gt.Orders := ⟨nofun, nofun⟩
  have hge : Comparison.ge.Orders := ⟨nofun, nofun⟩
  refine
    { defined := fun a b op op' ga gb hop hop' ⟨r, hr⟩ => ?defined
      lt_iff_gt := fun a b r ga gb => L.compares_swap hlt hgt (fun v => ?turned_lt) ga gb
      le_iff_ge := fun a b r ga gb => L.compares_swap hle hge (fun v => ?turned_le) ga gb
      le_iff := fun a b ga gb ⟨r, hr⟩ => ?le_iff
      irrefl := fun a ga h => ?irrefl
      trans := fun a b c ga gb gc hab hbc => ?trans
      antisymm := fun a b ga gb hab hba => ?antisymm
      trichotomy := fun a b ga gb fa fb ⟨r, hr⟩ => ?trichotomy }
  case defined =>
    obtain ⟨v, hv, -⟩ := (L.compares_iff hop ga gb).1 hr
    exact ⟨⟨_, (L.compares_iff hop' ga gb).2 ⟨v, hv, rfl⟩⟩,
      _, (L.compares_iff hop' gb ga).2 ⟨v.swap, L.verdict_swap ga gb hv, rfl⟩⟩
  case turned_lt | turned_le => cases v <;> exact ⟨rfl, rfl⟩
  case le_iff =>
    obtain ⟨v, hv, -⟩ := (L.compares_iff hle ga gb).1 hr
    have hsame := C.same_iff a b v ga gb hv
    rw [L.compares_lt_iff ga gb, L.compares_iff hle ga gb, hv, L.equal_true_iff ga gb, ← hsame]
    cases v <;> simp [Verdict.holds]
  case irrefl => exact C.not_same ga ga ((L.compares_lt_iff ga ga).1 h) (.refl a)
  case trans =>
    rw [L.compares_lt_iff ga gb] at hab
    rw [L.compares_lt_iff gb gc] at hbc
    rw [L.compares_lt_iff ga gc]
    exact C.trans a b c ga gb gc hab hbc
  case antisymm =>
    obtain ⟨v, hv, hholds⟩ := (L.compares_iff hle ga gb).1 hab
    obtain ⟨v', hv', hholds'⟩ := (L.compares_iff hge ga gb).1 hba
    rw [hv, Option.some.injEq] at hv'
    subst hv'
    apply (L.equal_true_iff ga gb).2
    apply (C.same_iff a b v ga gb hv).1
    cases v <;> simp_all [Verdict.holds]
  case trichotomy =>
    obtain ⟨v, hv, -⟩ := (L.compares_iff hlt ga gb).1 hr
    have hsame := C.same_iff a b v ga gb hv
    have hgreater : Heap.compares .gt a b heap = .ok true ↔ v = .greater := by
      rw [L.compares_iff hgt ga gb, hv]
      simp [Verdict.holds]
    rw [ExactlyOne, L.compares_lt_iff ga gb, L.equal_true_iff ga gb, ← hsame, hgreater, hv,
      Option.some.injEq]
    cases v with
    | apart => exact absurd hv (verdict_ne_apart fa fb)
    | less | same | greater => simp

end Legible

/-- **Ordering in runs.** In every state that a run reaches the ordering comparisons fit together on
valid values that do not contain themselves, whatever issued handles the run used as long as they
are not lost, or if the run used live handles only. -/
theorem order_coherent {settings : Settings} {disk : Disk} {s : Space} :
    (∀ lost, Ran settings disk s lost → OrderCoherent s.heap (seeKept lost s.heap)) ∧
      (LiveRun settings disk s → OrderCoherent s.heap (seeLive s.heap)) :=
  ⟨fun _ r => r.legible.orderCoherent, fun r => r.legible.orderCoherent⟩

theorem compares_numbers {a b : Handle} {x y : Object} {i j : Int64} (hx : heap.get? a = some x)
    (hy : heap.get? b = some y) (hi : x.asInt? = some i) (hj : y.asInt? = some j) :
    Heap.compares .lt a b heap = .ok (Comparison.lt.holds (compare i j)) := by
  have hlt : Comparison.lt.Orders := ⟨nofun, nofun⟩
  rw [compares_eq hlt]
  exact orderedWithin_numbers hx hy hi hj

/-- False is less than True and True less than 2, so False is less than 2, and the other three
comparisons answer on 2 and False. -/
theorem order_coherent_numbers :
    ∃ s lost a b c, Ran {} {} s lost ∧ LiveRun {} {} s ∧
      s.heap.get? a = some (.bool false) ∧ s.heap.get? b = some (.bool true) ∧
      s.heap.get? c = some (.int 2) ∧ Heap.compares .lt a b s.heap = .ok true ∧
      Heap.compares .lt b c s.heap = .ok true ∧ Heap.compares .lt a c s.heap = .ok true ∧
      ∃ r, Heap.compares .ge c a s.heap = .ok r := by
  obtain ⟨s₀, h₀⟩ := Space.create_ok {} rfl {}
  obtain ⟨n, -⟩ := Space.create_new h₀
  let t : Turn := .operation (.newInt 2)
  obtain ⟨c, x, p⟩ := leave_newInt (Space.create_sound h₀).roomy 2
  have r := Ran.turn t (.start h₀) nofun
  have l := LiveRun.turn t (.start h₀) nofun
  have ha : Arena.Has _ s₀.falseValue (Object.bool false) := p.has (n.boolean false)
  have hb : Arena.Has _ s₀.trueValue (Object.bool true) := p.has (n.boolean true)
  have hc := p.has_self
  have hkept : ∀ v o, Arena.Has (t.leave s₀).heap v o → o.parts = [] →
      Grounded (seeKept _ (t.leave s₀).heap) v := fun v o hv hp =>
    .intro (seeKept_eq_some.2 ⟨not_lost t (Set.notMem_empty v) (.inr hv.current), hv.2⟩)
      (by simp [hp])
  have hlive : ∀ v o, Arena.Has (t.leave s₀).heap v o → o.parts = [] →
      Grounded (seeLive (t.leave s₀).heap) v := fun v o hv hp =>
    .intro (seeLive_eq_some.2 hv) (by simp [hp])
  have hab := compares_numbers ha.2 hb.2 rfl rfl
  have hbc := compares_numbers hb.2 hc.2 rfl rfl
  have hac := (order_coherent.1 _ r).trans _ _ _ (hkept _ _ ha rfl) (hkept _ _ hb rfl)
    (hkept _ _ hc rfl) hab hbc
  have hge := ((order_coherent.2 l).defined _ _ .lt .ge (hlive _ _ ha rfl) (hlive _ _ hc rfl)
    ⟨nofun, nofun⟩ ⟨nofun, nofun⟩ ⟨_, hac⟩).2
  exact ⟨_, _, _, _, c, r, l, ha.2, hb.2, hc.2, hab, hbc, hac, hge⟩

end ObjectSpace
