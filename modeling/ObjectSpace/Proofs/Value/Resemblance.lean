import ObjectSpace.Proofs.Value.Legible
import ObjectSpace.Proofs.Value.Verdicts
import Mathlib.Order.FixedPoints

/-!
# Values that contain themselves

A list may come to contain itself. Then comparing it need not end; but an answer does not depend on
how deep the comparison had to go for it.

**Resemblance.** Two values resemble each other when they are one value or have the same content,
and so have their parts, and the parts of their parts, and so on for ever. This is the greatest
relation with the first property (`Heap.Resemble`). It does not mention depth, and it makes sense
for values that contain themselves.

**Theorem (`equalWithin_iff`, `sameOn_resemble`).** Whenever equality answers, it answers whether
the values resemble each other; and resemblance is an equivalence.

What dicts and sets have stored as keys is assumed not to contain itself (`Readable`).
-/

namespace ObjectSpace

/-! ## Lists of parts -/

section Lists

variable {R S T : Handle → Handle → Prop} {xs ys zs : List Handle}

theorem forall₂_symm (h : List.Forall₂ R xs ys)
    (hR : ∀ x ∈ xs, ∀ y ∈ ys, R x y → S y x) : List.Forall₂ S ys xs := by
  induction h with
  | nil => exact .nil
  | cons h _ ih =>
    refine .cons (hR _ List.mem_cons_self _ List.mem_cons_self h) (ih fun x hx y hy => ?_)
    exact hR x (List.mem_cons_of_mem _ hx) y (List.mem_cons_of_mem _ hy)

theorem forall₂_trans (h₁ : List.Forall₂ R xs ys) (h₂ : List.Forall₂ S ys zs)
    (hR : ∀ x ∈ xs, ∀ y ∈ ys, ∀ z ∈ zs, R x y → S y z → T x z) : List.Forall₂ T xs zs := by
  induction h₁ generalizing zs with
  | nil =>
    cases h₂
    exact .nil
  | cons h _ ih =>
    obtain _ | ⟨h', h₂⟩ := h₂
    refine .cons (hR _ List.mem_cons_self _ List.mem_cons_self _ List.mem_cons_self h h')
      (ih h₂ fun x hx y hy z hz => ?_)
    exact hR x (List.mem_cons_of_mem _ hx) y (List.mem_cons_of_mem _ hy) z
      (List.mem_cons_of_mem _ hz)

end Lists

theorem Progression.sameTerms_symm {p q : Progression} (h : p.sameTerms q = true) :
    q.sameTerms p = true := by
  simp only [sameTerms, decide_eq_true_eq] at h ⊢
  grind

theorem Progression.sameTerms_trans {p q r : Progression} (h₁ : p.sameTerms q = true)
    (h₂ : q.sameTerms r = true) : p.sameTerms r = true := by
  simp only [sameTerms, decide_eq_true_eq] at h₁ h₂ ⊢
  grind

/-! ## Objects that resemble each other -/

/-- Two objects have the same content, where parts are compared by a relation and what is stored in
tables is found by its key. -/
inductive Object.Resembles (key : Handle → Option Key) (R : Handle → Handle → Prop) :
    Object → Object → Prop
  | str (s : String) (x y : Option UInt64) : Resembles key R (.str s x) (.str s y)
  | bytes (bs : Array UInt8) : Resembles key R (.bytes bs) (.bytes bs)
  | list {xs ys : Array Handle} : List.Forall₂ R xs.toList ys.toList →
      Resembles key R (.list xs) (.list ys)
  | tuple {xs ys : Array Handle} : List.Forall₂ R xs.toList ys.toList →
      Resembles key R (.tuple xs) (.tuple ys)
  | dict {d e : Table (Handle × Handle)} : d.size = e.size →
      Covers (fun p => key p.1) (fun p q => R p.2 q.2) d.toList e.toList →
      Resembles key R (.dict d) (.dict e)
  | set {d e : Table Handle} : d.size = e.size →
      Covers key (fun _ _ => True) d.toList e.toList → Resembles key R (.set d) (.set e)
  | range {p q : Progression} : p.sameTerms q = true → Resembles key R (.range p) (.range q)
  | boundMethod (r f : Handle) : Resembles key R (.boundMethod r f) (.boundMethod r f)
  | number {x y : Object} {i : Int64} : x.asInt? = some i → y.asInt? = some i →
      Resembles key R x y

theorem Object.value_mem_parts {d : Table (Handle × Handle)} {p : Handle × Handle}
    (hp : p ∈ d.toList) : p.2 ∈ (Object.dict d).parts :=
  List.mem_flatMap.2 ⟨p, hp, by simp⟩

/-- Every handle that a dict has stored as a key is filed. -/
theorem Object.exists_filing_of_dict {d : Table (Handle × Handle)} {p : Handle × Handle}
    (hp : p ∈ d.toList) : ∃ hash, (hash, p.1) ∈ (Object.dict d).filings := by
  obtain ⟨hash, hm⟩ := Table.mem_toList.1 hp
  exact ⟨hash, Table.mem_filings.2 ⟨p, Table.mem_bucket.2 hm, rfl⟩⟩

/-- Every member of a set is filed. -/
theorem Object.exists_filing_of_set {u : Table Handle} {k : Handle} (hk : k ∈ u.toList) :
    ∃ hash, (hash, k) ∈ (Object.set u).filings := by
  obtain ⟨hash, hm⟩ := Table.mem_toList.1 hk
  exact ⟨hash, Table.mem_filings.2 ⟨k, Table.mem_bucket.2 hm, rfl⟩⟩

/-- An object whose parts satisfy `P`, whose table is trim and whose entries are filed. -/
structure Parted (see : Handle → Option Object) (P : Handle → Prop) (o : Object) : Prop where
  trim : o.Trim
  filed : Filed see o.filings
  parts : ∀ p ∈ o.parts, P p

/-- An object whose parts satisfy `P`, whose table is trim and whose entries are filed, and whose
stored keys do not contain themselves. -/
structure Entered (see : Handle → Option Object) (P : Handle → Prop) (o : Object) : Prop
    extends Parted see P o where
  keys : ∀ e ∈ o.filings, Grounded see e.2

namespace Entered

variable {heap : Heap} {see : Handle → Option Object} {P : Handle → Prop}
  {d : Table (Handle × Handle)} {u : Table Handle}

theorem key_of_dict (h : Entered see P (.dict d)) : ∀ p ∈ d.toList, Grounded see p.1 := by
  intro p hp
  obtain ⟨hash, hm⟩ := Object.exists_filing_of_dict hp
  exact h.keys _ hm

theorem value_of_dict (h : Entered see P (.dict d)) : ∀ p ∈ d.toList, P p.2 := fun _ hp =>
  h.parts _ (Object.value_mem_parts hp)

theorem key_of_set (h : Entered see P (.set u)) : ∀ k ∈ u.toList, Grounded see k := by
  intro k hk
  obtain ⟨hash, hm⟩ := Object.exists_filing_of_set hk
  exact h.keys _ hm

/-- A key that a dict has stored has the hash of its key. -/
theorem keyed_of_dict (L : Legible heap see) (h : Entered see P (.dict d)) {p : Handle × Handle}
    (hp : p ∈ d.toList) : ∃ hash κ, Legible.keyAt heap see p.1 = some κ ∧ κ.hash? = some hash ∧
      Heap.hash p.1 heap = .ok hash := by
  obtain ⟨hash, κ, -, hkeyed⟩ := L.keyed h.filed hp (h.key_of_dict p hp)
  exact ⟨hash, κ, hkeyed⟩

/-- A member of a set has the hash of its key. -/
theorem keyed_of_set (L : Legible heap see) (h : Entered see P (.set u)) {k : Handle}
    (hk : k ∈ u.toList) : ∃ hash κ, Legible.keyAt heap see k = some κ ∧ κ.hash? = some hash ∧
      Heap.hash k heap = .ok hash := by
  obtain ⟨hash, κ, -, hkeyed⟩ :=
    L.keyed (h.filed : Filed see (u.filings id)) hk (h.key_of_set k hk)
  exact ⟨hash, κ, hkeyed⟩

theorem nodup_dict (L : Legible heap see) (h : Entered see P (.dict d)) :
    (d.toList.map fun p => Legible.keyAt heap see p.1).Nodup :=
  L.nodup_keys h.filed h.key_of_dict

theorem nodup_set (L : Legible heap see) (h : Entered see P (.set u)) :
    (u.toList.map (Legible.keyAt heap see)).Nodup :=
  L.nodup_keys (h.filed : Filed see (u.filings id)) h.key_of_set

end Entered

namespace Object.Resembles

variable {key : Handle → Option Key} {R S T : Handle → Handle → Prop} {x y z : Object}

theorem mono (h : x.Resembles key R y) (hRS : ∀ p ∈ x.parts, ∀ q ∈ y.parts, R p q → S p q) :
    x.Resembles key S y := by
  cases h with
  | list h => exact .list (forall₂_mono h hRS)
  | tuple h => exact .tuple (forall₂_mono h hRS)
  | dict hsize h =>
    refine .dict hsize fun p hp => ?_
    obtain ⟨q, hq, hkey, hpq⟩ := h p hp
    exact ⟨q, hq, hkey, hRS _ (Object.value_mem_parts hp) _ (Object.value_mem_parts hq) hpq⟩
  | set hsize h => exact .set hsize h
  | range hp => exact .range hp
  | number hi hj => exact .number hi hj
  | str | bytes | boundMethod => constructor

section Entered

variable {heap : Heap} {see : Handle → Option Object} {P : Handle → Prop}
  (hx : Entered see P x) (hy : Entered see P y)

include hx hy

theorem symm (L : Legible heap see) (h : x.Resembles (Legible.keyAt heap see) R y)
    (hRS : ∀ p q, P p → P q → R p q → S q p) : y.Resembles (Legible.keyAt heap see) S x := by
  have hparts : ∀ p ∈ x.parts, ∀ q ∈ y.parts, R p q → S q p := fun p hp q hq =>
    hRS p q (hx.parts p hp) (hy.parts q hq)
  cases h with
  | list h => exact .list (forall₂_symm h hparts)
  | tuple h => exact .tuple (forall₂_symm h hparts)
  | @dict d e hsize h =>
    have hlen := (Table.Trim.size_eq_iff (t := d) (u := e) hx.trim hy.trim).1 hsize
    refine .dict hsize.symm (h.symm (hx.nodup_dict L) (hy.nodup_dict L) hlen fun p hp q hq => ?_)
    exact hRS _ _ (hx.value_of_dict p hp) (hy.value_of_dict q hq)
  | @set d e hsize h =>
    have hlen := (Table.Trim.size_eq_iff (t := d) (u := e) hx.trim hy.trim).1 hsize
    exact .set hsize.symm (h.symm (hx.nodup_set L) (hy.nodup_set L) hlen fun _ _ _ _ => id)
  | range hp => exact .range (Progression.sameTerms_symm hp)
  | number hi hj => exact .number hj hi
  | str | bytes | boundMethod => constructor

theorem trans {key : Handle → Option Key} (hz : Entered see P z) (h : x.Resembles key R y)
    (h' : y.Resembles key S z) (hRST : ∀ p q r, P p → P q → P r → R p q → S q r → T p r) :
    x.Resembles key T z := by
  have hparts : ∀ p ∈ x.parts, ∀ q ∈ y.parts, ∀ r ∈ z.parts, R p q → S q r → T p r :=
    fun p hp q hq r hr => hRST p q r (hx.parts p hp) (hy.parts q hq) (hz.parts r hr)
  cases h with
  | str => cases h' with
    | str => exact .str ..
    | number hi => cases hi
  | bytes => cases h' with
    | bytes => exact .bytes _
    | number hi => cases hi
  | boundMethod => cases h' with
    | boundMethod => exact .boundMethod ..
    | number hi => cases hi
  | range hp => cases h' with
    | range hq => exact .range (Progression.sameTerms_trans hp hq)
    | number hi => cases hi
  | number hi hj => cases h' with
    | number hj' hk =>
      rw [hj, Option.some.injEq] at hj'
      exact .number hi (hj' ▸ hk)
    | _ => cases hj
  | list h => cases h' with
    | list h' => exact .list (forall₂_trans h h' hparts)
    | number hi => cases hi
  | tuple h => cases h' with
    | tuple h' => exact .tuple (forall₂_trans h h' hparts)
    | number hi => cases hi
  | dict hsize h => cases h' with
    | dict hsize' h' =>
      refine .dict (hsize.trans hsize') (h.trans h' fun p hp q hq r hr => ?_)
      exact hRST _ _ _ (hx.value_of_dict p hp) (hy.value_of_dict q hq) (hz.value_of_dict r hr)
    | number hi => cases hi
  | set hsize h => cases h' with
    | set hsize' h' =>
      exact .set (hsize.trans hsize') (h.trans h' fun _ _ _ _ _ _ _ _ => trivial)
    | number hi => cases hi

end Entered

end Object.Resembles

/-! ## Content that is compared -/

/-- Where comparing answers on values with `P`, it answers whether they are related. -/
def Agrees (heap : Heap) (P : Handle → Prop) (R : Handle → Handle → Prop)
    (related : Handle → Handle → Query Bool) : Prop :=
  ∀ a b r, P a → P b → related a b heap = .ok r → (r = true ↔ R a b)

section Content

variable {heap : Heap} {see : Handle → Option Object} {P : Handle → Prop} (L : Legible heap see)
  {R : Handle → Handle → Prop} {n : Nat} {x y : Object} {r : Bool}
  (hR : Agrees heap P R (Heap.equalWithin n)) (hx : Entered see P x) (hy : Entered see P y)

include L hR hx hy

/-- Objects that are found to have the same content resemble each other. -/
theorem resembles_of_same (h : Heap.Same heap (Heap.equalWithin n) x y) :
    x.Resembles (Legible.keyAt heap see) R y := by
  have hparts : ∀ p ∈ x.parts, ∀ q ∈ y.parts, Heap.Yes heap (Heap.equalWithin n) p q → R p q :=
    fun p hp q hq h => (hR p q true (hx.parts p hp) (hy.parts q hq) h).1 rfl
  cases h with
  | list h => exact .list (forall₂_mono h hparts)
  | tuple h => exact .tuple (forall₂_mono h hparts)
  | @dict d e hsize h =>
    refine .dict hsize fun p hp => ?_
    obtain ⟨hash, hhash, q, hq, hv⟩ := h p hp
    obtain ⟨hash', κ, hκ, hh, hhash'⟩ := hx.keyed_of_dict L hp
    obtain rfl : hash = hash' := Except.ok.inj (hhash.symm.trans hhash')
    obtain ⟨hqe, hkey⟩ := (L.found_iff hy.filed hy.key_of_dict hκ hh hq).1 rfl
    exact ⟨q, hqe, hkey,
      (hR _ _ true (hx.value_of_dict p hp) (hy.value_of_dict q hqe) hv).1 rfl⟩
  | @set d e hsize h =>
    refine .set hsize fun k hk => ?_
    obtain ⟨hash, hhash, hany⟩ := h k hk
    obtain ⟨hash', κ, hκ, hh, hhash'⟩ := hx.keyed_of_set L hk
    obtain rfl : hash = hash' := Except.ok.inj (hhash.symm.trans hhash')
    obtain ⟨o, ho, hsome⟩ := Heap.findM?_of_anyM hany
    obtain ⟨q, rfl⟩ := Option.isSome_iff_exists.1 hsome
    obtain ⟨hqe, hkey⟩ :=
      (L.found_iff (hy.filed : Filed see (e.filings id)) hy.key_of_set hκ hh ho).1 rfl
    exact ⟨q, hqe, hkey, trivial⟩
  | range hp => exact .range hp
  | number hi hj => exact .number hi hj
  | str | bytes | boundMethod => constructor

/-- Objects that resemble each other are not found to differ. -/
theorem of_sameContent_eq_ok (h : x.Resembles (Legible.keyAt heap see) R y)
    (hr : Heap.sameContent (Heap.equalWithin n) x y heap = .ok r) : r = true := by
  have hsame : Heap.Same heap (Heap.equalWithin n) x y → r = true := fun hsame => by
    rw [Heap.sameContent_eq_true.2 hsame] at hr
    exact (Except.ok.inj hr).symm
  have hitems : ∀ xs ys : List Handle, (∀ p ∈ xs, P p) → (∀ q ∈ ys, P q) → List.Forall₂ R xs ys →
      Heap.allPairs (Heap.equalWithin n) xs ys heap = .ok r → r = true := by
    intro xs ys hxs hys hpairs
    exact allPairs_eq_ok (forall₂_mono hpairs fun p hp q hq hpq c hc =>
      (hR p q c (hxs p hp) (hys q hq) hc).2 hpq)
  cases h with
  | str | bytes | boundMethod => exact hsame (by constructor)
  | range hp => exact hsame (.range hp)
  | number hi hj => exact hsame (.number hi hj)
  | @list xs ys h | @tuple xs ys h =>
    have hsize : xs.size = ys.size := by simpa using h.length_eq
    simp only [Heap.sameContent, if_pos hsize] at hr
    exact hitems _ _ hx.parts hy.parts h hr
  | @dict d e hsize h =>
    simp only [Heap.sameContent, if_pos hsize] at hr
    refine Heap.of_allM_eq_ok (fun p hp c hc => ?_) hr
    obtain ⟨hash, κ, hκ, hh, hhash⟩ := hx.keyed_of_dict L hp
    obtain ⟨k, hk, hc⟩ := Heap.bind_eq_ok.1 hc
    rw [Heap.attempt_eq_some.2 hhash, Except.ok.injEq] at hk
    subst hk
    obtain ⟨o, ho, hc⟩ := Heap.bind_eq_ok.1 hc
    obtain ⟨q, hq, hkey, hpq⟩ := h p hp
    obtain rfl := (L.found_iff hy.filed hy.key_of_dict hκ hh ho).2 ⟨hq, hkey⟩
    exact (hR _ _ c (hx.value_of_dict p hp) (hy.value_of_dict q hq) hc).2 hpq
  | @set d e hsize h =>
    simp only [Heap.sameContent, if_pos hsize] at hr
    refine Heap.of_allM_eq_ok (fun k hk c hc => ?_) hr
    obtain ⟨hash, κ, hκ, hh, hhash⟩ := hx.keyed_of_set L hk
    obtain ⟨u, hu, hc⟩ := Heap.bind_eq_ok.1 hc
    rw [Heap.attempt_eq_some.2 hhash, Except.ok.injEq] at hu
    subst hu
    obtain ⟨o, ho, rfl⟩ := Heap.findM?_of_anyM hc
    obtain ⟨q, hq, hkey, -⟩ := h k hk
    rw [(L.found_iff (hy.filed : Filed see (e.filings id)) hy.key_of_set hκ hh ho).2 ⟨hq, hkey⟩]
    rfl

/-- What comparing objects answers is whether they resemble each other. -/
theorem sameContent_iff (hr : Heap.sameContent (Heap.equalWithin n) x y heap = .ok r) :
    r = true ↔ x.Resembles (Legible.keyAt heap see) R y := by
  constructor
  · rintro rfl
    exact resembles_of_same L hR hx hy (Heap.sameContent_eq_true.1 hr)
  · exact fun h => of_sameContent_eq_ok L hR hx hy h hr

end Content

/-! ## Values that resemble each other -/

namespace Heap

/-- One step of comparing values, given how their parts are related. -/
def resembling (heap : Heap) (see : Handle → Option Object) :
    (Handle → Handle → Prop) →o (Handle → Handle → Prop) where
  toFun R a b := a = b ∨ ∃ x y, see a = some x ∧ see b = some y ∧
    x.Resembles (Legible.keyAt heap see) R y
  monotone' R S hRS a b := by
    rintro (rfl | ⟨x, y, hx, hy, h⟩)
    · exact .inl rfl
    · exact .inr ⟨x, y, hx, hy, h.mono fun p _ q _ => hRS p q⟩

/-- Two values have the same structure, as far as there is any. -/
def Resemble (heap : Heap) (see : Handle → Option Object) : Handle → Handle → Prop :=
  (heap.resembling see).gfp

variable {heap : Heap} {see : Handle → Option Object} {a b : Handle} {x y : Object}

theorem resemble_eq : heap.resembling see (heap.Resemble see) = heap.Resemble see :=
  OrderHom.map_gfp _

theorem Resemble.refl (a : Handle) : heap.Resemble see a a := by
  rw [← resemble_eq]
  exact .inl rfl

theorem resemble_iff (hx : see a = some x) (hy : see b = some y) : heap.Resemble see a b ↔
    a = b ∨ x.Resembles (Legible.keyAt heap see) (heap.Resemble see) y := by
  conv_lhs => rw [← resemble_eq]
  refine or_congr_right ⟨?_, fun h => ⟨x, y, hx, hy, h⟩⟩
  rintro ⟨x', y', hx', hy', h⟩
  rw [hx, Option.some.injEq] at hx'
  rw [hy, Option.some.injEq] at hy'
  exact hx' ▸ hy' ▸ h

/-- Values are related only if they resemble each other, where related values are one or have the
same content, up to the relation. -/
theorem resemble_of {R : Handle → Handle → Prop} (hR : R ≤ heap.resembling see R) (h : R a b) :
    heap.Resemble see a b :=
  OrderHom.le_gfp _ hR a b h

end Heap

/-- Values that can be read through and through, though they may contain themselves; but what they
have stored as keys does not. -/
def Readable (see : Handle → Option Object) (P : Handle → Prop) : Prop :=
  ∀ v, P v → ∃ o, see v = some o ∧ (∀ p ∈ o.parts, P p) ∧ ∀ e ∈ o.filings, Grounded see e.2

/-- The keys of a table are among the parts. -/
theorem Object.mem_parts_of_filings {o : Object} {e : UInt64 × Handle} (h : e ∈ o.filings) :
    e.2 ∈ o.parts := by
  cases o with
  | dict t =>
    obtain ⟨x, hx, hk⟩ := Table.mem_filings.1 h
    exact List.mem_flatMap.2 ⟨x, Table.mem_of_mem_bucket hx, by simp [← hk]⟩
  | set t =>
    obtain ⟨x, hx, hk⟩ := Table.mem_filings.1 h
    exact hk ▸ Table.mem_of_mem_bucket hx
  | _ => cases h

/-- Grounded values can be read through and through. -/
theorem readable_grounded (see : Handle → Option Object) : Readable see (Grounded see) := by
  rintro v ⟨ho, hparts⟩
  exact ⟨_, ho, hparts, fun e he => hparts _ (Object.mem_parts_of_filings he)⟩

/-! ## Resemblance in two heaps -/

/-- Only the keys of what is filed matter. -/
theorem Object.Resembles.rekey {key key' : Handle → Option Key} {R : Handle → Handle → Prop}
    {x y : Object} (h : x.Resembles key R y) (hx : ∀ e ∈ x.filings, key e.2 = key' e.2)
    (hy : ∀ e ∈ y.filings, key e.2 = key' e.2) : x.Resembles key' R y := by
  cases h with
  | list h => exact .list h
  | tuple h => exact .tuple h
  | dict hsize h =>
    refine .dict hsize fun p hp => ?_
    obtain ⟨q, hq, hkey, hpq⟩ := h p hp
    obtain ⟨hash, hm⟩ := Object.exists_filing_of_dict hp
    obtain ⟨hash', hm'⟩ := Object.exists_filing_of_dict hq
    exact ⟨q, hq, (hy _ hm').symm.trans (hkey.trans (hx _ hm)), hpq⟩
  | set hsize h =>
    refine .set hsize fun k hk => ?_
    obtain ⟨q, hq, hkey, hpq⟩ := h k hk
    obtain ⟨hash, hm⟩ := Object.exists_filing_of_set hk
    obtain ⟨hash', hm'⟩ := Object.exists_filing_of_set hq
    exact ⟨q, hq, (hy _ hm').symm.trans (hkey.trans (hx _ hm)), hpq⟩
  | range hp => exact .range hp
  | number hi hj => exact .number hi hj
  | str | bytes | boundMethod => constructor

/-- Values that two heaps have in common, with their parts and the keys of what they have filed. -/
def Shared (a b : Heap) (seeA seeB : Handle → Option Object) (P : Handle → Prop) : Prop :=
  ∀ v, P v → ∃ o, seeA v = some o ∧ seeB v = some o ∧ (∀ p ∈ o.parts, P p) ∧
    ∀ e ∈ o.filings, Legible.keyAt a seeA e.2 = Legible.keyAt b seeB e.2

section Shared

variable {a b : Heap} {seeA seeB : Handle → Option Object} {P : Handle → Prop} {v w : Handle}

theorem Shared.symm (h : Shared a b seeA seeB P) : Shared b a seeB seeA P := fun v hv => by
  obtain ⟨o, hA, hB, hparts, hkeys⟩ := h v hv
  exact ⟨o, hB, hA, hparts, fun e he => (hkeys e he).symm⟩

theorem Shared.resemble (h : Shared a b seeA seeB P) (hv : P v) (hw : P w)
    (hvw : a.Resemble seeA v w) : b.Resemble seeB v w := by
  refine Heap.resemble_of (R := fun v w => P v ∧ P w ∧ a.Resemble seeA v w) ?_ ⟨hv, hw, hvw⟩
  rintro v w ⟨hv, hw, hvw⟩
  obtain ⟨x, hxA, hxB, hx, hxkeys⟩ := h v hv
  obtain ⟨y, hyA, hyB, hy, hykeys⟩ := h w hw
  rcases (Heap.resemble_iff hxA hyA).1 hvw with rfl | hxy
  · exact .inl rfl
  · exact .inr ⟨x, y, hxB, hyB, (hxy.rekey hxkeys hykeys).mono fun p hp q hq hpq =>
      ⟨hx p hp, hy q hq, hpq⟩⟩

/-- Whether values that two heaps have in common resemble each other is the same in both. -/
theorem Shared.resemble_iff (h : Shared a b seeA seeB P) (hv : P v) (hw : P w) :
    b.Resemble seeB v w ↔ a.Resemble seeA v w :=
  ⟨h.symm.resemble hv hw, h.resemble hv hw⟩

end Shared

/-! ## Answers of equality -/

section Readable

variable {heap : Heap} {see : Handle → Option Object} {P : Handle → Prop} (L : Legible heap see)
  (hP : Readable see P)

include L hP

theorem Readable.entered {v : Handle} (hv : P v) : ∃ o, see v = some o ∧ Entered see P o := by
  obtain ⟨o, ho, hparts, hkeys⟩ := hP v hv
  exact ⟨o, ho, ⟨L.trim v o (L.shows v o ho), L.filed v o ho, hparts⟩, hkeys⟩

theorem Readable.entered_of {v : Handle} {o : Object} (hv : P v) (ho : see v = some o) :
    Entered see P o := by
  obtain ⟨o', ho', e⟩ := hP.entered L hv
  rw [ho, Option.some.injEq] at ho'
  exact ho' ▸ e

/-- **Resemblance** is an equivalence. -/
theorem sameOn_resemble : SameOn P (heap.Resemble see) := by
  refine ⟨fun a _ => .refl a, fun a b ha hb h => ?_, fun a b c ha hb hc hab hbc => ?_⟩
  · -- the relation the other way round goes on as resemblance does
    refine Heap.resemble_of (R := fun a b => P a ∧ P b ∧ heap.Resemble see b a) ?_ ⟨hb, ha, h⟩
    rintro a b ⟨ha, hb, h⟩
    obtain ⟨x, hx, ex⟩ := hP.entered L ha
    obtain ⟨y, hy, ey⟩ := hP.entered L hb
    rcases (Heap.resemble_iff hy hx).1 h with rfl | h
    · exact .inl rfl
    · exact .inr ⟨x, y, hx, hy, h.symm ey ex L fun p q hp hq hpq => ⟨hq, hp, hpq⟩⟩
  · -- and so does resemblance in two steps
    refine Heap.resemble_of (R := fun a c => P a ∧ P c ∧
      ∃ b, P b ∧ heap.Resemble see a b ∧ heap.Resemble see b c) ?_ ⟨ha, hc, b, hb, hab, hbc⟩
    rintro a c ⟨ha, hc, b, hb, hab, hbc⟩
    obtain ⟨x, hx, ex⟩ := hP.entered L ha
    obtain ⟨y, hy, ey⟩ := hP.entered L hb
    obtain ⟨z, hz, ez⟩ := hP.entered L hc
    have hone : ∀ {o o' : Object}, Entered see P o → Entered see P o' →
        o.Resembles (Legible.keyAt heap see) (heap.Resemble see) o' →
        o.Resembles (Legible.keyAt heap see) (fun a c => P a ∧ P c ∧
          ∃ b, P b ∧ heap.Resemble see a b ∧ heap.Resemble see b c) o' := fun eo eo' h =>
      h.mono fun p hp q hq hpq =>
        ⟨eo.parts p hp, eo'.parts q hq, q, eo'.parts q hq, hpq, .refl q⟩
    rcases (Heap.resemble_iff hx hy).1 hab with rfl | hxy
    · rcases (Heap.resemble_iff hx hz).1 hbc with rfl | hxz
      · exact .inl rfl
      · exact .inr ⟨x, z, hx, hz, hone ex ez hxz⟩
    · rcases (Heap.resemble_iff hy hz).1 hbc with rfl | hyz
      · exact .inr ⟨x, y, hx, hy, hone ex ey hxy⟩
      · exact .inr ⟨x, z, hx, hz, hxy.trans ex ey ez hyz fun p q r hp hq hr hpq hqr =>
          ⟨hp, hr, q, hq, hpq, hqr⟩⟩

/-- **Answers.** Whatever the depth, equality answers whether two values resemble each other. -/
theorem equalWithin_iff (n : Nat) :
    Agrees heap P (heap.Resemble see) (Heap.equalWithin n) := by
  induction n with
  | zero => exact fun a b r _ _ h => nomatch h
  | succ n ih =>
    intro a b r ha hb h
    obtain ⟨x, hx, ex⟩ := hP.entered L ha
    obtain ⟨y, hy, ey⟩ := hP.entered L hb
    rw [Heap.equalWithin_succ (L.shows a x hx) (L.shows b y hy)] at h
    rw [Heap.resemble_iff hx hy]
    split at h
    case isTrue hab => exact ⟨fun _ => .inl hab, fun _ => (Except.ok.inj h).symm⟩
    case isFalse hab => rw [or_iff_right hab, sameContent_iff L ih ex ey h]

end Readable

end ObjectSpace
