import ObjectSpace.Proofs.Value.Resemblance

/-!
# Equality as an equivalence

**Theorem (`Legible.equality`).** On grounded values whose tables are filed, `Heap.equal` always
answers, and it is reflexive, symmetric and transitive.

It answers since grounded values are nested at most as deep as the heap has cells; this is an
induction on depth over pairs of objects, and it is enough that one of the two values is grounded
(`compares_grounded`). And it answers whether the values resemble each other, which is an
equivalence (`sameOn_resemble`).
-/

namespace ObjectSpace

open Heap (Yes Same)

/-! ## Objects with comparable parts -/

/-- Comparing values of one kind with values of another answers. -/
def Compares (heap : Heap) (P Q : Handle → Prop) (related : Handle → Handle → Query Bool) : Prop :=
  ∀ a b, P a → Q b → ∃ r, related a b heap = .ok r

theorem Heap.numbers_ok {heap : Heap} (a b : Option Int64) :
    ∃ r, (match a, b with
      | some i, some j => return i == j
      | _, _ => return false : Query Bool) heap = .ok r := by
  cases a <;> cases b <;> exact ⟨_, rfl⟩

section Content

variable {heap : Heap} {see : Handle → Option Object} {n : Nat} {P Q : Handle → Prop}
  {x y : Object} (L : Legible heap see)

include L

/-- Objects with comparable parts can be compared. What tables have stored is compared the other
way round. -/
theorem sameContent_ok (E : Compares heap P Q (Heap.equalWithin n))
    (E' : Compares heap Q P (Heap.equalWithin n)) (hx : Entered see P x) (hy : Entered see Q y) :
    ∃ r, Heap.sameContent (Heap.equalWithin n) x y heap = .ok r := by
  unfold Heap.sameContent
  split
  case h_1 | h_2 | h_7 | h_8 => exact ⟨_, rfl⟩
  case h_3 xs ys | h_4 xs ys =>
    split
    · exact Heap.allPairs_ok fun x hxm y hym => E x y (hx.parts x hxm) (hy.parts y hym)
    · exact ⟨false, rfl⟩
  case h_5 d e =>
    split
    · refine Heap.allM_ok fun p hp => ?_
      obtain ⟨h, κ, -, -, hhash⟩ := hx.keyed_of_dict L hp
      obtain ⟨hp₁, hp₂⟩ := Object.entries_of_parts hx.parts p hp
      have hq : ∀ {h q}, q ∈ e.bucket h → Q q.1 ∧ Q q.2 := fun {h q} hq =>
        Object.entries_of_parts hy.parts q (Table.mem_of_mem_bucket hq)
      have htest : ∀ q ∈ e.bucket h, ∃ r, Heap.equalWithin n q.1 p.1 heap = .ok r :=
        fun q hm => E' _ _ (hq hm).1 hp₁
      obtain ⟨o, ho⟩ := Heap.findM?_ok htest
      have hhash := Heap.attempt_eq_some.2 hhash
      cases o with
      | none =>
        exact ⟨false, Heap.bind_eq_ok.2 ⟨some h, hhash, Heap.bind_eq_ok.2 ⟨none, ho, rfl⟩⟩⟩
      | some q =>
        obtain ⟨r, hr⟩ := E _ _ hp₂ (hq (Heap.of_findM?_eq_some ho).1).2
        exact ⟨r, Heap.bind_eq_ok.2 ⟨some h, hhash, Heap.bind_eq_ok.2 ⟨some q, ho, hr⟩⟩⟩
    · exact ⟨false, rfl⟩
  case h_6 d e =>
    split
    · refine Heap.allM_ok fun k hk => ?_
      obtain ⟨h, κ, -, -, hhash⟩ := hx.keyed_of_set L hk
      have htest : ∀ q ∈ e.bucket h, ∃ r, Heap.equalWithin n q k heap = .ok r :=
        fun q hq => E' q k (hy.parts q (Table.mem_of_mem_bucket hq)) (hx.parts k hk)
      obtain ⟨r, hr⟩ := Heap.anyM_ok htest
      exact ⟨r, Heap.bind_eq_ok.2 ⟨some h, Heap.attempt_eq_some.2 hhash, hr⟩⟩
    · exact ⟨false, rfl⟩
  case h_9 => exact Heap.numbers_ok _ _

/-- Objects have the same content when they resemble each other, up to equality of their parts. -/
theorem same_iff_resembles (E : Compares heap P P (Heap.equalWithin n)) (hx : Entered see P x)
    (hy : Entered see P y) : Same heap (Heap.equalWithin n) x y ↔
      x.Resembles (Legible.keyAt heap see) (Yes heap (Heap.equalWithin n)) y := by
  have hyes : Agrees heap P (Yes heap (Heap.equalWithin n)) (Heap.equalWithin n) := by
    intro a b r _ _ h
    rw [Yes, h, Except.ok.injEq]
  obtain ⟨r, hr⟩ := sameContent_ok L E E hx hy
  rw [← sameContent_iff L hyes hx hy hr, ← Heap.sameContent_eq_true, hr, Except.ok.injEq]

end Content

/-! ## Values -/

/-- Equality answers on some values, and it is an equivalence relation there. -/
structure EqualityOn (heap : Heap) (P : Handle → Prop) : Prop where
  total : ∀ a b, P a → P b → ∃ r, Heap.equal a b heap = .ok r
  refl : ∀ a, P a → Heap.equal a a heap = .ok true
  symm : ∀ a b, P a → P b → Heap.equal a b heap = .ok true → Heap.equal b a heap = .ok true
  trans : ∀ a b c, P a → P b → P c → Heap.equal a b heap = .ok true →
    Heap.equal b c heap = .ok true → Heap.equal a c heap = .ok true

namespace Legible

variable {heap : Heap} {see : Handle → Option Object} (L : Legible heap see)

include L

theorem entered {n : Nat} {v : Handle} {o : Object} (g : Grounded see v) (ho : see v = some o)
    (w : ∀ p ∈ o.parts, Within see n p) :
    Entered see (fun v => Grounded see v ∧ Within see n v) o := by
  have hparts : ∀ p ∈ o.parts, Grounded see p := fun p hp => g.part ⟨o, ho, hp⟩
  exact ⟨⟨L.trim v o (L.shows v o ho), L.filed v o ho, fun p hp => ⟨hparts p hp, w p hp⟩⟩,
    fun e he => hparts _ (Object.mem_parts_of_filings he)⟩

/-- Within any depth that a grounded value is nested at most, comparing it answers, either way
round: the comparison comes to an end with the parts of that value. -/
theorem compares_grounded {P : Handle → Prop} (hP : Readable see P) (n : Nat) :
    Compares heap P (fun v => Grounded see v ∧ Within see n v) (Heap.equalWithin n) ∧
      Compares heap (fun v => Grounded see v ∧ Within see n v) P (Heap.equalWithin n) := by
  induction n with
  | zero => exact ⟨fun _ _ _ hb => hb.2.elim, fun _ _ ha => ha.2.elim⟩
  | succ n ih =>
    have hsides : ∀ a b, P a → Grounded see b ∧ Within see (n + 1) b →
        (∃ r, Heap.equalWithin (n + 1) a b heap = .ok r) ∧
          ∃ r, Heap.equalWithin (n + 1) b a heap = .ok r := by
      rintro a b ha ⟨gb, y, hy, wy⟩
      obtain ⟨x, hx, ex⟩ := hP.entered L ha
      have ey := L.entered gb hy wy
      rw [Heap.equalWithin_succ (L.shows a x hx) (L.shows b y hy),
        Heap.equalWithin_succ (L.shows b y hy) (L.shows a x hx)]
      constructor
      · split
        · exact ⟨true, rfl⟩
        · exact sameContent_ok L ih.1 ih.2 ex ey
      · split
        · exact ⟨true, rfl⟩
        · exact sameContent_ok L ih.2 ih.1 ey ex
    exact ⟨fun a b ha hb => (hsides a b ha hb).1, fun a b ha hb => (hsides b a hb ha).2⟩

theorem equalWithin_ok (n : Nat) :
    Compares heap (fun v => Grounded see v ∧ Within see n v)
      (fun v => Grounded see v ∧ Within see n v) (Heap.equalWithin n) := fun a b ha =>
  (L.compares_grounded (readable_grounded see) n).1 a b ha.1

theorem equal_iff_resemble {P : Handle → Prop} (hP : Readable see P) {a b : Handle} {r : Bool}
    (ha : P a) (hb : P b) (h : Heap.equal a b heap = .ok r) :
    r = true ↔ heap.Resemble see a b := by
  obtain ⟨d, -, h⟩ := Heap.bind_eq_ok.1 h
  exact equalWithin_iff L hP d a b r ha hb h

theorem equal_grounded {P : Handle → Prop} (hP : Readable see P) {a b : Handle} (ha : P a)
    (gb : Grounded see b) : ∃ r, Heap.equal a b heap = .ok r := by
  have hb : Within see (heap.capacity + 1) b := (gb.within L.shows).mono (Nat.le_succ _)
  obtain ⟨r, hr⟩ := (L.compares_grounded hP (heap.capacity + 1)).1 a b ha ⟨gb, hb⟩
  exact ⟨r, Heap.bind_eq_ok.2 ⟨_, Heap.depth_eq_ok.2 rfl, hr⟩⟩

theorem equal_ok {a b : Handle} (ga : Grounded see a) (gb : Grounded see b) :
    ∃ r, Heap.equal a b heap = .ok r := L.equal_grounded (readable_grounded see) ga gb

theorem equal_true_iff {a b : Handle} (ga : Grounded see a) (gb : Grounded see b) :
    Heap.equal a b heap = .ok true ↔ heap.Resemble see a b := by
  obtain ⟨r, hr⟩ := L.equal_ok ga gb
  rw [hr, Except.ok.injEq, L.equal_iff_resemble (readable_grounded see) ga gb hr]

/-- **Equality.** On grounded values equality always answers, and it is an equivalence. -/
theorem equality : EqualityOn heap (Grounded see) := by
  have S := sameOn_resemble L (readable_grounded see)
  refine
    { total := fun a b => L.equal_ok
      refl := fun a ga => (L.equal_true_iff ga ga).2 (S.refl a ga)
      symm := fun a b ga gb h => ?symm
      trans := fun a b c ga gb gc h h' => ?trans }
  case symm =>
    rw [L.equal_true_iff ga gb] at h
    exact (L.equal_true_iff gb ga).2 (S.symm a b ga gb h)
  case trans =>
    rw [L.equal_true_iff ga gb] at h
    rw [L.equal_true_iff gb gc] at h'
    exact (L.equal_true_iff ga gc).2 (S.trans a b c ga gb gc h h')

end Legible

end ObjectSpace
